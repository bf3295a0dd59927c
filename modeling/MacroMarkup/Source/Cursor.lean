import MacroMarkup.Fault

/-!
# A cursor over a source

A `Cursor` stands between two code points of a source.  It looks ahead, moves
on, and hands out the inspectors whose place it has reached.

* `Cursor.peek`, `Cursor.accept`: look for a literal, and move past it.
* `Cursor.takeChar?`, `Cursor.takeBlank?`: move past one code point.
* `Cursor.skipWhile`, `Cursor.advance`: move past several.
* `Cursor.takeThrough?`: move past the next occurrence of a literal.
* `Cursor.takeInspectors`: the inspectors that are due.
* `accept_of_not_peek`, `length_rest_advance`: a failed look moves
  nothing, and what is left shrinks by what was passed.
-/

namespace MacroMarkup

/-- A request to look at the engine when the cursor reaches `position`.  The
`tag` tells inspectors of one position apart. -/
structure Inspector where
  position : Nat
  tag : Nat
deriving DecidableEq, Repr

/-- Spaces and tabs. A line break is not a blank. -/
def isBlank (c : Char) : Bool := c == ' ' || c == '\t'

def isSpacing (c : Char) : Bool := isBlank c || c == '\n'

/-- A place in a source: what is still ahead, and how much lies behind. -/
structure Cursor where
  source : List Char
  rest : List Char
  position : Nat
  /-- Inspectors that were not handed out yet, in the order of their positions. -/
  inspectors : List Inspector

namespace Cursor

/-- Puts `x` behind the inspectors that do not come after it. -/
def insertInspector (x : Inspector) : List Inspector → List Inspector
  | [] => [x]
  | y :: ys => if y.position ≤ x.position then y :: insertInspector x ys else x :: y :: ys

/-- The start of a source. Inspectors of one position keep their order. -/
def ofString (source : String) (inspectors : List Inspector) : Cursor where
  source := source.toList
  rest := source.toList
  position := 0
  inspectors := inspectors.foldl (fun sorted x => insertInspector x sorted) []

def isAtEnd (c : Cursor) : Bool := c.rest.isEmpty

def peek (c : Cursor) (literal : String) : Bool := literal.toList.isPrefixOf c.rest

/-- Moves past `n` code points, or to the end if there are fewer. -/
def advance (c : Cursor) (n : Nat) : Cursor :=
  { c with rest := c.rest.drop n, position := c.position + (c.rest.take n).length }

def accept (c : Cursor) (literal : String) : Bool × Cursor :=
  if c.peek literal then (true, c.advance literal.toList.length) else (false, c)

def takeChar? (c : Cursor) : Option (Char × Cursor) :=
  match c.rest with
  | [] => none
  | x :: xs => some (x, { c with rest := xs, position := c.position + 1 })

def takeBlank? (c : Cursor) : Option (Char × Cursor) :=
  match c.rest with
  | [] => none
  | x :: xs =>
    if isBlank x then some (x, { c with rest := xs, position := c.position + 1 }) else none

def skipWhile (c : Cursor) (p : Char → Bool) : Cursor :=
  { c with
    rest := c.rest.dropWhile p
    position := c.position + (c.rest.takeWhile p).length }

/-- The text up to and including the first place where `literal` stands, and
what follows.  No place is looked at behind the last code point. -/
def splitThrough? (literal : List Char) : List Char → Option (List Char × List Char)
  | [] => none
  | c :: cs =>
    if literal.isPrefixOf (c :: cs) then some (literal, (c :: cs).drop literal.length)
    else (splitThrough? literal cs).map fun (before, after) => (c :: before, after)

/-- Moves past the next occurrence of the literal and answers the text passed.
Without an occurrence, moves to the end and answers nothing. -/
def takeThrough? (c : Cursor) (literal : String) : Option String × Cursor :=
  match splitThrough? literal.toList c.rest with
  | some (passed, after) =>
    (some (String.ofList passed),
      { c with rest := after, position := c.position + passed.length })
  | none => (none, { c with rest := [], position := c.position + c.rest.length })

/-- The source text between two offsets, both cut off at the end. -/
def slice (c : Cursor) (start stop : Nat) : String :=
  String.ofList ((c.source.drop start).take (stop - start))

/-- The inspectors whose position is reached, which are then forgotten. -/
def takeInspectors (c : Cursor) : List Inspector × Cursor :=
  let due := c.inspectors.takeWhile (·.position ≤ c.position)
  (due, { c with inspectors := c.inspectors.dropWhile (·.position ≤ c.position) })

theorem accept_of_not_peek {c : Cursor} {literal : String} (h : c.peek literal = false) :
    c.accept literal = (false, c) := by
  simp [accept, h]

theorem length_rest_advance (c : Cursor) (n : Nat) :
    (c.advance n).rest.length = c.rest.length - n := by
  simp [advance]

theorem position_advance_of_le {c : Cursor} {n : Nat} (h : n ≤ c.rest.length) :
    (c.advance n).position = c.position + n := by
  simp [advance, List.length_take, Nat.min_eq_left h]

theorem takeWhile_append_rest_skipWhile (c : Cursor) (p : Char → Bool) :
    c.rest.takeWhile p ++ (c.skipWhile p).rest = c.rest := by
  simp [skipWhile]

end Cursor

end MacroMarkup
