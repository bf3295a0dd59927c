import MacroMarkup.Expansion
import MacroMarkup.Parser.Enclosure
import MacroMarkup.Source.Cursor

/-!
# Reading a source

A `Reader` is a cursor over the source together with the engine that acts on what was
read.  `Parse` is a step of reading.

* `Mark`: the fixed signs of the language and how they are written.
* `Parse.peek`, `Parse.accept`: look for a mark, and move past it.
* `Parse.enter`, `Parse.leave`: record that an enclosure starts or ends at the cursor.
* `Parse.fireInspectors`: shows the context to the inspectors that are due, at a boundary
  between blocks.
* `mark_text_ne_empty`: no mark is empty, so looking for one is no fault.
-/

namespace MacroMarkup

/-- What an inspector saw: the context, when the cursor was at `position`. -/
structure Sighting where
  inspector : Inspector
  position : Nat
  context : Context

/-- The context where a block starts or the document ends, with the cursor at `position`. -/
structure Boundary where
  position : Nat
  context : Context

/-- A cursor and what acts on the text behind it. -/
structure Reader where
  cursor : Cursor
  engine : Engine
  /-- How many groups of blocks are open. -/
  openGroups : Nat
  /-- What inspectors saw, the last one first. -/
  sightings : List Sighting
  /-- The boundaries between blocks that were passed, the last one first. -/
  boundaries : List Boundary
  /-- What was entered that a closing mark should end. -/
  enclosures : Enclosures

namespace Reader

def enter (kind : EnclosureKind) (reader : Reader) : Reader :=
  { reader with enclosures := reader.enclosures.enter kind reader.cursor.position }

def leave (closed : Bool) (reader : Reader) : Reader :=
  { reader with enclosures := reader.enclosures.leave closed reader.cursor.position }

end Reader

abbrev Parse := StateT Reader (Except Fault)

inductive Mark where
  | groupOpen
  | groupClose
  | blockOpen
  | inlineOpen
  | systemOpen
  | headClose
  /-- Ends the arguments of a modifier that has no body. -/
  | headEnd
  | inlineClose
  | inlineCloseOther
  | separator
  | escape
  | newline
deriving DecidableEq, Repr

def Mark.text : Mark → String
  | .groupOpen => ":--"
  | .groupClose => "--:"
  | .blockOpen => "[."
  | .inlineOpen => "[/"
  | .systemOpen => "[-"
  | .headClose => "]"
  | .headEnd => ";"
  | .inlineClose => "[/]"
  | .inlineCloseOther => "[;]"
  | .separator => ":"
  | .escape => "\\"
  | .newline => "\n"

def ModifierKind.opening : ModifierKind → Mark
  | .block => .blockOpen
  | .inline => .inlineOpen
  | .system => .systemOpen

namespace Parse

def expanding {α : Type} (step : Expand α) : Parse α := fun reader => do
  let (a, engine) ← step reader.engine
  return (a, { reader with engine := engine })

def emit (messages : List Message) : Parse Unit := expanding (Expand.emit messages)

def configuration : Parse Configuration := return (← get).engine.context.configuration

def moveCursor (f : Cursor → Cursor) : Parse Unit :=
  modify fun reader => { reader with cursor := f reader.cursor }

def position : Parse Nat := return (← get).cursor.position

def isAtEnd : Parse Bool := return (← get).cursor.isAtEnd

def spanFrom (start : Nat) : Parse Span := do
  let stop ← position
  Span.checked start stop

def peek (mark : Mark) : Parse Bool := return (← get).cursor.peek mark.text

def accept (mark : Mark) : Parse Bool := fun reader =>
  let (found, cursor) := reader.cursor.accept mark.text
  .ok (found, { reader with cursor := cursor })

/-- A registered name is next.  An empty one cannot be looked for. -/
def peekName (name : String) : Parse Bool := do
  if name.isEmpty then throw .emptyLiteral
  return (← get).cursor.peek name

def acceptName (name : String) : Parse Bool := do
  let found ← peekName name
  if found then moveCursor fun cursor => cursor.advance name.toList.length
  return found

def takeChar? : Parse (Option Char) := fun reader =>
  match reader.cursor.takeChar? with
  | some (c, cursor) => .ok (some c, { reader with cursor := cursor })
  | none => .ok (none, reader)

def skipBlanks : Parse Unit := moveCursor fun cursor => cursor.skipWhile isBlank

def skipSpacing : Parse Unit := moveCursor fun cursor => cursor.skipWhile isSpacing

/-- Moves past blanks and line breaks and warns if there are more line breaks than
`limit`. -/
def skipLines (limit : Nat) : Parse Unit := do
  let start ← position
  let passed := (← get).cursor.rest.takeWhile isSpacing
  skipSpacing
  if limit < passed.count '\n' then
    emit [Problem.redundantNewlines.message (← spanFrom start)]

/-- Moves past the rest of a line that should be blank, and warns if it is not. -/
def endLine : Parse Unit := do
  skipBlanks
  if !(← accept .newline) then
    emit [Problem.groupContentInsideLine.message (.empty (← position))]

def enter (kind : EnclosureKind) : Parse Unit := modify (Reader.enter kind)

def leave (closed : Bool) : Parse Unit := modify (Reader.leave closed)

/-- Shows the context at a boundary to the inspectors whose position is reached. -/
def fireInspectors : Parse Unit := modify fun reader =>
  let (due, cursor) := reader.cursor.takeInspectors
  let seen := due.map fun x => Sighting.mk x cursor.position reader.engine.context
  let boundary := Boundary.mk cursor.position reader.engine.context
  { reader with
    cursor := cursor
    sightings := seen.reverse ++ reader.sightings
    boundaries := boundary :: reader.boundaries }

end Parse

theorem mark_text_ne_empty (mark : Mark) : mark.text ≠ "" := by
  cases mark <;> decide

end MacroMarkup
