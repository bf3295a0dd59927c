import MacroMarkup.Source.Span

/-!
# Lines of a source

A `LineIndex` holds the offsets of a source's line breaks and its length.  It
turns an offset into a row and a column and back; both count from zero.  A line
break is the last column of the line it ends, and the end of the source is a
place too.

* `LineIndex.locate`: the place of an offset; `locate_eq_none_iff` says it is
  missing only past the end.
* `LineIndex.offsetAt`: the offset of a place, if the line is there and has the
  column.
* `length_breaksFrom`: there are as many breaks as line break characters.
-/

namespace MacroMarkup

/-- An offset together with its line and its place in the line. -/
structure Location where
  offset : Nat
  row : Nat
  column : Nat
deriving DecidableEq, Repr

/-- The offsets of the line breaks of a source, in order, and its length. -/
structure LineIndex where
  breaks : List Nat
  length : Nat
deriving DecidableEq, Repr

namespace LineIndex

/-- The offsets of the line breaks in a text that starts at `offset`. -/
def breaksFrom (offset : Nat) : List Char → List Nat
  | [] => []
  | c :: cs =>
    if c = '\n' then offset :: breaksFrom (offset + 1) cs else breaksFrom (offset + 1) cs

def ofString (source : String) : LineIndex :=
  ⟨breaksFrom 0 source.toList, source.toList.length⟩

/-- A source without a line break has one line. -/
def lineCount (index : LineIndex) : Nat := index.breaks.length + 1

/-- How many line breaks stand before `offset`. -/
def rowOf (index : LineIndex) (offset : Nat) : Nat :=
  index.breaks.countP (· < offset)

def lineStart? (index : LineIndex) : Nat → Option Nat
  | 0 => some 0
  | row + 1 => (index.breaks[row]?).map (· + 1)

/-- Where the line `row` ends: at its line break, or with the source. -/
def lineEnd (index : LineIndex) (row : Nat) : Nat :=
  (index.breaks[row]?).getD index.length

/-- The row and column of `offset`, unless it lies past the end. -/
def locate (index : LineIndex) (offset : Nat) : Option Location :=
  if index.length < offset then none
  else
    let row := index.rowOf offset
    some ⟨offset, row, offset - (index.lineStart? row).getD 0⟩

/-- The offset of a row and column, if that line is there and has that column. -/
def offsetAt (index : LineIndex) (row column : Nat) : Except Fault (Option Nat) :=
  match index.lineStart? row with
  | none => .ok none
  | some start => do
    let offset ← addOffsets start column
    return if offset ≤ index.lineEnd row then some offset else none

theorem length_breaksFrom (offset : Nat) (cs : List Char) :
    (breaksFrom offset cs).length = cs.count '\n' := by
  induction cs generalizing offset with
  | nil => rfl
  | cons c cs ih =>
    by_cases h : c = '\n' <;> simp [breaksFrom, h, ih]

theorem locate_eq_none_iff {index : LineIndex} {offset : Nat} :
    index.locate offset = none ↔ index.length < offset := by
  unfold locate
  split <;> simp_all

end LineIndex

end MacroMarkup
