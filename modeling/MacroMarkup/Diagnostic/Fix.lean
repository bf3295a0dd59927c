import MacroMarkup.Source.Span
import MacroMarkup.Source.Text

/-!
# Fixes

A `Fix` is one edit of a source, offered by a diagnostic: a text put in, or a
range of code points taken out.  `Fix.apply` makes the edit and says where a
cursor in the old source stands in the new one.

* `Fix.edited`: the new source; positions past the end are the end.
* `Fix.moveCursor`: the new cursor.  It counts with the positions as given.
* `moveCursor_of_lt`: a cursor before the edit stays.
-/

namespace MacroMarkup

/-- An edit that resolves a diagnostic. -/
inductive Fix where
  /-- Puts `text` before the code point at `position`. -/
  | insert (info : String) (position : Nat) (text : String)
  /-- Takes out `length` code points from `position` on. -/
  | remove (info : String) (position length : Nat)
deriving DecidableEq, Repr

namespace Fix

def info : Fix → String
  | insert info _ _ => info
  | remove info _ _ => info

def position : Fix → Nat
  | insert _ position _ => position
  | remove _ position _ => position

def edited (fix : Fix) (source : String) : String :=
  let cs := source.toList
  match fix with
  | insert _ position text =>
    String.ofList (cs.take position ++ text.toList ++ cs.drop position)
  | remove _ position length =>
    String.ofList (cs.take position ++ cs.drop (position + length))

/-- Where a cursor stands after the edit: one at or behind an insertion moves on
by it, one inside a removed range moves to the start of it, one behind it moves
back by it. -/
def moveCursor (fix : Fix) (cursor : Nat) : Except Fault Nat :=
  match fix with
  | insert _ position text =>
    if cursor < position then .ok cursor else addOffsets cursor text.toList.length
  | remove _ position length =>
    if cursor < position then .ok cursor
    else if cursor < position + length then .ok position
    else .ok (cursor - length)

/-- Makes the edit.  The end of a removed range has to be an offset. -/
def apply (fix : Fix) (source : String) (cursor : Nat) : Except Fault (String × Nat) := do
  if let .remove _ position length := fix then
    let _ ← addOffsets position length
  let cursor ← fix.moveCursor cursor
  return (fix.edited source, cursor)

theorem moveCursor_of_lt {fix : Fix} {cursor : Nat} (h : cursor < fix.position) :
    fix.moveCursor cursor = .ok cursor := by
  cases fix with
  | insert info place text => exact if_pos h
  | remove info place length => exact if_pos h

end Fix

end MacroMarkup
