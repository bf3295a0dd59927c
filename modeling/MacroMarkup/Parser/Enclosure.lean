/-!
# Enclosures

An enclosure is a stretch of the source that a closing mark should end.  The reader keeps
a record of those that it enters and leaves; nothing that it does depends on the record.

* `Enclosure`: what was entered, and where.
* `Ending`: how it was left.
* `Enclosures`: the record, with `enter` and `leave`.
-/

namespace MacroMarkup

inductive EnclosureKind where
  /-- A group of blocks. -/
  | blocks
  /-- The group of raw text that is the body of a preformatted modifier. -/
  | raw
  /-- An interpolation in an argument, with its closing mark. -/
  | interpolation (closing : String)
deriving DecidableEq, Repr

/-- A stretch of the source that a closing mark should end. -/
structure Enclosure where
  kind : EnclosureKind
  /-- Where its content starts: behind the line that opens a group, behind the opening mark
  of an interpolation. -/
  start : Nat
deriving DecidableEq, Repr

/-- An enclosure that was left: how far it was read, and whether its closing mark was. -/
structure Ending where
  enclosure : Enclosure
  stop : Nat
  closed : Bool
deriving DecidableEq, Repr

structure Enclosures where
  /-- Those that it is in, the innermost first. -/
  around : List Enclosure
  /-- Those that it left, the last one first. -/
  left : List Ending

namespace Enclosures

def enter (kind : EnclosureKind) (position : Nat) (enclosures : Enclosures) : Enclosures :=
  { enclosures with around := ⟨kind, position⟩ :: enclosures.around }

def leave (closed : Bool) (position : Nat) (enclosures : Enclosures) : Enclosures :=
  match enclosures.around with
  | [] => enclosures
  | inner :: outer => ⟨outer, ⟨inner, position, closed⟩ :: enclosures.left⟩

end Enclosures

end MacroMarkup
