import MacroMarkup.Fault

/-!
# Spans

Positions in a source are counted in code points.  A `Span` is a half-open
range of them.  Offsets are natural numbers, and where a sum of two offsets
comes from outside it has to fit 64 bits: `addOffsets` checks this.

* `Span.checked` refuses a range that ends before it starts.
* `Span.cover_eq_self_iff`: `cover` leaves a span unchanged exactly when the other
  span lies inside it.
-/

namespace MacroMarkup

/-- The first number that is too large for an offset. -/
def offsetLimit : Nat := 0x10000000000000000

def addOffsets (a b : Nat) : Except Fault Nat :=
  if a + b < offsetLimit then .ok (a + b) else .error .offsetOverflow

/-- The code points from `start` on, up to but not including `stop`. -/
structure Span where
  start : Nat
  stop : Nat
deriving DecidableEq, Repr, Inhabited

namespace Span

/-- The span from `start` to `stop`, which must not lie before `start`. -/
def checked (start stop : Nat) : Except Fault Span :=
  if start ≤ stop then .ok ⟨start, stop⟩ else .error .reversedSpan

def empty (position : Nat) : Span := ⟨position, position⟩

def length (s : Span) : Nat := s.stop - s.start

def isEmpty (s : Span) : Bool := s.start == s.stop

def cover (s t : Span) : Span := ⟨min s.start t.start, max s.stop t.stop⟩

def contains (s : Span) (offset : Nat) : Bool := s.start ≤ offset && offset < s.stop

theorem checked_of_le {start stop : Nat} (h : start ≤ stop) :
    checked start stop = .ok ⟨start, stop⟩ := by
  simp [checked, h]

theorem cover_eq_self_iff {s t : Span} :
    s.cover t = s ↔ s.start ≤ t.start ∧ t.stop ≤ s.stop := by
  cases s
  simp only [cover, mk.injEq]
  omega

end Span

end MacroMarkup
