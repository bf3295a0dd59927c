/-!
# Texts measured in code points

A `String` is cut and measured here by code points, also where its bytes are
asked for.

* `byteIndex s n`: how many UTF-8 bytes the first `n` code points take.
* `slice s start stop`: the code points from `start` to `stop`, both cut off at
  the end of the text; nothing if `stop` lies before `start`.
-/

namespace MacroMarkup.Text

def byteCount : List Char → Nat
  | [] => 0
  | c :: cs => c.utf8Size + byteCount cs

/-- How many UTF-8 bytes the first `offset` code points of `s` take. -/
def byteIndex (s : String) (offset : Nat) : Nat :=
  byteCount (s.toList.take offset)

/-- The code points of `s` from `start` on, up to `stop`. -/
def slice (s : String) (start stop : Nat) : String :=
  String.ofList ((s.toList.drop start).take (stop - start))

theorem byteCount_append (a b : List Char) :
    byteCount (a ++ b) = byteCount a + byteCount b := by
  induction a with
  | nil => simp [byteCount]
  | cons c cs ih => simp [byteCount, ih, Nat.add_assoc]

theorem slice_eq_empty {s : String} {start stop : Nat} (h : stop ≤ start) :
    slice s start stop = "" := by
  have : stop - start = 0 := by omega
  simp [slice, this]

end MacroMarkup.Text
