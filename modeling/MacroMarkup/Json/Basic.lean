import MacroMarkup.Dict

/-!
# JSON values

`Json` is the tree of a JSON text.  An object is a list of members; printing
puts them into the order of their keys (`Json/Printer.lean`), so the order here
carries no meaning.

* `Json.member?`: the value of a key.
-/

namespace MacroMarkup

inductive Json where
  | null
  | bool (value : Bool)
  | int (value : Int)
  /-- A number written with a fraction: `mantissa` divided by ten `places` times. -/
  | decimal (mantissa : Int) (places : Nat)
  | str (value : String)
  | arr (items : List Json)
  | obj (members : List (String × Json))
deriving Inhabited

namespace Json

def nat (n : Nat) : Json := .int (Int.ofNat n)

def member? (value : Json) (key : String) : Option Json :=
  match value with
  | .obj members => Dict.lookup key members
  | _ => none

def string? : Json → Option String
  | .str s => some s
  | _ => none

/-- The number, if it is a whole number from zero up to, but not including, `limit`. -/
def natBelow? (limit : Nat) : Json → Option Nat
  | .int (.ofNat n) => if n < limit then some n else none
  | _ => none

theorem natBelow?_nat {limit n : Nat} (h : n < limit) : (nat n).natBelow? limit = some n := by
  simp [nat, natBelow?, h]

end Json

end MacroMarkup
