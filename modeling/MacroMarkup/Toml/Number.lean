import MacroMarkup.Toml.Lexeme

/-!
# Numbers of TOML

An underscore may stand between two digits, and nowhere else.  A number in plain decimals
has no needless zeros in front.

* `digits?`: the values of the digits in a base; `ofDigits`: the number they make.
* `integer?`: whole numbers of 64 bits, in four bases.
* `Decimal`: numbers with a fraction or an exponent; `decimal?` reads one.
* `Decimal.isHuge`: whether such a number is beyond the doubles;
  `Decimal.isHuge_of_eq_zero`: zero is not, whatever its exponent.
* `isReal`: the spellings of a floating-point number.
-/

namespace MacroMarkup.Toml

def digits? (base : Nat) (afterDigit : Bool) : List Char → Option (List Nat)
  | [] => if afterDigit then some [] else none
  | c :: rest =>
    if c = '_' then if afterDigit then digits? base false rest else none
    else do
      let value ← hexValue? c
      if value < base then return value :: (← digits? base true rest) else none

def ofDigits (base : Nat) (digits : List Nat) : Nat :=
  digits.foldl (fun n digit => base * n + digit) 0

/-- Whether a minus stands in front, and what is left behind the sign. -/
def splitSign : List Char → Bool × List Char
  | '-' :: rest => (true, rest)
  | '+' :: rest => (false, rest)
  | cs => (false, cs)

def withSign (negative : Bool) (n : Nat) : Int := if negative then -Int.ofNat n else Int.ofNat n

def wholeDigits? : List Char → Option (List Nat)
  | ['0'] => some [0]
  | '0' :: _ => none
  | cs => digits? 10 false cs

/-- A whole number of 64 bits.  Only plain decimals may have a sign. -/
def integer? (cs : List Char) : Option Int := do
  let n ← match cs with
    | '0' :: 'x' :: rest => (digits? 16 false rest).map fun ds => Int.ofNat (ofDigits 16 ds)
    | '0' :: 'o' :: rest => (digits? 8 false rest).map fun ds => Int.ofNat (ofDigits 8 ds)
    | '0' :: 'b' :: rest => (digits? 2 false rest).map fun ds => Int.ofNat (ofDigits 2 ds)
    | cs =>
      let (negative, rest) := splitSign cs
      (wholeDigits? rest).map fun ds => withSign negative (ofDigits 10 ds)
  if -0x8000000000000000 ≤ n && n < 0x8000000000000000 then some n else none

structure Decimal where
  negative : Bool
  /-- The digits before the point and behind it, as they are written. -/
  digits : List Nat
  /-- How many of the digits stand before the point once the exponent has moved it.  Less
  than none and more than all of them are possible. -/
  point : Int
deriving DecidableEq, Repr

def fractionDigits? : List Char → Option (List Nat)
  | [] => some []
  | _ :: rest => digits? 10 false rest

/-- The exponent behind its mark, if there is one.  It may have zeros in front. -/
def exponent? : List Char → Option Int
  | [] => some 0
  | _ :: rest =>
    let (negative, rest) := splitSign rest
    (digits? 10 false rest).map fun ds => withSign negative (ofDigits 10 ds)

def decimal? (cs : List Char) : Option Decimal := do
  let (negative, cs) := splitSign cs
  let mantissa := cs.takeWhile fun c => c ≠ 'e' && c ≠ 'E'
  let power := cs.dropWhile fun c => c ≠ 'e' && c ≠ 'E'
  let fraction := mantissa.dropWhile (· ≠ '.')
  if fraction.isEmpty && power.isEmpty then none
  let before ← wholeDigits? (mantissa.takeWhile (· ≠ '.'))
  let behind ← fractionDigits? fraction
  return ⟨negative, before ++ behind, before.length + (← exponent? power)⟩

namespace Decimal

/-- The number of digits before the point of the largest double. -/
def maxPoint : Nat := 309

/-- The least number that rounds to infinity and not to the largest double: it lies half
way between that and the next power of two, and a half goes to the even neighbour. -/
def infinityBound : Nat := 0x3fffffffffffff <<< 970

/-- The magnitude rounds to infinity. -/
def isHuge (d : Decimal) : Bool :=
  let significant := d.digits.dropWhile (· == 0)
  let point := d.point - (d.digits.length - significant.length : Nat)
  let whole := (significant ++ List.replicate maxPoint 0).take maxPoint
  !significant.isEmpty
    && (maxPoint < point || (point == maxPoint && infinityBound ≤ ofDigits 10 whole))

theorem dropWhile_zero_eq_nil {digits : List Nat} (h : ∀ digit ∈ digits, digit = 0) :
    digits.dropWhile (· == 0) = [] := by
  induction digits with
  | nil => rfl
  | cons digit rest ih =>
    obtain rfl : digit = 0 := h digit (by simp)
    simpa using ih fun n mem => h n (by simp [mem])

theorem isHuge_of_eq_zero {d : Decimal} (h : ∀ digit ∈ d.digits, digit = 0) :
    d.isHuge = false := by
  simp [isHuge, dropWhile_zero_eq_nil h]

end Decimal

def isNonFinite (cs : List Char) : Bool :=
  let (_, name) := splitSign cs
  name == ['i', 'n', 'f'] || name == ['n', 'a', 'n']

/-- The spelling of a floating-point number.  A positive number beyond the doubles is
refused, while a negative one counts as minus infinity. -/
def isReal (cs : List Char) : Bool :=
  isNonFinite cs ||
    match decimal? cs with
    | some d => d.negative || !d.isHuge
    | none => false

end MacroMarkup.Toml
