import MacroMarkup.Toml.Number

/-!
# Dates and times of TOML

* `Date`, `Time`, `Offset`: a day, a time on a clock, and how far the clock is from UTC.
* `Moment`: a day, a time, or both; `moment?` reads one.
* `Moment.text`: the normal spelling.
* `day_le_of_date?`: a day that was read is a day of its month.
-/

namespace MacroMarkup.Toml

structure Date where
  year : Nat
  month : Nat
  day : Nat
deriving DecidableEq, Repr

structure Time where
  hour : Nat
  minute : Nat
  second : Nat
  nanosecond : Nat
deriving DecidableEq, Repr

inductive Offset where
  | utc
  | minutes (n : Int)
deriving DecidableEq, Repr

/-- A day, a time, or both. -/
inductive Moment where
  | date (date : Date)
  | time (time : Time)
  /-- The clock may stand anywhere if its offset is missing. -/
  | dateTime (date : Date) (time : Time) (offset : Option Offset)
deriving DecidableEq, Repr

def isLeapYear (year : Nat) : Bool := year % 4 == 0 && (year % 100 != 0 || year % 400 == 0)

def daysIn (year month : Nat) : Nat :=
  if month = 2 then if isLeapYear year then 29 else 28
  else if month = 4 || month = 6 || month = 9 || month = 11 then 30
  else 31

def digitValue (c : Char) : Nat := c.toNat - '0'.toNat

/-- A number in so many digits that lies between two bounds. -/
def number? (width low high : Nat) (cs : List Char) : Option (Nat × List Char) :=
  let digits := (cs.take width).takeWhile Char.isDigit
  let n := ofDigits 10 (digits.map digitValue)
  if digits.length = width ∧ low ≤ n ∧ n ≤ high then some (n, cs.drop width) else none

def skip? (c : Char) : List Char → Option (List Char)
  | d :: rest => if d = c then some rest else none
  | [] => none

def date? (cs : List Char) : Option (Date × List Char) := do
  let (year, cs) ← number? 4 0 9999 cs
  let (month, cs) ← number? 2 1 12 (← skip? '-' cs)
  let (day, cs) ← number? 2 1 (daysIn year month) (← skip? '-' cs)
  return (⟨year, month, day⟩, cs)

/-- The nanoseconds that a fraction of a second makes, if there is one.  Digits behind the
ninth do not count. -/
def nanoseconds : List Char → Nat × List Char
  | '.' :: rest =>
    let digits := (rest.takeWhile Char.isDigit).map digitValue
    if digits.isEmpty then (0, '.' :: rest)
    else (ofDigits 10 ((digits ++ List.replicate 9 0).take 9), rest.dropWhile Char.isDigit)
  | cs => (0, cs)

/-- A time.  There may be a leap second. -/
def time? (cs : List Char) : Option (Time × List Char) := do
  let (hour, cs) ← number? 2 0 23 cs
  let (minute, cs) ← number? 2 0 59 (← skip? ':' cs)
  let (second, cs) ← number? 2 0 60 (← skip? ':' cs)
  let (nanosecond, cs) := nanoseconds cs
  return (⟨hour, minute, second, nanosecond⟩, cs)

def offsetMinutes? (negative : Bool) (cs : List Char) : Option (Offset × List Char) := do
  let (hour, cs) ← number? 2 0 23 cs
  let (minute, cs) ← number? 2 0 59 (← skip? ':' cs)
  return (.minutes (withSign negative (60 * hour + minute)), cs)

def offset? : List Char → Option (Offset × List Char)
  | 'Z' :: rest => some (.utc, rest)
  | 'z' :: rest => some (.utc, rest)
  | '+' :: rest => offsetMinutes? false rest
  | '-' :: rest => offsetMinutes? true rest
  | _ => none

/-- A time, with or without an offset, behind the mark that parts it from the day. -/
def timeOfDay? : List Char → Option (Time × Option Offset × List Char)
  | [] => none
  | mark :: rest => do
    if mark ≠ 'T' && mark ≠ 't' && mark ≠ ' ' then none
    let (time, rest) ← time? rest
    match offset? rest with
    | some (offset, rest) => return (time, some offset, rest)
    | none => return (time, none, rest)

def moment? (cs : List Char) : Option (Moment × List Char) :=
  match date? cs with
  | some (date, rest) =>
    match timeOfDay? rest with
    | some (time, offset, rest) => some (.dateTime date time offset, rest)
    | none => some (.date date, rest)
  | none => (time? cs).map fun (time, rest) => (.time time, rest)

/-- The decimals of a number, with zeros in front up to a width. -/
def padded (width n : Nat) : String :=
  let digits := Nat.toDigits 10 n
  String.ofList (List.replicate (width - digits.length) '0' ++ digits)

def Date.text (d : Date) : String :=
  padded 4 d.year ++ "-" ++ padded 2 d.month ++ "-" ++ padded 2 d.day

/-- The normal spelling of a fraction of a second: no zeros at the end, and nothing for
none. -/
def fractionText (nanosecond : Nat) : String :=
  if nanosecond = 0 then ""
  else
    let zerosLast := (padded 9 nanosecond).toList.reverse
    "." ++ String.ofList (zerosLast.dropWhile (· == '0')).reverse

def Time.text (t : Time) : String :=
  padded 2 t.hour ++ ":" ++ padded 2 t.minute ++ ":" ++ padded 2 t.second
    ++ fractionText t.nanosecond

def Offset.text : Offset → String
  | utc => "Z"
  | minutes n =>
    let sign := if n < 0 then "-" else "+"
    sign ++ padded 2 (n.natAbs / 60) ++ ":" ++ padded 2 (n.natAbs % 60)

def Moment.text : Moment → String
  | date d => d.text
  | time t => t.text
  | dateTime d t offset => d.text ++ "T" ++ t.text ++ (offset.map Offset.text).getD ""

theorem number?_bounds {width low high n : Nat} {cs rest : List Char}
    (h : number? width low high cs = some (n, rest)) : low ≤ n ∧ n ≤ high := by
  simp only [number?, Option.ite_none_right_eq_some, Option.some.injEq, Prod.mk.injEq] at h
  obtain ⟨⟨_, bounds⟩, rfl, _⟩ := h
  exact bounds

theorem day_le_of_date? {cs rest : List Char} {d : Date} (h : date? cs = some (d, rest)) :
    1 ≤ d.day ∧ d.day ≤ daysIn d.year d.month := by
  simp only [date?, Option.bind_eq_bind, Option.bind_eq_some_iff] at h
  obtain ⟨⟨year, _⟩, _, _, _, ⟨month, _⟩, _, _, _, ⟨day, _⟩, read, eq⟩ := h
  simp only [Option.pure_def, Option.some.injEq, Prod.mk.injEq] at eq
  obtain ⟨rfl, _⟩ := eq
  exact number?_bounds read

end MacroMarkup.Toml
