import MacroMarkup.Json.Basic

/-!
# JSON texts

Two ways to write a `Json` value, both with the members of an object in the
order of their keys.

* `Json.compact`: on one line, without any space.
* `Json.pretty`: a line for each item and member, indented by two spaces a level.

A string is quoted by `Json.quote`: the quote, the backslash and the control
characters below U+0020 are escaped, all else stands for itself.
-/

namespace MacroMarkup.Json

def hexDigit (n : Nat) : Char :=
  if n < 10 then Char.ofNat (48 + n) else Char.ofNat (87 + n)

def escapeChar (c : Char) : String :=
  if c = '"' then "\\\""
  else if c = '\\' then "\\\\"
  else if c = '\n' then "\\n"
  else if c = '\r' then "\\r"
  else if c = '\t' then "\\t"
  else if c = Char.ofNat 8 then "\\b"
  else if c = Char.ofNat 12 then "\\f"
  else if c.toNat < 32 then
    "\\u00" ++ String.ofList [hexDigit (c.toNat / 16), hexDigit (c.toNat % 16)]
  else c.toString

def quote (s : String) : String :=
  s.toList.foldl (fun text c => text ++ escapeChar c) "\"" ++ "\""

def decimalText (mantissa : Int) (places : Nat) : String :=
  let sign := if mantissa < 0 then "-" else ""
  let digits := (toString mantissa.natAbs).toList
  let digits := List.replicate (places + 1 - digits.length) '0' ++ digits
  let whole := digits.length - places
  sign ++ String.ofList (digits.take whole) ++ "." ++ String.ofList (digits.drop whole)

/-- Puts a pair into a list that is in the order of its keys. -/
def insertByKey {α : Type} (x : String × α) : List (String × α) → List (String × α)
  | [] => [x]
  | y :: ys => if x.1 < y.1 then x :: y :: ys else y :: insertByKey x ys

def sortByKey {α : Type} (pairs : List (String × α)) : List (String × α) :=
  pairs.foldl (fun sorted x => insertByKey x sorted) []

mutual

/-- The value on one line, without any space. -/
def compact : Json → String
  | .null => "null"
  | .bool true => "true"
  | .bool false => "false"
  | .int n => toString n
  | .decimal m places => decimalText m places
  | .str s => quote s
  | .arr items => "[" ++ ",".intercalate (compactItems items) ++ "]"
  | .obj members =>
    let parts := (sortByKey (compactMembers members)).map fun (k, v) => quote k ++ ":" ++ v
    "\x7b" ++ ",".intercalate parts ++ "\x7d"

def compactItems : List Json → List String
  | [] => []
  | v :: rest => compact v :: compactItems rest

def compactMembers : List (String × Json) → List (String × String)
  | [] => []
  | (k, v) :: rest => (k, compact v) :: compactMembers rest

end

/-- Lines between an opening and a closing bracket; nothing between them stays
on one line. -/
def bracketed (opening closing indent : String) (lines : List String) : String :=
  if lines.isEmpty then opening ++ closing
  else
    opening ++ "\n" ++ ",\n".intercalate (lines.map fun line => indent ++ "  " ++ line)
      ++ "\n" ++ indent ++ closing

mutual

/-- The value over several lines, those after the first indented by `indent`. -/
def prettyIndented (indent : String) : Json → String
  | .null => "null"
  | .bool true => "true"
  | .bool false => "false"
  | .int n => toString n
  | .decimal m places => decimalText m places
  | .str s => quote s
  | .arr items => bracketed "[" "]" indent (prettyItems (indent ++ "  ") items)
  | .obj members =>
    let parts := sortByKey (prettyMembers (indent ++ "  ") members)
    bracketed "\x7b" "\x7d" indent (parts.map fun (k, v) => quote k ++ ": " ++ v)

def prettyItems (indent : String) : List Json → List String
  | [] => []
  | v :: rest => prettyIndented indent v :: prettyItems indent rest

def prettyMembers (indent : String) : List (String × Json) → List (String × String)
  | [] => []
  | (k, v) :: rest => (k, prettyIndented indent v) :: prettyMembers indent rest

end

/-- The value over several lines, indented by two spaces a level. -/
def pretty (value : Json) : String := prettyIndented "" value

theorem insertByKey_perm {α : Type} (x : String × α) (pairs : List (String × α)) :
    (insertByKey x pairs).Perm (x :: pairs) := by
  induction pairs with
  | nil => exact .refl _
  | cons y ys ih =>
    unfold insertByKey
    split
    · exact .refl _
    · exact (ih.cons y).trans (.swap x y ys)

end MacroMarkup.Json
