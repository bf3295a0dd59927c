import MacroMarkup.Toml.Lexeme
import MacroMarkup.Toml.Value

/-!
# Reading TOML documents

A document is a list of lines: headers, and keys with their values, which belong to the
table of the last header.

* `scalar?`: a value without quotes and brackets.
* `value?`: a value, which can hold other values.
* `maxParts`, `maxNesting`: how long keys may be and how deep values may lie in another.
* `Statement`: what a line says; `statement?` reads one.
* `ofString?`: the entries of a document, or nothing if its text is wrong or names
  something twice.
-/

namespace MacroMarkup.Toml

def simpleKey? (cs : List Char) : Option (String × List Char) :=
  match lineString? cs with
  | some answer => some answer
  | none =>
    let name := cs.takeWhile isBare
    if name.isEmpty then none else some (String.ofList name, cs.dropWhile isBare)

/-- A key of so many parts at most, with dots between them.  Spaces around a part do not
count. -/
def keyParts? : Nat → List Char → Option (List String × List Char)
  | 0, _ => none
  | room + 1, cs => do
    let (part, rest) ← simpleKey? (skipSpaces cs)
    match skipSpaces rest with
    | '.' :: rest =>
      let (parts, rest) ← keyParts? room rest
      return (part :: parts, rest)
    | rest => return ([part], rest)

def maxParts : Nat := 79

def maxNesting : Nat := 79

def dottedKey? (cs : List Char) : Option (List String × List Char) := keyParts? maxParts cs

def splitLast? (path : List String) : Option (List String × String) :=
  path.getLast?.map fun key => (path.dropLast, key)

def isWordChar (c : Char) : Bool := isBare c || c == '+' || c == '.'

/-- What a word stands for: a truth value or a number. -/
def word? (word : List Char) : Option Value :=
  if word = ['t', 'r', 'u', 'e'] then some (.boolean true)
  else if word = ['f', 'a', 'l', 's', 'e'] then some (.boolean false)
  else
    match integer? word with
    | some n => some (.integer n)
    | none => if isReal word then some (.real (String.ofList word)) else none

def scalar? (cs : List Char) : Option (Value × List Char) :=
  match moment? cs with
  | some (moment, rest) => some (.moment moment, rest)
  | none => (word? (cs.takeWhile isWordChar)).map fun value => (value, cs.dropWhile isWordChar)

mutual

/-- A value that may hold so many levels of arrays and tables in braces, its own
included. -/
def value? : Nat → Nat → List Char → Option (Value × List Char)
  | 0, _, _ => none
  | fuel + 1, room, cs =>
    match cs, room with
    | '"' :: _, _ => (string? cs).map fun (text, rest) => (.string text, rest)
    | '\'' :: _, _ => (string? cs).map fun (text, rest) => (.string text, rest)
    | '[' :: _, 0 => none
    | '[' :: rest, room + 1 => do
      let (items, rest) ← items? fuel room (skipSpace false rest)
      return (.array items, rest)
    | '\x7b' :: _, 0 => none
    | '\x7b' :: rest, room + 1 =>
      match skipSpaces rest with
      | '\x7d' :: rest => some (.table .braces [], rest)
      | rest => do
        let (entries, rest) ← entries? fuel room [] rest
        return (.table .braces entries, rest)
    | cs, _ => scalar? cs

/-- The items of an array and its closing bracket; a comma may stand behind the last
item. -/
def items? : Nat → Nat → List Char → Option (List Value × List Char)
  | 0, _, _ => none
  | fuel + 1, room, cs =>
    match cs with
    | ']' :: rest => some ([], rest)
    | cs => do
      let (item, rest) ← value? fuel room cs
      match skipSpace false rest with
      | ']' :: rest => return ([item], rest)
      | ',' :: rest => do
        let (items, rest) ← items? fuel room (skipSpace false rest)
        return (item :: items, rest)
      | _ => none

/-- The entries of a table in braces, behind those read before, and its closing brace. -/
def entries? : Nat → Nat → List (String × Value) → List Char →
    Option (List (String × Value) × List Char)
  | 0, _, _, _ => none
  | fuel + 1, room, before, cs => do
    let (path, rest) ← dottedKey? cs
    let (path, key) ← splitLast? path
    match rest with
    | '=' :: rest => do
      let (value, rest) ← value? fuel room (skipSpaces rest)
      let entries ← bindAt? path key value .headed before
      match skipSpaces rest with
      | '\x7d' :: rest => return (entries, rest)
      | ',' :: rest => entries? fuel room entries rest
      | _ => none
    | _ => none

end

inductive Statement where
  | blank
  | header (path : List String)
  | tablesHeader (path : List String)
  | entry (path : List String) (value : Value)

def statement? (fuel : Nat) (cs : List Char) : Option (Statement × List Char) :=
  match skipSpaces cs with
  | '[' :: '[' :: rest => do
    let (path, rest) ← dottedKey? rest
    match rest with
    | ']' :: ']' :: rest => return (.tablesHeader path, ← lineEnd? rest)
    | _ => none
  | '[' :: rest => do
    let (path, rest) ← dottedKey? rest
    match rest with
    | ']' :: rest => return (.header path, ← lineEnd? rest)
    | _ => none
  | cs =>
    match lineEnd? cs with
    | some rest => some (.blank, rest)
    | none => do
      let (path, rest) ← dottedKey? cs
      match rest with
      | '=' :: rest => do
        let (value, rest) ← value? fuel maxNesting (skipSpaces rest)
        return (.entry path value, ← lineEnd? rest)
      | _ => none

structure Draft where
  entries : List (String × Value)
  /-- The path of the table that entries belong to. -/
  current : List String

def Draft.add? (draft : Draft) : Statement → Option Draft
  | .blank => some draft
  | .header path => do
    let (above, key) ← splitLast? path
    return ⟨← addTable? above key .headed draft.entries, path⟩
  | .tablesHeader path => do
    let (above, key) ← splitLast? path
    return ⟨← addTables? above key .headed draft.entries, path⟩
  | .entry path value => do
    let (above, key) ← splitLast? path
    return { draft with
      entries := ← addAt? false (bindAt? above key value) draft.current .headed draft.entries }

def lines? : Nat → Draft → List Char → Option Draft
  | 0, _, _ => none
  | _ + 1, draft, [] => some draft
  | fuel + 1, draft, cs => do
    let (statement, rest) ← statement? fuel cs
    lines? fuel (← draft.add? statement) rest

/-- The entries of a document.  A byte order mark in front does not count. -/
def ofString? (text : String) : Option (List (String × Value)) :=
  let cs := match text.toList with
    | '\ufeff' :: rest => rest
    | cs => cs
  (lines? (cs.length + 2) ⟨[], []⟩ cs).map (·.entries)

theorem ofString?_empty : ofString? "" = some [] := by
  simp [ofString?, lines?]

end MacroMarkup.Toml
