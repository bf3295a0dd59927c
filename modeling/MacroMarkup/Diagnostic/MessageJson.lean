import MacroMarkup.Diagnostic.Message
import MacroMarkup.Json.Printer

/-!
# Messages as JSON

Fixes and messages are written to JSON and read back.

* `Fix.toJson`, `Fix.ofJson?`: an object with a `kind`, or an array of the kind
  and the fields in order.
* `Message.toJson`, `Message.ofJson?`: an object in which `fixes` is left out when
  empty and `referred_from` when there is none, or an array of the fields in order,
  of which the last two may be missing.  Keys that do not belong are skipped.
* `Message.report`: the form for a reader, with titles and, if the lines of the
  source are known, places in lines and columns.

Offsets fit 64 bits and codes 32 bits; anything else is not read.
-/

namespace MacroMarkup

/-- The first number that is too large for a code. -/
def codeLimit : Nat := 0x100000000

namespace Fix

def toJson : Fix → Json
  | insert info position text =>
    .obj [("kind", .str "insert"), ("info", .str info), ("position", .nat position),
      ("text", .str text)]
  | remove info position length =>
    .obj [("kind", .str "remove"), ("info", .str info), ("position", .nat position),
      ("length", .nat length)]

def ofFields? (kind info position last : Json) : Option Fix := do
  let info ← info.string?
  let position ← position.natBelow? offsetLimit
  match kind with
  | .str "insert" => return .insert info position (← last.string?)
  | .str "remove" => return .remove info position (← last.natBelow? offsetLimit)
  | _ => none

def ofJson? : Json → Option Fix
  | .obj members => do
    let kind ← Dict.lookup "kind" members
    let info ← Dict.lookup "info" members
    let position ← Dict.lookup "position" members
    match kind with
    | .str "insert" => ofFields? kind info position (← Dict.lookup "text" members)
    | .str "remove" => ofFields? kind info position (← Dict.lookup "length" members)
    | _ => none
  | .arr [kind, info, position, last] => ofFields? kind info position last
  | _ => none

def listOfJson? : Json → Option (List Fix)
  | .arr items => items.mapM ofJson?
  | _ => none

end Fix

namespace Severity

/-- Reads a severity from its key, or from an object with the key as its only
member. -/
def ofJson? : Json → Option Severity
  | .str key => ofKey? key
  | .obj [(key, .null)] => ofKey? key
  | _ => none

end Severity

namespace Message

/-- The members of a message that it does not share with the message it repeats. -/
def ownMembers (message : Message) : List (String × Json) :=
  [("severity", .str message.severity.key), ("position", .nat message.position),
    ("length", .nat message.length), ("code", .nat message.code), ("info", .str message.info)]
  ++ if message.fixes.isEmpty then [] else [("fixes", .arr (message.fixes.map Fix.toJson))]

def toJson : Message → Json
  | ⟨severity, position, length, code, info, fixes, none⟩ =>
    .obj (ownMembers ⟨severity, position, length, code, info, fixes, none⟩)
  | ⟨severity, position, length, code, info, fixes, some inner⟩ =>
    .obj (ownMembers ⟨severity, position, length, code, info, fixes, none⟩
      ++ [("referred_from", inner.toJson)])

def ofFields? (severity position length code info : Json) (fixes : List Fix)
    (referredFrom : Option Message) : Option Message := do
  return {
    severity := ← Severity.ofJson? severity
    position := ← position.natBelow? offsetLimit
    length := ← length.natBelow? offsetLimit
    code := ← code.natBelow? codeLimit
    info := ← info.string?
    fixes := fixes
    referredFrom := referredFrom }

mutual

/-- Reads a message from an object or an array, or nothing from null. -/
def nullableOfJson? : Json → Option (Option Message)
  | .null => some none
  | .obj members => do
    let referredFrom ← referredOf? members
    let fixes ← match Dict.lookup "fixes" members with
      | some value => Fix.listOfJson? value
      | none => some []
    some <$> ofFields? (← Dict.lookup "severity" members) (← Dict.lookup "position" members)
      (← Dict.lookup "length" members) (← Dict.lookup "code" members)
      (← Dict.lookup "info" members) fixes referredFrom
  | .arr [severity, position, length, code, info] =>
    some <$> ofFields? severity position length code info [] none
  | .arr [severity, position, length, code, info, fixes] => do
    some <$> ofFields? severity position length code info (← Fix.listOfJson? fixes) none
  | .arr [severity, position, length, code, info, fixes, inner] => do
    some <$> ofFields? severity position length code info (← Fix.listOfJson? fixes)
      (← nullableOfJson? inner)
  | _ => none

def referredOf? : List (String × Json) → Option (Option Message)
  | [] => some none
  | (key, value) :: rest =>
    if key = "referred_from" then nullableOfJson? value else referredOf? rest

end

def ofJson? (value : Json) : Option Message := (nullableOfJson? value).join

/-- The members of a report that do not come from the message it repeats. -/
def reportMembers (message : Message) (lines : Option LineIndex) : List (String × Json) :=
  [("severity", .str message.severity.key), ("code", .nat message.code),
    ("title", .str message.title), ("info", .str message.info),
    ("position", .nat message.position), ("length", .nat message.length)]
  ++ (match lines.bind (·.locate message.position) with
    | some location =>
      [("line", .nat (location.row + 1)), ("column", .nat (location.column + 1))]
    | none => [])
  ++ if message.fixes.isEmpty then []
    else [("fixes", .arr (message.fixes.map fun fix => .obj [("info", .str fix.info)]))]

def report (lines : Option LineIndex) : Message → Json
  | ⟨severity, position, length, code, info, fixes, none⟩ =>
    .obj (reportMembers ⟨severity, position, length, code, info, fixes, none⟩ lines)
  | ⟨severity, position, length, code, info, fixes, some inner⟩ =>
    .obj (reportMembers ⟨severity, position, length, code, info, fixes, none⟩ lines
      ++ [("referredFrom", inner.report lines)])

end Message

end MacroMarkup
