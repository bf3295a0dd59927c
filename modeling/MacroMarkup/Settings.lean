import MacroMarkup.Configuration
import MacroMarkup.Dict
import MacroMarkup.Toml.Document

/-!
# Project settings

`Settings` are read from a TOML document: how deep generated content may nest, variables,
and names of modifiers that only carry structure for a renderer.

* `Settings.ofToml?`: reads them; anything that does not belong is refused.
* `Settings.apply`: registers them in a configuration.  What comes before a name that
  cannot be used stays registered.
* `nameError?_eq_none_iff`: which names can be used.
-/

namespace MacroMarkup

/-- A modifier that only carries structure. -/
structure ModifierSetting where
  name : String
  slot : SlotType
deriving DecidableEq, Repr

structure Settings where
  depthLimit : Option Nat
  /-- Variables with their values. -/
  bindings : Dict String
  blocks : List ModifierSetting
  inlines : List ModifierSetting

inductive SettingsError where
  | emptyName
  | reservedCharacter (name : String) (c : Char)
deriving DecidableEq, Repr

def isWhiteSpace (c : Char) : Bool :=
  let n := c.toNat
  (9 ≤ n && n ≤ 13) || n == 32 || n == 0x85 || n == 0xA0 || n == 0x1680
    || (0x2000 ≤ n && n ≤ 0x200A) || n == 0x2028 || n == 0x2029 || n == 0x202F
    || n == 0x205F || n == 0x3000

namespace SettingsError

def hexDigits (n : Nat) : String := String.ofList (Nat.toDigits 16 n)

/-- A character between single quotes; white space other than a space is escaped. -/
def quoteChar (c : Char) : String :=
  let inner :=
    if c = '\\' then "\\\\"
    else if c = '\t' then "\\t"
    else if c = '\n' then "\\n"
    else if c = '\r' then "\\r"
    else if c ≠ ' ' && isWhiteSpace c then "\\u\x7b" ++ hexDigits c.toNat ++ "\x7d"
    else c.toString
  "'" ++ inner ++ "'"

def message : SettingsError → String
  | emptyName => "modifier name must not be empty"
  | reservedCharacter name c =>
    "modifier name '" ++ name ++ "' contains reserved character " ++ quoteChar c

end SettingsError

namespace Settings

def initial : Settings := ⟨none, .empty, [], []⟩

def fileName : String := "emmm.toml"

def isInitial (s : Settings) : Bool :=
  s.depthLimit.isNone && s.bindings.entries.isEmpty && s.blocks.isEmpty && s.inlines.isEmpty

def slotOfName? : String → Option SlotType
  | "normal" => some .normal
  | "preformatted" => some .preformatted
  | "none" => some .none
  | _ => none

def isHollow : Toml.Value → Bool
  | .array items => items.isEmpty
  | .table _ entries => entries.isEmpty
  | _ => false

/-- A slot type by its name, or by a table with the name as its only key. -/
def slot? : Toml.Value → Option SlotType
  | .string name => slotOfName? name
  | .table _ [(name, value)] => if isHollow value then slotOfName? name else none
  | _ => none

def text? : Toml.Value → Option String
  | .string text => some text
  | _ => none

/-- A modifier, from a table of its fields or from an array of them. -/
def modifier? : Toml.Value → Option ModifierSetting
  | .table _ entries => do
    if entries.any fun (key, _) => key ≠ "name" && key ≠ "slot" then none
    let name ← text? (← Dict.lookup "name" entries)
    match Dict.lookup "slot" entries with
    | none => return ⟨name, .normal⟩
    | some value => return ⟨name, ← slot? value⟩
  | .array [name] => do return ⟨← text? name, .normal⟩
  | .array (name :: slot :: _) => do return ⟨← text? name, ← slot? slot⟩
  | _ => none

def modifiers? : Toml.Value → Option (List ModifierSetting)
  | .array items => items.mapM modifier?
  | .tables items => items.mapM modifier?
  | _ => none

/-- The only key of a date or time where a table is asked for. -/
def momentKey : String := "$__toml_private_datetime"

/-- A table of texts.  A date or time counts as a table that holds its normal spelling. -/
def bindings? : Toml.Value → Option (Dict String)
  | .moment moment => some (.ofList [(momentKey, moment.text)])
  | .table _ entries => do
    return .ofList (← entries.mapM fun (key, value) => do return (key, ← text? value))
  | _ => none

def limit? : Toml.Value → Option Nat
  | .integer (.ofNat n) => some n
  | _ => none

def bind? (s : Settings) (entry : String × Toml.Value) : Option Settings :=
  match entry with
  | ("reparse-depth-limit", value) => do return { s with depthLimit := some (← limit? value) }
  | ("variables", value) => do return { s with bindings := ← bindings? value }
  | ("block-modifiers", value) => do return { s with blocks := ← modifiers? value }
  | ("inline-modifiers", value) => do return { s with inlines := ← modifiers? value }
  | _ => none

def ofToml? (text : String) : Option Settings := do
  (← Toml.ofString? text).foldlM bind? initial

/-- The character cannot stand in the name of a modifier. -/
def isReserved (c : Char) : Bool :=
  isWhiteSpace c || c == '[' || c == ']' || c == ':' || c == ';' || c == '\\'

/-- Why a name cannot be used, if it cannot. -/
def nameError? (name : String) : Option SettingsError :=
  if name.isEmpty then some .emptyName
  else (name.toList.find? isReserved).map (.reservedCharacter name)

/-- Registers modifiers of a kind up to the first name that cannot be used. -/
def register (kind : ModifierKind) (c : Configuration) :
    List ModifierSetting → Option SettingsError × Configuration
  | [] => (none, c)
  | s :: rest =>
    match nameError? s.name with
    | some e => (some e, c)
    | none => register kind (c.set (.plain s.name kind s.slot)) rest

/-- Registers the settings.  Answers why this was given up, if it was, and the configuration
as far as it got. -/
def apply (s : Settings) (c : Configuration) : Option SettingsError × Configuration :=
  let c := match s.depthLimit with
    | some limit => { c with depthLimit := limit }
    | none => c
  match register .block c s.blocks with
  | (some e, c) => (some e, c)
  | (none, c) => register .inline c s.inlines

theorem nameError?_eq_none_iff {name : String} :
    nameError? name = none ↔ name.isEmpty = false ∧ ∀ c ∈ name.toList, isReserved c = false := by
  unfold nameError?
  by_cases h : name.isEmpty <;> simp [h]

end Settings

end MacroMarkup
