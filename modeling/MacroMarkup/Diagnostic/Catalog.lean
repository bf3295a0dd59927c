import MacroMarkup.Diagnostic.Severity

/-!
# The catalog of diagnostic codes

A code is a number that is unique among the diagnostics of one severity.  The
catalog gives each known code a short title and an explanation; the key of an
entry is the initial of the severity and the number, as in `E4`.

* `Catalog.find?`: the entry of a code.
* `Catalog.title`: its title, or a general one.
-/

namespace MacroMarkup.Catalog

structure Entry where
  key : String
  title : String
  description : String
deriving DecidableEq, Repr

/-- The key of a code, such as `E4` or `W5`. -/
def key (severity : Severity) (code : Nat) : String :=
  match severity with
  | .error => "E" ++ toString code
  | .warning => "W" ++ toString code
  | .info => "I" ++ toString code

def entries : List Entry := [
  ⟨"E1", "Expected", "A closing delimiter or postfix is missing."⟩,
  ⟨"E2", "Unknown modifier",
    "No modifier with this name is registered in the active configuration."⟩,
  ⟨"E3", "Unclosed inline modifier",
    "An inline modifier reached a block boundary or the end of input before its pop marker."⟩,
  ⟨"E4", "Argument count mismatch", "A modifier received too few or too many arguments."⟩,
  ⟨"E5", "Cannot expand argument", "An argument could not be evaluated to a string."⟩,
  ⟨"E6", "Invalid argument", "An argument value is not acceptable for this modifier."⟩,
  ⟨"E7", "Invalid entity in inline definition",
    "Inline definitions may only contain the content of a single paragraph."⟩,
  ⟨"E8", "Reached recursion limit",
    "Macro expansion nested deeper than the configured limit."⟩,
  ⟨"E9", "Slot used outside definition",
    "A slot has no enclosing macro instantiation to take content from."⟩,
  ⟨"E10", "Cannot pop notation", "There is no pushed notation to restore."⟩,
  ⟨"E11", "Cannot use module in itself",
    "A module cannot be used while its own definition is being read."⟩,
  ⟨"E12", "Nested module", "A module definition appeared inside another module definition."⟩,
  ⟨"W1", "Unnecessary newline", "More blank lines than needed to separate blocks."⟩,
  ⟨"W2", "New block should be on new line",
    "A block modifier started in the middle of a paragraph."⟩,
  ⟨"W3", "Content should be on new line",
    "Content follows a group opener on the same line."⟩,
  ⟨"W4", "Name already defined",
    "A definition overwrites an existing modifier of the same name."⟩,
  ⟨"W5", "Undefined variable",
    "The identifier is not bound and expands to the empty string."⟩,
  ⟨"W6", "Overwrite definitions",
    "Using a module replaces modifiers of the same name that were already defined."⟩]

def size : Nat := entries.length

def find? (severity : Severity) (code : Nat) : Option Entry :=
  entries.find? (·.key == key severity code)

/-- The title of a code; an unknown one has a general title. -/
def title (severity : Severity) (code : Nat) : String :=
  match find? severity code with
  | some entry => entry.title
  | none => "Diagnostic"

end MacroMarkup.Catalog
