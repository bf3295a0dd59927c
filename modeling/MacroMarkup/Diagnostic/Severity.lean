/-!
# Severity of a diagnostic

Three grades, from a remark to an error.  `Severity.rank` orders them, and
`Severity.max?` is the highest of a list.
-/

namespace MacroMarkup

inductive Severity where
  | info
  | warning
  | error
deriving DecidableEq, Repr, Inhabited

namespace Severity

def rank : Severity → Nat
  | .info => 0
  | .warning => 1
  | .error => 2

def displayName : Severity → String
  | .info => "Info"
  | .warning => "Warning"
  | .error => "Error"

/-- The name in machine-readable output. -/
def key : Severity → String
  | .info => "info"
  | .warning => "warning"
  | .error => "error"

def ofKey? : String → Option Severity
  | "info" => some .info
  | "warning" => some .warning
  | "error" => some .error
  | _ => none

def max? : List Severity → Option Severity
  | [] => none
  | s :: rest =>
    match max? rest with
    | none => some s
    | some t => some (if t.rank ≤ s.rank then s else t)

theorem ofKey?_key (s : Severity) : ofKey? s.key = some s := by
  cases s <;> rfl

end Severity

end MacroMarkup
