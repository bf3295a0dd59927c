import MacroMarkup.Diagnostic.Message

/-!
# What can be wrong with a document

`Problem` lists the causes of diagnostics.  A cause has a severity, a code, a
wording, and for some a fix; `Problem.message` puts it at a place.

* `Problem.severity`, `code`, `info`, `fixes`.
* `catalog_isSome`: the catalog knows the code of every cause.
-/

namespace MacroMarkup

/-- The causes of diagnostics. -/
inductive Problem where
  /-- A closing mark is missing. -/
  | expected (what : String)
  /-- The name of a modifier is not registered. -/
  | unknownModifier (name : String)
  /-- An inline modifier is not closed in its paragraph. -/
  | unclosedInline (name : String)
  /-- A modifier has too few or too many arguments. -/
  | argumentCount (least : Nat) (most : Option Nat)
  /-- An argument has no value. -/
  | unresolvedArgument
  /-- The value of an argument is of no use here. -/
  | invalidArgument (what : Option String)
  /-- The body of an inline definition is more than one paragraph. -/
  | invalidInlineBody
  /-- Generated content is nested too deep. -/
  | recursionLimit (limit : Nat) (name : String)
  /-- A slot stands outside any invocation. -/
  | slotOutsideDefinition
  /-- There are no definitions to go back to. -/
  | noKeptNotation
  /-- A module is used in its own body. -/
  | moduleInsideItself
  /-- A module stands in the body of another one. -/
  | nestedModule
  /-- There are more line breaks than have an effect. -/
  | redundantNewlines
  /-- A block starts inside a line. -/
  | blockInsideLine
  /-- The content of a group starts on the line that opens it. -/
  | groupContentInsideLine
  /-- A definition takes a name that is taken. -/
  | nameTaken (name : String)
  /-- A name has no value. -/
  | undefinedVariable (name : String)
  /-- A module takes names that are taken. -/
  | namesTaken (names : List String)
deriving DecidableEq, Repr

namespace Problem

def severity : Problem → Severity
  | redundantNewlines => .warning
  | blockInsideLine => .warning
  | groupContentInsideLine => .warning
  | nameTaken _ => .warning
  | undefinedVariable _ => .warning
  | namesTaken _ => .warning
  | _ => .error

/-- The number of the problem among those of its severity. -/
def code : Problem → Nat
  | expected _ => 1
  | unknownModifier _ => 2
  | unclosedInline _ => 3
  | argumentCount _ _ => 4
  | unresolvedArgument => 5
  | invalidArgument _ => 6
  | invalidInlineBody => 7
  | recursionLimit _ _ => 8
  | slotOutsideDefinition => 9
  | noKeptNotation => 10
  | moduleInsideItself => 11
  | nestedModule => 12
  | redundantNewlines => 1
  | blockInsideLine => 2
  | groupContentInsideLine => 3
  | nameTaken _ => 4
  | undefinedVariable _ => 5
  | namesTaken _ => 6

def countText (least : Nat) : Option Nat → String
  | none => s!"at least {least} expected"
  | some most =>
    if least = most then s!"{least} expected" else s!"{least} to {most} expected"

def info : Problem → String
  | expected what => "expected '" ++ what ++ "'"
  | unknownModifier name => "unknown modifier '" ++ name ++ "'; did you forget to escape it?"
  | unclosedInline name => "unclosed inline modifier " ++ name
  | argumentCount least most => "argument count mismatch: " ++ countText least most
  | unresolvedArgument => "failed to expand argument"
  | invalidArgument none => "invalid argument"
  | invalidArgument (some what) => "invalid argument: " ++ what
  | invalidInlineBody => "Invalid entity in inline modifier definition"
  | recursionLimit limit name => s!"Reached recursion limit {limit} when expanding " ++ name
  | slotOutsideDefinition => "slot used outside a definition"
  | noKeptNotation => "cannot pop notation"
  | moduleInsideItself => "cannot use the same module inside its definition"
  | nestedModule => "module definitions cannot be nested"
  | redundantNewlines => "more than one newlines have the same effect as one"
  | blockInsideLine => "a new block should begin in a new line to avoid confusion"
  | groupContentInsideLine => "the content should begin in a new line to avoid confusion"
  | nameTaken name => "name is already defined, will overwrite: " ++ name
  | undefinedVariable name => "variable is undefined, will expand to empty string: " ++ name
  | namesTaken names => "using this module will overwrite: " ++ ", ".intercalate names

def fixes (span : Span) : Problem → List Fix
  | unknownModifier _ => [.insert "this is not a modifier -- escape it" span.start "\\"]
  | redundantNewlines => [.remove "remove the redundant newlines" span.start span.length]
  | blockInsideLine => [.insert "add a line break" span.start "\n"]
  | groupContentInsideLine => [.insert "add a line break" span.start "\n"]
  | _ => []

def message (problem : Problem) (span : Span) : Message :=
  .ofSpan problem.severity problem.code span problem.info (problem.fixes span)

/-- A missing mark, reported where it should stand. -/
def expectedAt (position : Nat) (what : String) : Message :=
  (expected what).message ⟨position, position + what.toList.length⟩

/-- Every problem has an entry in the catalog. -/
theorem catalog_isSome (problem : Problem) :
    (Catalog.entries.map (·.key)).contains (Catalog.key problem.severity problem.code) = true := by
  cases problem <;> (simp only [severity, code]; decide)

end Problem

end MacroMarkup
