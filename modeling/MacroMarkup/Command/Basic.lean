import MacroMarkup.Command.Path
import MacroMarkup.Document.Strip
import MacroMarkup.Document.TreeJson
import MacroMarkup.Json.Printer
import MacroMarkup.Settings

/-!
# What commands have in common

A command reads its input and settings from a `Workspace` and either succeeds with a
`CommandResult` or fails with a `CommandError`.

* `Options`: what every command can be told.
* `parseVariable`: a variable as it is given on the command line.
* `buildContext`: the builtin configuration, then the settings file, then the variables
  given, then the depth limit given.
* `readInput`, `readDocument`: the source, and the document that it makes.
-/

namespace MacroMarkup

structure Workspace where
  /-- The text of the file at a path, if there is one. -/
  read? : String → Option String
  /-- A text can be put into a file at this path. -/
  isWritable : String → Bool
  /-- What stands for the input `-`. -/
  standardInput : String

def FileTree.workspace (tree : FileTree) (standardInput : String) : Workspace where
  read? := tree.read?
  isWritable path := (tree.write? path "").isSome
  standardInput := standardInput

structure Options where
  /-- The settings file, in place of the one beside the input. -/
  settingsFile : Option String
  /-- Variables, as names and values with an equals sign between them. -/
  bindings : List String
  depthLimit : Option Nat

inductive CommandError where
  | fault (fault : Fault)
  | unreadableInput (path : String)
  | unloadedSettings (path : String)
  | invalidSettings (path : String)
  | noEqualsSign (pair : String)
  | noVariableName (pair : String)
  | noFileToWrite
  | unwritable (path : String)
  | placeOutside (line column : Nat) (input : String)
  | noDiagnostic (severity : Severity) (code : Nat) (place : Option (Nat × Nat)) (input : String)
  | noFix (severity : Severity) (code position : Nat)

namespace CommandError

def message : CommandError → String
  | fault _ => "internal fault"
  | unreadableInput path => "Failed to read " ++ path
  | unloadedSettings path => "Failed to load settings from " ++ path
  | invalidSettings path => "Invalid settings in " ++ path
  | noEqualsSign pair => "Invalid variable '" ++ pair ++ "': expected KEY=VALUE"
  | noVariableName pair => "Invalid variable '" ++ pair ++ "': name is empty"
  | noFileToWrite => "--write needs an input file"
  | unwritable path => "Failed to write " ++ path
  | placeOutside line column input => s!"{line}:{column} is outside " ++ input
  | noDiagnostic severity code none input =>
    s!"No {severity.displayName}[{code}] diagnostic in " ++ input
  | noDiagnostic severity code (some (line, column)) input =>
    s!"No {severity.displayName}[{code}] diagnostic at {line}:{column} in " ++ input
  | noFix severity code position =>
    s!"{severity.displayName}[{code}] at {position} has no fix suggestion"

end CommandError

structure CommandResult where
  /-- What it printed. -/
  out : String
  /-- It found errors. -/
  failed : Bool
  /-- The text that it put into the input file. -/
  written : Option String

namespace CommandResult

def printed (out : String) : CommandResult := ⟨out, false, none⟩

end CommandResult

abbrev Command := Except CommandError

def Command.ofFault {α : Type} : Except Fault α → Command α
  | .ok a => .ok a
  | .error fault => .error (.fault fault)

/-- The text before the first occurrence of a character and the text behind it. -/
def splitAt? (c : Char) (text : String) : Option (String × String) :=
  let before := text.toList.takeWhile (· ≠ c)
  match text.toList.dropWhile (· ≠ c) with
  | [] => none
  | _ :: after => some (String.ofList before, String.ofList after)

/-- The name and value of a variable, with an equals sign between them. -/
def parseVariable (pair : String) : Command (String × String) :=
  match splitAt? '=' pair with
  | none => .error (.noEqualsSign pair)
  | some (name, value) =>
    if name.isEmpty then .error (.noVariableName pair) else .ok (name, value)

structure Input where
  name : String
  source : String

def isStandardInput (path : String) : Bool := path == "-"

def readInput (w : Workspace) (path : String) : Command Input :=
  if isStandardInput path then .ok ⟨"<stdin>", w.standardInput⟩
  else
    match w.read? path with
    | some source => .ok ⟨path, source⟩
    | none => .error (.unreadableInput path)

/-- The settings file that was given, or the one beside the input, if it is there. -/
def settingsPath? (w : Workspace) (options : Options) (input : Option String) : Option String :=
  match options.settingsFile with
  | some path => some path
  | none =>
    let directory := match input with
      | some path => if isStandardInput path then "" else parentPath path
      | none => ""
    let candidate := joinPath directory Settings.fileName
    if (w.read? candidate).isSome then some candidate else none

def loadSettings (w : Workspace) (path : String) (c : Configuration) :
    Command (Settings × Configuration) :=
  match (w.read? path).bind Settings.ofToml? with
  | none => .error (.unloadedSettings path)
  | some settings =>
    match settings.apply c with
    | (some _, _) => .error (.invalidSettings path)
    | (none, c) => .ok (settings, c)

def buildContext (w : Workspace) (options : Options) (input : Option String) :
    Command Context := do
  let base := Builtin.configuration.derive
  let (settings, c) ← match settingsPath? w options input with
    | some path => loadSettings w path base
    | none => pure (.initial, base)
  let given ← options.bindings.mapM parseVariable
  let c := { c with depthLimit := options.depthLimit.getD c.depthLimit }
  Command.ofFault (Context.start c (settings.bindings.setAll given))

def readDocument (w : Workspace) (options : Options) (path : String) :
    Command (Input × Document) := do
  let input ← readInput w path
  let cx ← buildContext w options (some path)
  return (input, ← Command.ofFault (cx.parse input.source))

theorem parseVariable_of_splitAt?_eq_none {pair : String} (h : splitAt? '=' pair = none) :
    parseVariable pair = .error (.noEqualsSign pair) := by
  simp [parseVariable, h]

end MacroMarkup
