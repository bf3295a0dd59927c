import MacroMarkup.Command.Mend
import MacroMarkup.Command.Show

/-!
# The command line

`main` reads the arguments and the files that the command may need, runs the command and
prints what it answers.

    parse FILE [--no-strip] [--json] [--debug]
    check FILE [--json]
    fix FILE CODE [--severity error|warning|info] [--at LINE:COL] [--write]
    modifiers [--json]

Every command takes `--config FILE`, `--var KEY=VALUE` and `--depth-limit N`.
-/

namespace MacroMarkup.CommandLine

structure Arguments where
  operands : List String
  flags : List String
  options : Options
  severity : Severity
  place : Option String

def Arguments.initial : Arguments := ⟨[], [], ⟨none, [], none⟩, .error, none⟩

/-- Sorts out the arguments; an option without its value is refused. -/
def Arguments.read? (a : Arguments) : List String → Option Arguments
  | [] => some { a with operands := a.operands.reverse }
  | "--config" :: path :: rest =>
    read? { a with options := { a.options with settingsFile := some path } } rest
  | "--var" :: pair :: rest =>
    read? { a with options := { a.options with bindings := a.options.bindings ++ [pair] } } rest
  | "--depth-limit" :: limit :: rest => do
    let n ← numberOfDigits? limit.toList
    read? { a with options := { a.options with depthLimit := some n } } rest
  | "--severity" :: key :: rest => do
    let severity ← Severity.ofKey? key
    read? { a with severity := severity } rest
  | "--at" :: place :: rest => read? { a with place := some place } rest
  | x :: rest =>
    if x.startsWith "--" then
      if ["--no-strip", "--json", "--debug", "--write"].contains x then
        read? { a with flags := x :: a.flags } rest
      else none
    else read? { a with operands := x :: a.operands } rest

/-- The command that the arguments ask for, if they ask for one, and the input file. -/
def command? (a : Arguments) :
    Option (Option String × (Workspace → Except String CommandResult)) :=
  let has (flag : String) : Bool := a.flags.contains flag
  let run (command : Workspace → Command CommandResult) (w : Workspace) :
      Except String CommandResult := (command w).mapError CommandError.message
  match a.operands with
  | ["parse", path] =>
    some (some path, run fun w =>
      showDocument w a.options path ⟨has "--no-strip", has "--json", has "--debug"⟩)
  | ["check", path] => some (some path, run fun w => checkDocument w a.options path (has "--json"))
  | ["modifiers"] => some (none, run fun w => listModifiers w a.options (has "--json"))
  | ["fix", path, code] => do
    let code ← numberOfDigits? code.toList
    return (some path, fun w => do
      let place ← match a.place with
        | none => pure none
        | some text => some <$> (parsePlace text).mapError PlaceError.message
      run (fun w => mendSource w a.options path ⟨a.severity, code, place, has "--write"⟩) w)
  | _ => none

def readText? (path : String) : IO (Option String) := do
  try
    return some (← IO.FS.readFile path)
  catch _ => return none

/-- The files that a command may read, by the paths that it knows them by. -/
def readWorkspace (options : Options) (input : Option String) : IO Workspace := do
  let beside := joinPath ((input.map parentPath).getD "") Settings.fileName
  let paths := input.toList ++ options.settingsFile.toList ++ [beside]
  let texts ← paths.filterMapM fun path => do
    return (← readText? path).map fun text => (path, text)
  let standardInput ←
    if input = some "-" then (← IO.getStdin).readToEnd else pure ""
  return ⟨(Dict.ofList texts).get?, fun _ => true, standardInput⟩

end MacroMarkup.CommandLine

open MacroMarkup CommandLine in
def main (arguments : List String) : IO UInt32 := do
  match (Arguments.initial.read? arguments).bind fun a => (command? a).map fun c => (a, c) with
  | none =>
    IO.eprintln "usage: parse FILE | check FILE | fix FILE CODE | modifiers"
    return 2
  | some (a, input, command) =>
    match command (← readWorkspace a.options input) with
    | .error message =>
      IO.eprintln message
      return 1
    | .ok result =>
      IO.print result.out
      if let (some path, some text) := (input, result.written) then
        IO.FS.writeFile path text
      return if result.failed then 1 else 0
