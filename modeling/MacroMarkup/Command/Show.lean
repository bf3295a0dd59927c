import MacroMarkup.Command.Basic
import MacroMarkup.Diagnostic.Collector

/-!
# Commands that show something

* `showDocument`: the tree of a document.
* `checkDocument`: its diagnostics; it fails if one of them is an error.
* `listModifiers`: what can be used without a definition.
-/

namespace MacroMarkup

structure ShowOptions where
  /-- Expansions and system modifiers are kept. -/
  whole : Bool
  /-- As JSON, with the diagnostics. -/
  json : Bool
  /-- The whole tree as text, behind the diagnostics. -/
  debug : Bool

def showDocument (w : Workspace) (options : Options) (path : String) (how : ShowOptions) :
    Command CommandResult := do
  let (input, document) ← readDocument w options path
  if how.debug then return .printed (document.dump input.source ++ "\n")
  let document := if how.whole then document else document.strip
  if how.json then
    let lines := LineIndex.ofString input.source
    let value := Json.obj [("tree", document.treeJson),
      ("messages", .arr (document.messages.map (·.report (some lines))))]
    return .printed (value.pretty ++ "\n")
  return .printed (dumpNodes document.content ++ "\n")

/-- Shows the diagnostics of a document, and unless it is JSON how many there are. -/
def checkDocument (w : Workspace) (options : Options) (path : String) (json : Bool) :
    Command CommandResult := do
  let (input, document) ← readDocument w options path
  let collector := Collector.empty.extend document.messages
  let shown :=
    if json then (collector.reports (some (.ofString input.source))).map Json.compact
    else
      collector.texts ++ [input.name ++ s!": {collector.count .error} error(s), "
        ++ s!"{collector.count .warning} warning(s)"]
  return ⟨String.join (shown.map (· ++ "\n")), collector.hasErrors, none⟩

/-- The interpolators of a configuration, as their marks with dots between them. -/
def interpolatorTexts (c : Configuration) : List String :=
  c.interpolators.definitions.map fun i => i.name ++ "..." ++ i.closing

def listedKinds : List ModifierKind := [.block, .inline, .system]

def listModifiers (w : Workspace) (options : Options) (json : Bool) : Command CommandResult := do
  let cx ← buildContext w options none
  let c := cx.configuration
  if json then
    let members := listedKinds.map fun kind =>
      (kind.typeName, Json.arr ((c.modifiers kind).names.map Json.str))
    let value := Json.obj (("interpolators", .arr ((interpolatorTexts c).map Json.str)) :: members)
    return .printed (value.pretty ++ "\n")
  let heads := listedKinds.flatMap fun kind =>
    (c.modifiers kind).names.map fun name => kind.opening.text ++ name ++ "]"
  return .printed (String.join ((heads ++ interpolatorTexts c).map (· ++ "\n")))

end MacroMarkup
