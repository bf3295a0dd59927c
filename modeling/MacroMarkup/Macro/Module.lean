import MacroMarkup.Macro.Lifecycle

/-!
# Modules and notations

A module records the block and inline modifiers that its body defines, and takes
them back from the configuration.  Using it makes them visible again, in a body or
from a place on.  A module that is opened again goes on from what it holds.

The registries can also be kept at one place and gone back to at another.

* `findModule`: the module that an argument names, or what is wrong.
* `moduleLifecycle`, `useInsideLifecycle`, `useFromHereLifecycle`.
* `pushNotationLifecycle`, `popNotationLifecycle`.
-/

namespace MacroMarkup

def Step.restore (r : Registries) : Step Unit := modify fun cx => cx.restore r

/-- The module that the only argument names, or what is wrong; nothing is reported
unless the visit is immediate. -/
def findModule (m : Modifier) (immediate : Bool) : Step (Except (List Message) ModuleRecord) := do
  let quiet (problem : Message) : Except (List Message) ModuleRecord :=
    .error (if immediate then [problem] else [])
  if let some problem := checkArguments? m 1 (some 1) then return quiet problem
  match m.arguments with
  | argument :: _ =>
    let name := argument.text
    let macros ← Step.macros
    match macros.modules.get? name with
    | none => return quiet ((Problem.invalidArgument (some name)).message argument.span)
    | some record =>
      if macros.insideModule = some name then
        return quiet (Problem.moduleInsideItself.message argument.span)
      return .ok record
  | [] => return .error []

def clashMessages (m : Modifier) (clashes : List String) : List Message :=
  if clashes.isEmpty then [] else [(Problem.namesTaken clashes).message m.head]

/-- Records the definitions of its body under the name that is its argument. -/
def moduleLifecycle : Lifecycle where
  State := Option (String × Registries)
  idle := none
  beforeContent m immediate := do
    if !immediate then return (none, [])
    if let some problem := checkArguments? m 1 (some 1) then return (none, [problem])
    match m.arguments with
    | argument :: _ =>
      let name := argument.text
      if name.isEmpty then
        return (none, [(Problem.invalidArgument none).message argument.span])
      let macros ← Step.macros
      if macros.insideModule.isSome then
        return (none, [Problem.nestedModule.message m.head])
      let outer := (← get).registries
      let messages ← match macros.modules.get? name with
        | some record => do
          let (reopened, clashes) := outer.merge false record
          Step.restore reopened
          pure (clashMessages m clashes)
        | none => pure []
      Step.modifyMacros fun s => { s with insideModule := some name }
      return (some (name, outer), messages)
    | [] => return (none, [])
  afterContent state := do
    if let some (name, outer) := state then
      let defined := (← get).registries.addedSince outer
      Step.modifyMacros fun s =>
        { s with insideModule := none, modules := s.modules.set name defined }
      Step.restore outer
    return none
  expand _ state _ := return (.replace [], state)

/-- Makes a module visible in its body, and stands for its body. -/
def useInsideLifecycle : Lifecycle where
  State := Option Registries
  idle := none
  beforeContent m immediate := do
    match ← findModule m immediate with
    | .error messages => return (none, messages)
    | .ok record =>
      let outer := (← get).registries
      let (inner, clashes) := outer.merge true record
      Step.restore inner
      return (some outer, if immediate then clashMessages m clashes else [])
  afterContent state := do
    if let some outer := state then Step.restore outer
    return none
  expand m state _ := return (.replace m.content, state)

/-- Makes a module visible from here on. -/
def useFromHereLifecycle : Lifecycle where
  State := Option Registries
  idle := none
  prepare m state immediate := do
    match ← findModule m immediate with
    | .error messages => return (state, messages)
    | .ok record =>
      let (merged, clashes) := (← get).registries.merge true record
      return (some merged, clashMessages m clashes)
  expand _ state _ := do
    if let some merged := state then Step.restore merged
    return (.replace [], none)

def pushNotationLifecycle : Lifecycle where
  State := Unit
  idle := ()
  expand _ _ _ := do
    let kept := (← get).registries
    Step.modifyMacros fun s => { s with notations := kept :: s.notations }
    return (.replace [], ())

def popNotationLifecycle : Lifecycle where
  State := Unit
  idle := ()
  prepare m _ _ := do
    match (← Step.macros).notations with
    | [] => return ((), [Problem.noKeptNotation.message m.span])
    | kept :: earlier =>
      Step.modifyMacros fun s => { s with notations := earlier }
      Step.restore kept
      return ((), [])
  expand _ _ _ := return (.replace [], ())

end MacroMarkup
