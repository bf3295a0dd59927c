import MacroMarkup.Macro.Lifecycle

/-!
# Variables and the values of names

A name stands for an argument of an invocation that is being processed, inline
ones first and the innermost first, or else for a variable.  A name that is a
parameter of a definition whose body is being read has no value yet.

* `Context.resolve`: the value of a name.
* `assignLifecycle`, `referenceLifecycle`, `conditionalLifecycle`,
  `printLifecycle`: the modifiers that bind and read names.
-/

namespace MacroMarkup

inductive Resolution where
  | value (text : String)
  /-- Nothing is bound to the name. -/
  | undefined
  /-- The name is bound only when a definition is used. -/
  | deferred
deriving DecidableEq, Repr

/-- The argument of a name in the innermost of these invocations that has one. -/
def Frame.findArgument? (name : String) (frames : List Frame) : Option String :=
  frames.findSome? (·.arguments.get? name)

namespace Context

/-- The name is a parameter of a definition whose body is being read. -/
def isPending (state : MacroState) (name : String) : Bool :=
  (state.inlineDelayed ++ state.blockDelayed).any (·.parameters.contains name)

/-- The value of a name that is not pending: an argument or a variable. -/
def binding? (cx : Context) (state : MacroState) (name : String) : Option String :=
  (Frame.findArgument? name (state.inlineFrames ++ state.blockFrames)).or (cx.bindings.get? name)

def resolve (cx : Context) (name : String) : Except Fault Resolution := do
  let state ← cx.macros
  if isPending state name then return .deferred
  match cx.binding? state name with
  | some text => return .value text
  | none => return .undefined

end Context

def Step.resolve (name : String) : Step Resolution := fun cx => do
  return (← cx.resolve name, cx)

/-- Binds the first argument as a variable to the second one. -/
def assignLifecycle : Lifecycle where
  State := Option (String × String)
  idle := none
  prepare m _ _ := do
    if let some problem := checkArguments? m 2 (some 2) then return (none, [problem])
    match m.arguments with
    | name :: value :: _ =>
      if name.text.isEmpty then
        return (none, [(Problem.invalidArgument none).message name.span])
      return (some (name.text, value.text), [])
    | _ => return (none, [])
  expand _ state _ := do
    if let some (name, value) := state then
      modify fun cx => cx.setVariable name value
    return (.replace [], state)

/-- Stands for the value of the name that is its argument. -/
def referenceLifecycle : Lifecycle where
  State := Option String
  idle := none
  prepare m state immediate := do
    let quiet (problem : Message) : List Message := if immediate then [problem] else []
    if let some problem := checkArguments? m 1 (some 1) then return (state, quiet problem)
    match m.arguments with
    | name :: _ =>
      if name.text.isEmpty then
        return (state, quiet ((Problem.invalidArgument none).message name.span))
      match ← Step.resolve name.text with
      | .value text => return (some text, [])
      | _ => return (state, quiet ((Problem.undefinedVariable name.text).message name.span))
    | [] => return (state, [])
  expand m state immediate := do
    match state with
    | some text => return (.replace [.text m.span text], state)
    | none => return (if immediate then .replace [] else .defer, state)

/-- Stands for its body if the name that is its argument has a value, or, unless
`expectDefined`, if it has none. -/
def conditionalLifecycle (expectDefined : Bool) : Lifecycle where
  State := Option Bool
  idle := none
  prepare m state _ := do
    if let some problem := checkArguments? m 1 (some 1) then return (state, [problem])
    match m.arguments with
    | name :: _ =>
      if name.text.isEmpty then
        return (state, [(Problem.invalidArgument none).message name.span])
      match ← Step.resolve name.text with
      | .value _ => return (some true, [])
      | _ => return (some false, [])
    | [] => return (state, [])
  expand m state _ := do
    if state = some expectDefined then return (.replace m.content, state)
    return (.replace [], state)

/-- Stands for the values of its arguments, one after another. -/
def printLifecycle : Lifecycle where
  State := String
  idle := ""
  prepare m state _ := do
    if let some problem := checkArguments? m 0 none then return (state, [problem])
    return (String.join (m.arguments.map (·.text)), [])
  expand m state _ := do
    if state.isEmpty then return (.replace [], state)
    return (.replace [.text m.span state], state)

end MacroMarkup
