import MacroMarkup.Document.Resolved
import MacroMarkup.Macro.Builtin

/-!
# Expansion

The `Engine` drives modifiers through their lifecycles.  Inside a body that is read
for later (`delayDepth` is not zero) only those that ask for it are expanded, and
visits are not immediate; what cannot be resolved is left for the pass over the
body when it is used.

* `expandArgument`: the value of an argument, kept once it is known.
* `process`: walks generated content and expands each modifier in it.  Its first
  argument is how many more levels may nest; a list that comes when there are none
  left is refused.
* `processNodes`, `finishModifier`: what happens once the content is known.
* `expandRead`: the end of the life of a modifier that was read from the source.
* `walkContent`, `expandGenerated`: the whole life of a modifier in generated content.
* `process_zero`, `process_nil`: a refused list stays as it is, and so does an
  empty one.
-/

namespace MacroMarkup

/-- What expansion works on. -/
structure Engine where
  context : Context
  /-- The messages so far, the last one first. -/
  emitted : List Message
  /-- The modifiers whose replacements are being processed, innermost first. -/
  referring : List Span
  /-- How many bodies that are read for later lie around this place. -/
  delayDepth : Nat
  /-- How many lists were refused because they were nested too deep. -/
  refusals : Nat
  /-- How many refusals inside the content of a generated modifier went unnoticed. -/
  losses : Nat
  /-- How many modifiers were replaced at a visit that was not immediate by nodes in which
  something is left to expand. -/
  anticipations : Nat

abbrev Expand := StateT Engine (Except Fault)

namespace Engine

def start (context : Context) : Engine := ⟨context, [], [], 0, 0, 0, 0⟩

def messages (engine : Engine) : List Message := engine.emitted.reverse

def immediate (engine : Engine) : Bool := engine.delayDepth == 0

/-- Emits messages, each reported again at the modifiers whose replacements are being
processed. -/
def emit (engine : Engine) (messages : List Message) : Engine :=
  let refer (message : Message) : Message := engine.referring.foldl Message.referred message
  { engine with emitted := (messages.map refer).reverse ++ engine.emitted }

end Engine

namespace Expand

def inContext {α : Type} (step : Step α) : Expand α := fun engine => do
  let (a, context) ← step engine.context
  return (a, { engine with context := context })

def emit (messages : List Message) : Expand Unit := modify fun engine => engine.emit messages

def immediate : Expand Bool := return (← get).immediate

def reporting {α : Type} (step : Step (α × List Message)) : Expand α := do
  let (a, messages) ← inContext step
  emit messages
  return a

/-- Enters a body that is read for later, if it is one. -/
def enterBody (delayed : Bool) : Expand Unit :=
  modify fun engine => { engine with delayDepth := engine.delayDepth + delayed.toNat }

def leaveBody (delayed : Bool) : Expand Unit :=
  modify fun engine => { engine with delayDepth := engine.delayDepth - delayed.toNat }

/-- Starts to process what a modifier stands for. -/
def enterReplacement (span : Span) : Expand Unit :=
  modify fun engine => { engine with referring := span :: engine.referring }

def leaveReplacement : Expand Unit := do
  match (← get).referring with
  | [] => throw .referringUnderflow
  | _ :: outer => modify fun engine => { engine with referring := outer }

def refuse : Expand Unit := modify fun engine => { engine with refusals := engine.refusals + 1 }

/-- Notes that a refusal goes unnoticed. -/
def lose : Expand Unit := modify fun engine => { engine with losses := engine.losses + 1 }

def anticipate : Expand Unit :=
  modify fun engine => { engine with anticipations := engine.anticipations + 1 }

end Expand

mutual

/-- The value of an argument, kept once it is known.  There is none while an
interpolation in it cannot be resolved yet. -/
def expandArgument : Argument → Expand (Argument × Option String)
  | ⟨span, content, some value⟩ => return (⟨span, content, some value⟩, some value)
  | ⟨span, content, none⟩ => do
    let (content, value) ← expandEntities content
    return (⟨span, content, value⟩, value)

/-- The values of the parts of an argument, joined.  Parts behind one without a value are
not looked at. -/
def expandEntities : List Entity → Expand (List Entity × Option String)
  | [] => return ([], some "")
  | entity :: rest => do
    let (entity, value) ← expandEntity entity
    match value with
    | none => return (entity :: rest, none)
    | some value =>
      let (rest, others) ← expandEntities rest
      return (entity :: rest, others.map (value ++ ·))

def expandEntity : Entity → Expand (Entity × Option String)
  | .text span content => return (.text span content, some content)
  | .escaped span content => return (.escaped span content, some content)
  | .interpolation span interpolator argument (some value) =>
    return (.interpolation span interpolator argument (some value), some value)
  | .interpolation span interpolator argument none => do
    let (argument, inner) ← expandArgument argument
    let immediate ← Expand.immediate
    let unresolved := Entity.interpolation span interpolator argument none
    match inner with
    | none => return (unresolved, none)
    | some name =>
      if !immediate && !interpolator.alwaysExpands then return (unresolved, none)
      match ← Expand.inContext (Step.resolve name) with
      | .value value =>
        return (.interpolation span interpolator argument (some value), some value)
      | .undefined =>
        if immediate then
          Expand.emit [(Problem.undefinedVariable name).message span]
          return (.interpolation span interpolator argument (some ""), some "")
        return (unresolved, none)
      | .deferred => return (unresolved, none)

end

def expandArguments : List Argument → Expand (List Argument)
  | [] => return []
  | argument :: rest => do
    let (argument, _) ← expandArgument argument
    return argument :: (← expandArguments rest)

/-- Walks a list of nodes; answers false if some list in it was refused. -/
abbrev Walk := List Node → Expand (List Node × Bool)

/-- Processes by `walk` the nodes in the place of a modifier.  `outermost` says that it was
read from the source, and then a refusal inside is reported. -/
def processNodes (walk : Walk) (outermost : Bool) (m : Modifier)
    (state : m.definition.behaviour.lifecycle.State) (nodes : List Node) :
    Expand (List Node × Bool) := do
  let life := m.definition.behaviour.lifecycle
  if nodes.isEmpty then return ([], true)
  let state ← Expand.inContext (life.beforeProcessing m state)
  Expand.enterReplacement m.span
  let (nodes, complete) ← walk nodes
  Expand.leaveReplacement
  Expand.inContext (life.afterProcessing state)
  if !complete && outermost then
    let limit := (← get).context.configuration.depthLimit
    Expand.emit [(Problem.recursionLimit limit m.definition.name).message m.span]
  return (nodes, complete)

/-- From the point before expansion to the end of a modifier's life. -/
def finishModifier (walk : Walk) (outermost : Bool) (m : Modifier)
    (state : m.definition.behaviour.lifecycle.State) : Expand (Modifier × Bool) := do
  let life := m.definition.behaviour.lifecycle
  let immediate ← Expand.immediate
  let state ← Expand.reporting (life.prepare m state immediate)
  let (outcome, state) ← Expand.inContext (life.expand m state immediate)
  match outcome with
  | .defer => return (m, true)
  | .keep =>
    let (content, complete) ← processNodes walk outermost m state m.content
    return ({ m with content := content }, complete)
  | .replace nodes =>
    let (nodes, complete) ← processNodes walk outermost m state nodes
    if !immediate && !areResolved nodes then Expand.anticipate
    return ({ m with expansion := some nodes }, complete)

/-- The modifier is left alone at this place, as it stands in a body that is read for
later and does not ask to be expanded there. -/
def Modifier.isDelayed (m : Modifier) : Expand Bool :=
  return !(← Expand.immediate) && !m.definition.alwaysExpands

/-- The end of the life of a modifier whose content was read from the source. -/
def expandRead (walk : Walk) (m : Modifier) (state : m.definition.behaviour.lifecycle.State) :
    Expand (Modifier × Bool) := do
  if ← m.isDelayed then return (m, true)
  finishModifier walk true m state

/-- Walks the content of a modifier.  A refusal inside it is not passed on. -/
def walkContent (walk : Walk) (m : Modifier) : Expand (List Node) := do
  if m.content.isEmpty then return []
  Expand.enterBody m.definition.delaysContent
  let (content, complete) ← walk m.content
  Expand.leaveBody m.definition.delaysContent
  if !complete then Expand.lose
  return content

/-- The whole life of a modifier in generated content, unless it ended already. -/
def expandGenerated (walk : Walk) (m : Modifier) : Expand (Modifier × Bool) := do
  if m.expansion.isSome then return (m, true)
  let arguments ← expandArguments m.arguments
  let m := { m with arguments := arguments }
  if ← m.isDelayed then return (m, true)
  let life := m.definition.behaviour.lifecycle
  let immediate ← Expand.immediate
  let state ← Expand.reporting (life.beforeContent m immediate)
  let content ← walkContent walk m
  let state ← Expand.inContext (life.afterContent state)
  finishModifier walk false { m with content := content } state

/-- Walks one node; `walk` is for the lists inside it. -/
def processNode (walk : Walk) : Node → Expand (Node × Bool)
  | .paragraph span content => do
    let (content, complete) ← walk content
    return (.paragraph span content, complete)
  | .modifier m => do
    let (m, complete) ← expandGenerated walk m
    return (.modifier m, complete)
  | node => return (node, true)

def processEach (walk : Walk) : Walk
  | [] => return ([], true)
  | node :: rest => do
    let (node, complete) ← processNode walk node
    let (rest, others) ← processEach walk rest
    return (node :: rest, others && complete)

/-- Expands every modifier in a list of nodes, in which `levels` more levels may nest. -/
def process (levels : Nat) : Walk :=
  match levels with
  | 0 => fun nodes => do
    Expand.refuse
    return (nodes, false)
  | levels + 1 => processEach (process levels)

/-- How many levels may nest in the replacement of a modifier from the source. -/
def Engine.levels (engine : Engine) : Nat := engine.context.configuration.depthLimit + 1

theorem process_zero (nodes : List Node) (engine : Engine) :
    process 0 nodes engine
      = .ok ((nodes, false), { engine with refusals := engine.refusals + 1 }) := rfl

theorem process_nil (levels : Nat) (engine : Engine) :
    process (levels + 1) [] engine = .ok (([], true), engine) := rfl

end MacroMarkup
