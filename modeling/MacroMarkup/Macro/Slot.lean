import MacroMarkup.Macro.Lifecycle

/-!
# Slots

A slot stands for the body of an invocation: the innermost one, or the innermost
whose definition gave the slot a name.  While that body is processed, the invocation
that owns it and all those inside it are set aside, so the body sees only what its
writer could see.

* `findOwner?`: the invocation that a slot belongs to, by how many lie around it.
* `locateSlot`: what a slot belongs to at a visit.
* `slotLifecycle`: finds the owner, sets it aside and puts it back.
-/

namespace MacroMarkup

inductive SlotState where
  /-- Nothing yet. -/
  | open
  /-- It is wrong, and this was reported. -/
  | failed
  /-- It belongs to the invocation that lies inside `outer` other ones; `detached`
  are the invocations set aside, innermost first. -/
  | resolved (outer : Nat) (detached : List Frame)

/-- How many invocations lie around the innermost one with this slot name. -/
def findOwner? (slotName : String) : List Frame → Option Nat
  | [] => none
  | frame :: outer =>
    if frame.slotName = slotName then some outer.length else findOwner? slotName outer

/-- The invocation that lies inside `outer` other ones. -/
def frameInside? (frames : List Frame) (outer : Nat) : Option Frame :=
  frames.reverse[outer]?

/-- Finds the invocation that a slot belongs to, by the name that its argument gives. -/
def locateSlot (kind : MacroKind) (m : Modifier) (argument : Option Argument)
    (immediate : Bool) : Step (SlotState × List Message) := do
  let name := (argument.map (·.text)).getD ""
  let macros ← Step.macros
  let frames := macros.frames kind
  if frames.isEmpty then
    if immediate then
      let span ← Span.checked m.span.start m.head.stop
      return (.failed, [Problem.slotOutsideDefinition.message span])
    return (.open, [])
  if (macros.delayed kind).any (·.slotName == name) then return (.open, [])
  match argument with
  | none => return (.resolved (frames.length - 1) [], [])
  | some a =>
    match findOwner? name frames with
    | some outer => return (.resolved outer [], [])
    | none =>
      if immediate then
        return (.failed, [(Problem.invalidArgument (some name)).message a.span])
      return (.open, [])

/-- Stands for the body of the invocation that the slot belongs to. -/
def slotLifecycle (kind : MacroKind) : Lifecycle where
  State := SlotState
  idle := .open
  prepare m _ immediate := do
    if let some problem := checkCount? m 0 (some 1) then
      return if immediate then (.failed, [problem]) else (.open, [])
    match m.arguments.head? with
    | none => locateSlot kind m none immediate
    | some a =>
      if a.value.isNone && !immediate then return (.open, [])
      if a.text.isEmpty then
        return (.failed, [(Problem.invalidArgument none).message a.span])
      locateSlot kind m (some a) immediate
  expand _ state _ := do
    match state with
    | .open => return (.defer, state)
    | .failed => return (.replace [], state)
    | .resolved outer _ =>
      match frameInside? ((← Step.macros).frames kind) outer with
      | some frame => return (.replace frame.content, state)
      | none => throw .missingFrame
  beforeProcessing _ state := do
    match state with
    | .resolved outer _ =>
      let frames := (← Step.macros).frames kind
      let count := frames.length - outer
      Step.modifyMacros fun s => s.setFrames kind (frames.drop count)
      return .resolved outer (frames.take count)
    | _ => return state
  afterProcessing state := do
    if let .resolved outer detached := state then
      let frames := (← Step.macros).frames kind
      if frames.length ≠ outer then throw .framesChanged
      Step.modifyMacros fun s => s.setFrames kind (detached ++ frames)

theorem findOwner?_lt {slotName : String} {frames : List Frame} {outer : Nat}
    (h : findOwner? slotName frames = some outer) : outer < frames.length := by
  induction frames with
  | nil => cases h
  | cons frame rest ih =>
    unfold findOwner? at h
    split at h
    · cases h
      exact Nat.lt_succ_self _
    · exact Nat.lt_succ_of_lt (ih h)

end MacroMarkup
