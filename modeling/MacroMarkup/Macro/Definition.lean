import MacroMarkup.Macro.Lifecycle

/-!
# Definitions made by a document

A definition gives a name, parameters and, as a last argument in parentheses, the
name of its slot.  While its body is read its signature lies on the stack of
delayed definitions, so that slots and parameters inside wait for a use.

* `slotNameOf?`: the slot name that an argument gives.
* `Signature.ofArguments`: what the arguments of a definition say.
* `flattenInline`: the body of an inline definition, as content of a paragraph.
* `defineLifecycle`: reads and registers a definition.
* `customLifecycle`: the use of one.
-/

namespace MacroMarkup

/-- The text between an opening parenthesis at the start and a closing one at the
end, if it has no line break. -/
def slotNameOf? (value : String) : Option String :=
  match value.toList with
  | '(' :: rest =>
    if rest.getLast? = some ')' && !rest.dropLast.contains '\n' then
      some (String.ofList rest.dropLast)
    else none
  | _ => none

structure Signature where
  /-- The name to define, if the argument has a value. -/
  name : Option String
  slotName : String
  parameters : List String
  /-- What is wrong with the arguments, to be reported when the definition is made. -/
  pending : List Message
  /-- The body as inline content, once it was flattened. -/
  body : Option (List Node)

namespace Signature

/-- The slot name that the last of the arguments after the name gives, and what is
wrong with it. -/
def slotOf (others : List Argument) : String × List Message :=
  match others.getLast? with
  | none => ("", [])
  | some last =>
    match last.value with
    | some value => ((slotNameOf? value).getD "", [])
    | none => ("", [(Problem.invalidArgument none).message last.span])

/-- Reads a name argument and those after it.  An empty slot name leaves its argument
among the parameters. -/
def ofArguments (name : Argument) (others : List Argument) : Signature :=
  let (slotName, pending) := slotOf others
  let parameters := if slotName.isEmpty then others else others.dropLast
  { name := name.value
    slotName := slotName
    parameters := parameters.map (·.text)
    pending := pending ++ (parameters.filter (·.value.isNone)).map fun argument =>
      (Problem.invalidArgument none).message argument.span
    body := none }

end Signature

/-- The content of a paragraph and the system modifiers around it.  Anything else, such
as a second paragraph right behind the first, is reported. -/
def flattenInline (afterParagraph : Bool) : List Node → List Node × List Message
  | [] => ([], [])
  | .paragraph span content :: rest =>
    if afterParagraph then
      let (nodes, messages) := flattenInline true rest
      (nodes, Problem.invalidInlineBody.message span :: messages)
    else
      let (nodes, messages) := flattenInline true rest
      (content ++ nodes, messages)
  | .modifier m :: rest =>
    if m.definition.kind = .system then
      let (nodes, messages) := flattenInline false rest
      (.modifier m :: nodes, messages)
    else
      let (nodes, messages) := flattenInline afterParagraph rest
      (nodes, Problem.invalidInlineBody.message m.span :: messages)
  | node :: rest =>
    let (nodes, messages) := flattenInline afterParagraph rest
    (nodes, Problem.invalidInlineBody.message node.span :: messages)

def Definition.custom (kind : MacroKind) (name : String) (parameters : List String)
    (slotName : String) (body : List Node) : Definition where
  stamp := 0
  name := name
  kind := kind.modifierKind
  slot := .normal
  delaysContent := true
  alwaysExpands := false
  behaviour := .custom kind name parameters slotName body

def defineLifecycle (kind : MacroKind) : Lifecycle where
  State := Option Signature
  idle := none
  beforeContent m _ := do
    if let some problem := checkCount? m 1 none then return (none, [problem])
    match m.arguments with
    | name :: others =>
      let signature := Signature.ofArguments name others
      Step.modifyMacros fun s =>
        s.setDelayed kind (⟨signature.slotName, signature.parameters⟩ :: s.delayed kind)
      return (some signature, [])
    | [] => return (none, [])
  afterContent state := do
    if let some signature := state then
      match (← Step.macros).delayed kind with
      | [] => throw .delayedUnderflow
      | frame :: outer =>
        if frame.slotName ≠ signature.slotName then throw .delayedMismatch
        Step.modifyMacros fun s => s.setDelayed kind outer
    return state
  prepare m state immediate := do
    if !immediate then return (state, [])
    match state with
    | none => return (none, [])
    | some signature =>
      let place := match m.arguments with
        | name :: _ => name.span
        | [] => m.head
      let name := signature.name.getD ""
      let done := { signature with pending := [] }
      if name.isEmpty then
        return (some done,
          signature.pending ++ [(Problem.invalidArgument none).message place])
      let taken := if ((← get).configuration.modifiers kind.modifierKind).has name
        then [(Problem.nameTaken name).message place] else []
      match kind with
      | .block => return (some done, signature.pending ++ taken)
      | .inline =>
        let (body, problems) := flattenInline false m.content
        return (some { done with body := some body }, signature.pending ++ taken ++ problems)
  expand m state immediate := do
    if !immediate then return (.defer, state)
    if let some signature := state then
      let name := signature.name.getD ""
      if !name.isEmpty then
        let body := signature.body.getD m.content
        let definition :=
          Definition.custom kind name signature.parameters signature.slotName body
        modify fun cx =>
          { cx with configuration := cx.configuration.set definition }.configurationChanged
    return (.replace [], state)

/-- Stands for the body of a definition, in which slots stand for the body of the
invocation and parameters for its arguments. -/
def customLifecycle (kind : MacroKind) (name : String) (parameters : List String)
    (slotName : String) (body : List Node) : Lifecycle where
  State := Option (Dict String)
  idle := none
  prepare m state _ := do
    if let some problem := checkArguments? m parameters.length (some parameters.length) then
      return (state, [problem])
    return (some (Dict.ofList (parameters.zip (m.arguments.map (·.text)))), [])
  expand _ state _ := do
    if state.isNone then return (.replace [], state)
    return (.replace body, state)
  beforeProcessing m state := do
    if let some arguments := state then
      let frame : Frame := ⟨slotName, name, arguments, m.content⟩
      Step.modifyMacros fun s => s.setFrames kind (frame :: s.frames kind)
    return state
  afterProcessing state := do
    if state.isSome then
      match (← Step.macros).frames kind with
      | [] => throw .frameUnderflow
      | frame :: outer =>
        if frame.slotName ≠ slotName then throw .frameMismatch
        Step.modifyMacros fun s => s.setFrames kind outer

theorem slotNameOf?_parenthesized {name : List Char} (h : '\n' ∉ name) :
    slotNameOf? (String.ofList ('(' :: name ++ [')'])) = some (String.ofList name) := by
  simp [slotNameOf?, h]

end MacroMarkup
