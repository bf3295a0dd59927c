import MacroMarkup.Macro.Definition
import MacroMarkup.Macro.Module
import MacroMarkup.Macro.Slot
import MacroMarkup.Macro.Variable

/-!
# The modifiers that come with the language

* `Behaviour.lifecycle`: what each behaviour does.
* `Builtin.definitions`: the modifiers that need no definition in a document.
* `Builtin.configuration`: a configuration with just these and the interpolator
  `$(` … `)`.
-/

namespace MacroMarkup

/-- Stands for its raw body. -/
def rawLifecycle : Lifecycle where
  State := Unit
  idle := ()
  expand m _ _ := return (.replace m.content, ())

/-- Stands for the text of its head, as a paragraph unless it is inline, followed by its
body. -/
def unknownLifecycle (head : String) : Lifecycle where
  State := Unit
  idle := ()
  expand m _ _ := do
    let text := Node.text m.head head
    let first := if m.definition.kind = .inline then text else .paragraph m.head [text]
    return (.replace (first :: m.content), ())

def plainLifecycle : Lifecycle where
  State := Unit
  idle := ()

def Behaviour.lifecycle : Behaviour → Lifecycle
  | .plain => plainLifecycle
  | .unknown head => unknownLifecycle head
  | .define kind => defineLifecycle kind
  | .slot kind => slotLifecycle kind
  | .print => printLifecycle
  | .raw => rawLifecycle
  | .assign => assignLifecycle
  | .reference => referenceLifecycle
  | .conditional expectDefined => conditionalLifecycle expectDefined
  | .pushNotation => pushNotationLifecycle
  | .popNotation => popNotationLifecycle
  | .recordModule => moduleLifecycle
  | .useInside => useInsideLifecycle
  | .useFromHere => useFromHereLifecycle
  | .custom kind name parameters slotName body =>
    customLifecycle kind name parameters slotName body

/-- The name of the stand-in for a modifier whose name is not registered. -/
def unknownName : String := "UNKNOWN"

/-- The stand-in for a modifier whose name is not registered.  A system modifier becomes
a block, so that its text is not lost. -/
def Definition.unknown (kind : ModifierKind) (head : String) : Definition where
  stamp := 0
  name := unknownName
  kind := if kind = .inline then .inline else .block
  slot := .normal
  delaysContent := false
  alwaysExpands := false
  behaviour := .unknown head

namespace Builtin

def modifier (name : String) (kind : ModifierKind) (slot : SlotType) (behaviour : Behaviour) :
    Definition :=
  { Definition.plain name kind slot with behaviour := behaviour }

def definer (name : String) (kind : MacroKind) : Definition :=
  { modifier name .system .normal (.define kind) with
    delaysContent := true
    alwaysExpands := true }

def definitions : List Definition := [
  definer "define-block" .block,
  definer "define-inline" .inline,
  modifier "var" .system .none .assign,
  { modifier "$" .inline .none .reference with alwaysExpands := true },
  modifier "print" .inline .none .print,
  modifier "raw" .block .preformatted .raw,
  { modifier "slot" .block .none (.slot .block) with alwaysExpands := true },
  { modifier "slot" .inline .none (.slot .inline) with alwaysExpands := true },
  modifier "ifdef" .block .normal (.conditional true),
  modifier "ifndef" .block .normal (.conditional false),
  modifier "ifdef" .inline .normal (.conditional true),
  modifier "ifndef" .inline .normal (.conditional false),
  modifier "push-notation" .system .none .pushNotation,
  modifier "pop-notation" .system .none .popNotation,
  modifier "module" .block .normal .recordModule,
  modifier "use" .block .normal .useInside,
  modifier "use" .system .none .useFromHere]

/-- The interpolator that stands for the value of a name. -/
def interpolator : Interpolator := ⟨"$(", ")", true⟩

def configuration : Configuration :=
  ((definitions.foldl Configuration.set .empty).setInterpolator interpolator).addInitializer
    .macros

end Builtin

end MacroMarkup
