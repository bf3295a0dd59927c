import MacroMarkup.Context
import MacroMarkup.Diagnostic.Problem

/-!
# The lifecycle of a modifier

A behaviour acts on a modifier at fixed points: before and after its content is
read, before it is expanded, when it is expanded, and before and after what it
stands for is processed.  A `Lifecycle` says what happens at each point and keeps
a state of its own from one point to the next; a point that it does not mention
does nothing.

Several points are told whether the visit is *immediate*.  It is not while the
modifier is only looked at inside a body that is read for later; then nothing
should be reported that may turn out differently when the body is used.

* `Lifecycle`, `Outcome`: the points and what expansion can decide.
* `checkCount?`, `checkArguments?`: what is wrong with the arguments, if anything.
-/

namespace MacroMarkup

abbrev Step := StateT Context (Except Fault)

namespace Step

def macros : Step MacroState := fun cx => do return (← cx.macros, cx)

def modifyMacros (f : MacroState → MacroState) : Step Unit := fun cx => do
  return ((), ← cx.modifyMacros f)

end Step

/-- What expansion decides about a modifier. -/
inductive Outcome where
  /-- It stands for its own content. -/
  | keep
  /-- It cannot be expanded yet. -/
  | defer
  /-- It stands for these nodes. -/
  | replace (nodes : List Node)

/-- What a behaviour does at the points of a modifier's life. -/
structure Lifecycle where
  /-- What is kept from one point to the next. -/
  State : Type
  /-- The state before the first point. -/
  idle : State
  beforeContent : (modifier : Modifier) → (immediate : Bool) → Step (State × List Message) :=
    fun _ _ => pure (idle, [])
  afterContent : State → Step State := pure
  prepare : (modifier : Modifier) → State → (immediate : Bool) → Step (State × List Message) :=
    fun _ state _ => pure (state, [])
  expand : (modifier : Modifier) → State → (immediate : Bool) → Step (Outcome × State) :=
    fun _ state _ => pure (.keep, state)
  beforeProcessing : (modifier : Modifier) → State → Step State := fun _ state => pure state
  afterProcessing : State → Step Unit := fun _ => pure ()

def checkCount? (m : Modifier) (least : Nat) (most : Option Nat) : Option Message :=
  let count := m.arguments.length
  if count < least then some ((Problem.argumentCount least most).message m.head)
  else
    match most with
    | none => none
    | some limit =>
      if limit < count then some ((Problem.argumentCount least most).message m.head) else none

/-- The report of an argument without a value, or of a wrong number of arguments. -/
def checkArguments? (m : Modifier) (least : Nat) (most : Option Nat) : Option Message :=
  match m.arguments.find? (·.value.isNone) with
  | some argument => some (Problem.unresolvedArgument.message argument.span)
  | none => checkCount? m least most

def Argument.text (argument : Argument) : String := argument.value.getD ""

theorem checkCount?_eq_none_iff {m : Modifier} {least : Nat} {most : Option Nat} :
    checkCount? m least most = none
      ↔ least ≤ m.arguments.length ∧ ∀ limit, most = some limit → m.arguments.length ≤ limit := by
  unfold checkCount?
  cases most with
  | none => simp
  | some limit =>
    simp only [Option.some.injEq, forall_eq']
    split
    · simp only [reduceCtorEq, false_iff]
      omega
    · split <;> simp <;> omega

end MacroMarkup
