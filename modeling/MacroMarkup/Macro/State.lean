import MacroMarkup.Dict
import MacroMarkup.Macro.Registries

/-!
# What the macro modifiers remember

`MacroState` holds the definitions being read, the invocations being processed,
the kept notations and the recorded modules.  Blocks and inlines have stacks of
their own, so that a block slot never takes the body of an inline invocation.
All stacks have their innermost element first.

* `MacroState.delayed`, `MacroState.frames`: the stacks of a kind.
* `MacroState.isBalanced`: nothing is open.
* `frames_setFrames`, `delayed_setDelayed`: a stack reads as it was written.
-/

namespace MacroMarkup

/-- The signature of a definition whose body is being read. -/
structure DelayedFrame where
  slotName : String
  parameters : List String
deriving DecidableEq, Repr

/-- An invocation of a user-defined modifier whose replacement is being processed. -/
structure Frame where
  slotName : String
  /-- The name of the invoked modifier. -/
  definition : String
  arguments : Dict String
  /-- The body of the invocation, which slots stand for. -/
  content : List Node

structure MacroState where
  blockDelayed : List DelayedFrame
  inlineDelayed : List DelayedFrame
  blockFrames : List Frame
  inlineFrames : List Frame
  notations : List Registries
  modules : Dict ModuleRecord
  /-- The module whose body is being read. -/
  insideModule : Option String

namespace MacroState

def initial : MacroState where
  blockDelayed := []
  inlineDelayed := []
  blockFrames := []
  inlineFrames := []
  notations := []
  modules := .empty
  insideModule := none

def delayed (s : MacroState) : MacroKind → List DelayedFrame
  | .block => s.blockDelayed
  | .inline => s.inlineDelayed

def setDelayed (s : MacroState) (kind : MacroKind) (delayed : List DelayedFrame) : MacroState :=
  match kind with
  | .block => { s with blockDelayed := delayed }
  | .inline => { s with inlineDelayed := delayed }

def frames (s : MacroState) : MacroKind → List Frame
  | .block => s.blockFrames
  | .inline => s.inlineFrames

def setFrames (s : MacroState) (kind : MacroKind) (frames : List Frame) : MacroState :=
  match kind with
  | .block => { s with blockFrames := frames }
  | .inline => { s with inlineFrames := frames }

/-- No definition or module is being read and no invocation is being processed. -/
def isBalanced (s : MacroState) : Bool :=
  s.insideModule.isNone && s.blockDelayed.isEmpty && s.inlineDelayed.isEmpty
    && s.blockFrames.isEmpty && s.inlineFrames.isEmpty

@[simp] theorem delayed_setDelayed (s : MacroState) (kind : MacroKind)
    (delayed : List DelayedFrame) : (s.setDelayed kind delayed).delayed kind = delayed := by
  cases kind <;> rfl

@[simp] theorem frames_setFrames (s : MacroState) (kind : MacroKind) (frames : List Frame) :
    (s.setFrames kind frames).frames kind = frames := by
  cases kind <;> rfl

end MacroState

end MacroMarkup
