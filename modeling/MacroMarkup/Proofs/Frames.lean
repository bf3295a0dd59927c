import MacroMarkup.Proofs.Upkeep

/-!
# Which invocations are being processed

The stacks of invocations change at two points of a modifier's life only: right before what
it stands for is processed, and right behind.  A use of a definition puts its invocation on
the stack of its kind, a slot goes back to the invocations around the one that it belongs
to, and behind the processing the stacks are as they were.  No other point touches them.

* `Context.frames`: the stacks of a context.
* `Step.KeepsFrames`: a step that touches no stack, with a rule for each way of building
  one; `keepsFrames` says that the other points of every lifecycle are such.
* `Move`, `Behaviour.move`: what the point before the processing does to a stack.
* `moves`: **it does just this, and the point behind the processing undoes it.**
* `keepsFrames_process`: every walk leaves the stacks as they were.
-/

namespace MacroMarkup

/-- The invocations of a kind that are being processed, innermost first. -/
def Context.frames (cx : Context) (kind : MacroKind) : List Frame :=
  match cx.macros with
  | .ok s => s.frames kind
  | .error _ => []

namespace Context

variable {cx cx' : Context} {s : MacroState}

theorem frames_of_macros (h : cx.macros = .ok s) : cx.frames = s.frames := by
  funext kind
  rw [frames, h]

theorem frames_congr (h : cx'.macros = cx.macros) : cx'.frames = cx.frames := by
  funext kind
  rw [frames, frames, h]

end Context

def Upkeep.frames : Upkeep where
  allows := anyFault
  Holds _ := True
  Keeps cx cx' := cx'.frames = cx.frames
  refl _ := rfl
  trans h g := g.trans h
  holds _ := trivial
  missing _ _ := trivial

def Step.KeepsFrames {α : Type} (step : Step α) : Prop :=
  step.Upholds .frames fun _ => True

namespace Step.KeepsFrames

variable {α β : Type}

theorem pure {a : α} : KeepsFrames (pure a : Step α) := Step.Upholds.pure trivial

theorem throw {fault : Fault} : KeepsFrames (throw fault : Step α) := Step.Upholds.throw trivial

theorem bind {step : Step α} {next : α → Step β} (h : KeepsFrames step)
    (g : ∀ a, KeepsFrames (next a)) : KeepsFrames (step >>= next) :=
  Step.Upholds.bind h fun a _ => g a

theorem ite {c : Prop} [Decidable c] {step other : Step α} (h : c → KeepsFrames step)
    (g : ¬ c → KeepsFrames other) : KeepsFrames (if c then step else other) :=
  Step.Upholds.ite h g

theorem get {next : Context → Step α} (h : ∀ cx, KeepsFrames (next cx)) :
    KeepsFrames (get >>= next) := Step.Upholds.get h

theorem lift {x : Except Fault α} : KeepsFrames (liftM x : Step α) := by
  intro cx _
  cases x with
  | ok a => exact ⟨rfl, trivial⟩
  | error fault => trivial

theorem modify {f : Context → Context} (h : ∀ cx, (f cx).macros = cx.macros) :
    KeepsFrames (modify f : Step PUnit) :=
  Step.Upholds.modify fun cx _ => Context.frames_congr (h cx)

theorem looking {g : Context → Except Fault α} :
    KeepsFrames (fun cx => do return (← g cx, cx) : Step α) := by
  intro cx _
  simp only [Ensures, Bind.bind, Except.bind]
  cases g cx with
  | ok a => exact ⟨rfl, trivial⟩
  | error fault => trivial

theorem macros : KeepsFrames Step.macros := looking

theorem resolve {name : String} : KeepsFrames (Step.resolve name) := looking

theorem modifyMacros {f : MacroState → MacroState} (h : ∀ s, (f s).frames = s.frames) :
    KeepsFrames (Step.modifyMacros f) := by
  intro cx _
  cases hs : cx.macros with
  | ok s =>
    rw [ensures_modifyMacros hs]
    refine ⟨?_, trivial⟩
    show Context.frames _ = cx.frames
    rw [Context.frames_of_macros hs, ← h s]
    exact Context.frames_of_macros rfl
  | error fault =>
    simp only [Ensures, Step.modifyMacros, Context.modifyMacros, hs, Bind.bind, Except.bind]
    exact trivial

theorem restore {r : Registries} : KeepsFrames (Step.restore r) := modify fun _ => rfl

end Step.KeepsFrames

/-! ### Points away from the processing -/

/-- The points around the content and those that decide what a modifier stands for touch no
stack. -/
structure Lifecycle.KeepsFrames (life : Lifecycle) : Prop where
  beforeContent : ∀ m immediate, (life.beforeContent m immediate).KeepsFrames
  afterContent : ∀ state, (life.afterContent state).KeepsFrames
  prepare : ∀ m state immediate, (life.prepare m state immediate).KeepsFrames
  expand : ∀ m state immediate, (life.expand m state immediate).KeepsFrames

section Lifecycles

theorem keepsFrames_quiet {State : Type} {idle : State}
    {expand : Modifier → State → Bool → Outcome × State} :
    Lifecycle.KeepsFrames ⟨State, idle, fun _ _ => pure (idle, []), pure, fun _ state _ =>
      pure (state, []), fun m state immediate => pure (expand m state immediate),
      fun _ state => pure state, fun _ => pure ()⟩ where
  beforeContent _ _ := .pure
  afterContent _ := .pure
  prepare _ _ _ := .pure
  expand _ _ _ := .pure

theorem keepsFrames_assign : assignLifecycle.KeepsFrames where
  beforeContent _ _ := .pure
  afterContent _ := .pure
  prepare m state immediate := by
    simp only [assignLifecycle]
    split
    · exact .pure
    · split
      · exact .ite (fun _ => .pure) fun _ => .pure
      · exact .pure
  expand m state immediate := by
    cases state with
    | none => exact .pure
    | some binding => exact .bind (.modify fun _ => rfl) fun _ => .pure

theorem keepsFrames_reference : referenceLifecycle.KeepsFrames where
  beforeContent _ _ := .pure
  afterContent _ := .pure
  prepare m state immediate := by
    simp only [referenceLifecycle]
    split
    · exact .pure
    · split
      · refine .ite (fun _ => .pure) fun _ => .bind .resolve fun found => ?_
        split <;> exact .pure
      · exact .pure
  expand m state immediate := by
    cases state <;> exact .pure

theorem keepsFrames_conditional (expectDefined : Bool) :
    (conditionalLifecycle expectDefined).KeepsFrames where
  beforeContent _ _ := .pure
  afterContent _ := .pure
  prepare m state immediate := by
    simp only [conditionalLifecycle]
    split
    · exact .pure
    · split
      · refine .ite (fun _ => .pure) fun _ => .bind .resolve fun found => ?_
        split <;> exact .pure
      · exact .pure
  expand m state immediate := by
    simp only [conditionalLifecycle]
    split <;> exact .pure

theorem keepsFrames_print : printLifecycle.KeepsFrames where
  beforeContent _ _ := .pure
  afterContent _ := .pure
  prepare m state immediate := by
    simp only [printLifecycle]
    split <;> exact .pure
  expand m state immediate := .ite (fun _ => .pure) fun _ => .pure

theorem keepsFrames_pushNotation : pushNotationLifecycle.KeepsFrames where
  beforeContent _ _ := .pure
  afterContent _ := .pure
  prepare _ _ _ := .pure
  expand _ _ _ := .get fun _ => .bind (.modifyMacros fun _ => rfl) fun _ => .pure

theorem keepsFrames_popNotation : popNotationLifecycle.KeepsFrames where
  beforeContent _ _ := .pure
  afterContent _ := .pure
  prepare m state immediate := by
    refine .bind .macros fun s => ?_
    split
    · exact .pure
    · exact .bind (.modifyMacros fun _ => rfl) fun _ => .bind .restore fun _ => .pure
  expand _ _ _ := .pure

theorem keepsFrames_recordModule : moduleLifecycle.KeepsFrames where
  beforeContent m immediate := by
    have hentered : ∀ (name : String) (r : moduleLifecycle.State × List Message),
        Step.KeepsFrames (do
          Step.modifyMacros fun s => { s with insideModule := some name }
          pure r) := fun _ _ => .bind (.modifyMacros fun _ => rfl) fun _ => .pure
    simp only [moduleLifecycle]
    refine .ite (fun _ => .pure) fun _ => ?_
    split
    · exact .pure
    split
    · refine .ite (fun _ => .pure) fun _ => .bind .macros fun s => ?_
      refine .ite (fun _ => .pure) fun _ => .get fun cx => ?_
      split
      · exact .bind .restore fun _ => .bind .pure fun _ => hentered _ _
      · exact .bind .pure fun _ => hentered _ _
    · exact .pure
  afterContent state := by
    cases state with
    | none => exact .pure
    | some module =>
      exact .get fun _ => .bind (.modifyMacros fun _ => rfl) fun _ => .bind .restore fun _ => .pure
  prepare _ _ _ := .pure
  expand _ _ _ := .pure

theorem Step.KeepsFrames.findModule {m : Modifier} {immediate : Bool} :
    Step.KeepsFrames (findModule m immediate) := by
  simp only [MacroMarkup.findModule]
  split
  · exact .pure
  split
  · refine .bind .macros fun s => ?_
    split
    · exact .pure
    · exact .ite (fun _ => .pure) fun _ => .pure
  · exact .pure

theorem keepsFrames_useInside : useInsideLifecycle.KeepsFrames where
  beforeContent m immediate := by
    refine .bind .findModule fun found => ?_
    cases found with
    | error messages => exact .pure
    | ok record => exact .get fun _ => .bind .restore fun _ => .pure
  afterContent state := by
    cases state with
    | none => exact .pure
    | some outer => exact .bind .restore fun _ => .pure
  prepare _ _ _ := .pure
  expand _ _ _ := .pure

theorem keepsFrames_useFromHere : useFromHereLifecycle.KeepsFrames where
  beforeContent _ _ := .pure
  afterContent _ := .pure
  prepare m state immediate := by
    refine .bind .findModule fun found => ?_
    cases found with
    | error messages => exact .pure
    | ok record => exact .get fun _ => .pure
  expand m state immediate := by
    cases state with
    | none => exact .pure
    | some merged => exact .bind .restore fun _ => .pure

theorem frames_setDelayed (s : MacroState) (kind : MacroKind) (delayed : List DelayedFrame) :
    (s.setDelayed kind delayed).frames = s.frames := by
  funext kind'
  cases kind <;> cases kind' <;> rfl

theorem keepsFrames_define (kind : MacroKind) : (defineLifecycle kind).KeepsFrames where
  beforeContent m immediate := by
    simp only [defineLifecycle]
    split
    · exact .pure
    split
    · exact .bind (.modifyMacros fun s => frames_setDelayed s kind _) fun _ => .pure
    · exact .pure
  afterContent state := by
    cases state with
    | none => exact .pure
    | some signature =>
      refine .bind .macros fun s => ?_
      split
      · exact .throw
      · exact .ite (fun _ => .throw) fun _ =>
          .bind (.modifyMacros fun s => frames_setDelayed s kind _) fun _ => .pure
  prepare m state immediate := by
    simp only [defineLifecycle]
    refine .ite (fun _ => .pure) fun _ => ?_
    cases state with
    | none => exact .pure
    | some signature =>
      refine .ite (fun _ => .pure) fun _ => ?_
      cases kind <;> exact .get fun _ => .pure
  expand m state immediate := by
    simp only [defineLifecycle]
    refine .ite (fun _ => .pure) fun _ => ?_
    cases state with
    | none => exact .pure
    | some signature =>
      exact .ite (fun _ => .bind (.modify fun _ => rfl) fun _ => .pure) fun _ => .pure

theorem Step.KeepsFrames.locateSlot {kind : MacroKind} {m : Modifier}
    {argument : Option Argument} {immediate : Bool} :
    Step.KeepsFrames (locateSlot kind m argument immediate) := by
  refine .bind .macros fun s => ?_
  refine .ite (fun _ => ?_) fun _ => .ite (fun _ => .pure) fun _ => ?_
  · exact .ite (fun _ => .bind .lift fun _ => .pure) fun _ => .pure
  · split
    · exact .pure
    · split
      · exact .pure
      · exact .ite (fun _ => .pure) fun _ => .pure

theorem keepsFrames_slot (kind : MacroKind) : (slotLifecycle kind).KeepsFrames where
  beforeContent _ _ := .pure
  afterContent _ := .pure
  prepare m state immediate := by
    simp only [slotLifecycle]
    split
    · exact .pure
    split
    · exact .locateSlot
    · exact .ite (fun _ => .pure) fun _ => .ite (fun _ => .pure) fun _ => .locateSlot
  expand m state immediate := by
    cases state with
    | «open» => exact .pure
    | failed => exact .pure
    | resolved outer detached =>
      refine .bind .macros fun s => ?_
      split
      · exact .pure
      · exact .throw

theorem keepsFrames_custom (kind : MacroKind) (name : String) (parameters : List String)
    (slotName : String) (body : List Node) :
    (customLifecycle kind name parameters slotName body).KeepsFrames where
  beforeContent _ _ := .pure
  afterContent _ := .pure
  prepare m state immediate := by
    simp only [customLifecycle]
    split <;> exact .pure
  expand m state immediate := .ite (fun _ => .pure) fun _ => .pure

/-- **Away from the processing no stack of invocations is touched.** -/
theorem keepsFrames (b : Behaviour) : b.lifecycle.KeepsFrames := by
  cases b with
  | plain => exact keepsFrames_quiet
  | unknown head => exact keepsFrames_quiet
  | raw => exact keepsFrames_quiet
  | define kind => exact keepsFrames_define kind
  | slot kind => exact keepsFrames_slot kind
  | print => exact keepsFrames_print
  | assign => exact keepsFrames_assign
  | reference => exact keepsFrames_reference
  | conditional expectDefined => exact keepsFrames_conditional expectDefined
  | pushNotation => exact keepsFrames_pushNotation
  | popNotation => exact keepsFrames_popNotation
  | recordModule => exact keepsFrames_recordModule
  | useInside => exact keepsFrames_useInside
  | useFromHere => exact keepsFrames_useFromHere
  | custom kind name parameters slotName body =>
    exact keepsFrames_custom kind name parameters slotName body

end Lifecycles

/-! ### The points around the processing -/

/-- What becomes of a stack of invocations while what a modifier stands for is processed. -/
inductive Move where
  | stay
  /-- This invocation is put on it. -/
  | enter (frame : Frame)
  /-- All but the `outer` outermost ones are set aside. -/
  | backTo (outer : Nat)

/-- The move on a stack in which invocations are written as `write` says. -/
def Move.follow {α : Type} (write : Frame → α) : Move → List α → List α
  | .stay, stack => stack
  | .enter frame, stack => write frame :: stack
  | .backTo outer, stack => stack.drop (stack.length - outer)

def Behaviour.move (kind : MacroKind) (m : Modifier) :
    (b : Behaviour) → b.lifecycle.State → Move
  | .custom own name _ slotName _ => fun state : Option (Dict String) =>
    match state with
    | some arguments => if own = kind then .enter ⟨slotName, name, arguments, m.content⟩ else .stay
    | none => .stay
  | .slot own => fun state : SlotState =>
    match state with
    | .resolved outer _ => if own = kind then .backTo outer else .stay
    | _ => .stay
  | _ => fun _ => .stay

theorem move_custom (kind own : MacroKind) (m : Modifier) (name : String)
    (parameters : List String) (slotName : String) (body : List Node) (arguments : Dict String) :
    Behaviour.move kind m (.custom own name parameters slotName body) (some arguments)
      = if own = kind then .enter ⟨slotName, name, arguments, m.content⟩ else .stay := rfl

theorem move_slot (kind own : MacroKind) (m : Modifier) (outer : Nat) (detached : List Frame) :
    Behaviour.move kind m (.slot own) (.resolved outer detached)
      = if own = kind then .backTo outer else .stay := rfl

/-- With this state, what a modifier stands for is processed as the moves say, and behind
it the stacks are as they were. -/
def Lifecycle.Moves (life : Lifecycle) (m : Modifier) (state : life.State)
    (move : MacroKind → Move) : Prop :=
  ∀ cx : Context, Ensures anyFault (life.beforeProcessing m state) cx fun state' inside =>
    (∀ kind, inside.frames kind = (move kind).follow id (cx.frames kind)) ∧
    ∀ later : Context, later.frames = inside.frames →
      Ensures anyFault (life.afterProcessing state') later fun _ outside =>
        outside.frames = cx.frames

theorem Lifecycle.Moves.of_default {life : Lifecycle} {m : Modifier} {state : life.State}
    {move : MacroKind → Move} (hb : life.beforeProcessing = fun _ state => pure state)
    (ha : life.afterProcessing = fun _ => pure ()) (hmove : ∀ kind, move kind = .stay) :
    life.Moves m state move := by
  intro cx
  rw [hb, ensures_pure, ha]
  exact ⟨fun kind => by rw [hmove]; rfl, fun later hlater => hlater⟩

theorem ensures_macros_of {cx : Context} {post : MacroState → Context → Prop}
    (h : ∀ s, cx.macros = .ok s → post s cx) : Ensures anyFault Step.macros cx post := by
  cases hs : cx.macros with
  | ok s => exact (ensures_macros hs).mpr (h s hs)
  | error fault =>
    simp only [Ensures, Step.macros, hs, bind, Except.bind]
    exact trivial

theorem frames_setFrames_apply (s : MacroState) (kind kind' : MacroKind) (frames : List Frame) :
    (s.setFrames kind frames).frames kind' = if kind = kind' then frames else s.frames kind' := by
  cases kind <;> cases kind' <;> rfl

theorem ensures_setFrames {cx : Context} {kind : MacroKind}
    {change : MacroState → List Frame} {post : Unit → Context → Prop}
    (h : ∀ (s : MacroState) (cx' : Context), cx.macros = .ok s → (∀ kind', cx'.frames kind'
      = if kind = kind' then change s else cx.frames kind') → post () cx') :
    Ensures anyFault (Step.modifyMacros fun s => s.setFrames kind (change s)) cx post := by
  cases hs : cx.macros with
  | ok s =>
    rw [ensures_modifyMacros hs]
    refine h s _ hs fun kind' => ?_
    rw [Context.frames_of_macros hs, ← frames_setFrames_apply s kind kind']
    exact congrFun (Context.frames_of_macros rfl) kind'
  | error fault =>
    simp only [Ensures, Step.modifyMacros, Context.modifyMacros, hs, bind, Except.bind]
    exact trivial

theorem moves_custom (kind : MacroKind) (name : String) (parameters : List String)
    (slotName : String) (body : List Node) (m : Modifier) (state : Option (Dict String)) :
    (customLifecycle kind name parameters slotName body).Moves m state fun kind' =>
      Behaviour.move kind' m (.custom kind name parameters slotName body) state := by
  cases state with
  | none => exact fun cx => ⟨fun _ => rfl, fun later hlater => hlater⟩
  | some arguments =>
    intro cx
    simp only [customLifecycle, ensures_bind, ensures_pure]
    refine ensures_setFrames fun s inside hs hinside => ⟨fun kind' => ?_, fun later hlater => ?_⟩
    · rw [hinside, move_custom]
      split
      · rename_i heq
        subst heq
        rw [Context.frames_of_macros hs]
        rfl
      · rfl
    · simp only [Option.isSome_some, if_true, ensures_bind]
      refine ensures_macros_of fun s' hs' => ?_
      have htop : s'.frames kind = ⟨slotName, name, arguments, m.content⟩ :: s.frames kind := by
        rw [← Context.frames_of_macros hs', hlater, hinside, if_pos rfl]
      rw [htop]
      rw [ensures_ite]
      refine ⟨fun _ => trivial, fun _ => ?_⟩
      refine ensures_setFrames fun _ outside _ houtside => ?_
      funext kind'
      rw [houtside, hlater, hinside, Context.frames_of_macros hs]
      split
      · rename_i heq
        rw [heq]
      · rfl

theorem moves_slot (kind : MacroKind) (m : Modifier) (state : SlotState) :
    (slotLifecycle kind).Moves m state fun kind' => Behaviour.move kind' m (.slot kind) state := by
  cases state with
  | «open» => exact fun cx => ⟨fun _ => rfl, fun later hlater => hlater⟩
  | failed => exact fun cx => ⟨fun _ => rfl, fun later hlater => hlater⟩
  | resolved outer detached =>
    intro cx
    simp only [slotLifecycle, ensures_bind, ensures_pure]
    refine ensures_macros_of fun s hs => ?_
    refine ensures_setFrames fun _ inside _ hinside => ⟨fun kind' => ?_, fun later hlater => ?_⟩
    · rw [hinside, Context.frames_of_macros hs, move_slot]
      split
      · rename_i heq
        subst heq
        rfl
      · rfl
    · refine ensures_macros_of fun s' hs' => ?_
      have hrest : s'.frames kind = (s.frames kind).drop ((s.frames kind).length - outer) := by
        rw [← Context.frames_of_macros hs', hlater, hinside, if_pos rfl]
      rw [ensures_ite]
      refine ⟨fun _ => trivial, fun _ => ?_⟩
      refine ensures_setFrames fun _ outside _ houtside => ?_
      funext kind'
      rw [houtside, hlater, hinside, Context.frames_of_macros hs, hrest, List.take_append_drop]
      split
      · rename_i heq
        rw [heq]
      · rfl

/-- **What a modifier stands for is processed as its move says**, and behind it the stacks
are as they were. -/
theorem moves (b : Behaviour) (m : Modifier) (state : b.lifecycle.State) :
    b.lifecycle.Moves m state fun kind => b.move kind m state := by
  cases b with
  | slot kind => exact moves_slot kind m state
  | custom kind name parameters slotName body =>
    exact moves_custom kind name parameters slotName body m state
  | _ => exact .of_default rfl rfl fun _ => rfl

/-! ### Walks -/

/-- **Every lifecycle keeps the stacks of invocations**, the processing being over. -/
theorem upholds_frames (b : Behaviour) :
    b.lifecycle.Upholds .frames fun state _ => anyState state where
  stays hstate _ := hstate
  beforeContent := (keepsFrames b).beforeContent
  afterContent state cx hcx _ := (keepsFrames b).afterContent state cx hcx
  prepare m state immediate cx hcx _ := (keepsFrames b).prepare m state immediate cx hcx
  expand m state immediate cx hcx _ := (keepsFrames b).expand m state immediate cx hcx
  processing m state cx _ _ := (moves b m state cx).mono fun _ _ h => ⟨trivial, h.2⟩

/-- **Every walk leaves the stacks of invocations as they were**, in whatever state it
starts. -/
theorem keepsFrames_process (levels : Nat) : Walk.Upholds .frames (process levels) :=
  upholds_process upholds_frames levels

end MacroMarkup
