import MacroMarkup.Proofs.Frames

/-!
# Lifecycles that leave the registries alone

Most modifiers have nothing to do with what names are registered: they bind variables, read
values, or open and close invocations.  What depends only on the registries, on those that
are kept, and on the recorded modules is kept by all of them.

* `Upkeep.Registers`: what is to be kept depends on registrations only.
* `Behaviour.isBystander`, `upholdsEach_bystander`: the lifecycles that keep whatever so depends.
-/

namespace MacroMarkup

/-- What is to be kept depends on the registries of a context, the kept ones and the recorded
modules only, and definitions may be registered. -/
structure Upkeep.Registers (U : Upkeep) : Prop where
  allows : ∀ fault, U.allows fault
  setVariable : ∀ {cx : Context} (name value : String), U.Holds cx →
    U.Keeps cx (cx.setVariable name value)
  withMacros : ∀ {cx : Context} {s t : MacroState}, U.Holds cx → cx.macros = .ok s →
    t.notations = s.notations → t.modules = s.modules → t.insideModule = s.insideModule →
    U.Keeps cx (cx.withMacros t)
  register : ∀ {cx : Context} (kind : MacroKind) (d : Definition), d.kind = kind.modifierKind →
    U.Holds cx → U.Keeps cx { cx with configuration := cx.configuration.set d }.configurationChanged

namespace Step.Upholds

variable {U : Upkeep} {α : Type}

theorem looking (hU : U.Registers) {g : Context → Except Fault α} :
    Upholds U (fun _ => True) (fun cx => do return (← g cx, cx) : Step α) := by
  intro cx hcx
  simp only [Ensures, Bind.bind, Except.bind]
  cases g cx with
  | ok a => exact ⟨U.refl hcx, trivial⟩
  | error fault => exact hU.allows fault

theorem lift (hU : U.Registers) {x : Except Fault α} :
    Upholds U (fun _ => True) (liftM x : Step α) := by
  intro cx hcx
  cases x with
  | ok a => exact ⟨U.refl hcx, trivial⟩
  | error fault => exact hU.allows fault

theorem macros (hU : U.Registers) {post : α → Prop} {next : MacroState → Step α}
    (h : ∀ cx s, U.Holds cx → cx.macros = .ok s →
      Ensures U.allows (next s) cx fun a cx' => U.Keeps cx cx' ∧ post a) :
    Upholds U post (Step.macros >>= next) := by
  intro cx hcx
  rw [ensures_bind]
  cases hs : cx.macros with
  | ok s =>
    rw [ensures_macros hs]
    exact h cx s hcx hs
  | error fault =>
    simp only [Ensures, Step.macros, hs, Bind.bind, Except.bind]
    exact hU.allows fault

theorem changing (hU : U.Registers) {f : MacroState → MacroState}
    (h : ∀ cx s, U.Holds cx → cx.macros = .ok s → U.Keeps cx (cx.withMacros (f s))) :
    Upholds U (fun _ => True) (Step.modifyMacros f) := by
  intro cx hcx
  cases hs : cx.macros with
  | ok s =>
    rw [ensures_modifyMacros hs]
    exact ⟨h cx s hcx hs, trivial⟩
  | error fault =>
    simp only [Ensures, Step.modifyMacros, Context.modifyMacros, hs, Bind.bind, Except.bind]
    exact hU.allows fault

theorem setDelayed (hU : U.Registers) {kind : MacroKind}
    {delayed : MacroState → List DelayedFrame} :
    Upholds U (fun _ => True) (Step.modifyMacros fun s => s.setDelayed kind (delayed s)) :=
  changing hU fun _ _ hcx hs => by
    cases kind <;> exact hU.withMacros hcx hs rfl rfl rfl

theorem setFrames (hU : U.Registers) {kind : MacroKind} {frames : MacroState → List Frame} :
    Upholds U (fun _ => True) (Step.modifyMacros fun s => s.setFrames kind (frames s)) :=
  changing hU fun _ _ hcx hs => by
    cases kind <;> exact hU.withMacros hcx hs rfl rfl rfl

end Step.Upholds

section Lifecycles

variable {U : Upkeep} (hU : U.Registers)

theorem upholdsEach_quiet {State : Type} {idle : State}
    {expand : Modifier → State → Bool → Outcome × State} :
    Lifecycle.UpholdsEach U ⟨State, idle, fun _ _ => pure (idle, []), pure, fun _ state _ =>
      pure (state, []), fun m state immediate => pure (expand m state immediate),
      fun _ state => pure state, fun _ => pure ()⟩ anyState where
  beforeContent _ _ := .pure trivial
  afterContent _ _ := .pure trivial
  prepare _ _ _ _ := .pure trivial
  expand _ _ _ _ := .pure trivial
  beforeProcessing _ _ _ := .pure trivial
  afterProcessing _ _ := .pure trivial

theorem upholdsEach_print : printLifecycle.UpholdsEach U anyState where
  beforeContent _ _ := .pure trivial
  afterContent _ _ := .pure trivial
  prepare m state immediate _ := by
    simp only [printLifecycle]
    split <;> exact .pure trivial
  expand m state immediate _ := .ite (fun _ => .pure trivial) fun _ => .pure trivial
  beforeProcessing _ _ _ := .pure trivial
  afterProcessing _ _ := .pure trivial

include hU

theorem upholdsEach_assign : assignLifecycle.UpholdsEach U anyState where
  beforeContent _ _ := .pure trivial
  afterContent _ _ := .pure trivial
  prepare m state immediate _ := by
    simp only [assignLifecycle]
    split
    · exact .pure trivial
    · split
      · exact .ite (fun _ => .pure trivial) fun _ => .pure trivial
      · exact .pure trivial
  expand m state immediate _ := by
    cases state with
    | none => exact .pure trivial
    | some binding =>
      exact .bind (.modify fun _ hcx => hU.setVariable _ _ hcx) fun _ _ => .pure trivial
  beforeProcessing _ _ _ := .pure trivial
  afterProcessing _ _ := .pure trivial

theorem upholdsEach_reference : referenceLifecycle.UpholdsEach U anyState where
  beforeContent _ _ := .pure trivial
  afterContent _ _ := .pure trivial
  prepare m state immediate _ := by
    simp only [referenceLifecycle]
    split
    · exact .pure trivial
    · split
      · refine .ite (fun _ => .pure trivial) fun _ => .bind (.looking hU) fun found _ => ?_
        split <;> exact .pure trivial
      · exact .pure trivial
  expand m state immediate _ := by
    cases state <;> exact .pure trivial
  beforeProcessing _ _ _ := .pure trivial
  afterProcessing _ _ := .pure trivial

theorem upholdsEach_conditional (expectDefined : Bool) :
    (conditionalLifecycle expectDefined).UpholdsEach U anyState where
  beforeContent _ _ := .pure trivial
  afterContent _ _ := .pure trivial
  prepare m state immediate _ := by
    simp only [conditionalLifecycle]
    split
    · exact .pure trivial
    · split
      · refine .ite (fun _ => .pure trivial) fun _ => .bind (.looking hU) fun found _ => ?_
        split <;> exact .pure trivial
      · exact .pure trivial
  expand m state immediate _ := by
    simp only [conditionalLifecycle]
    split <;> exact .pure trivial
  beforeProcessing _ _ _ := .pure trivial
  afterProcessing _ _ := .pure trivial

theorem upholdsEach_define (kind : MacroKind) :
    (defineLifecycle kind).UpholdsEach U anyState where
  beforeContent m immediate := by
    simp only [defineLifecycle]
    split
    · exact .pure trivial
    split
    · exact .bind (.setDelayed hU) fun _ _ => .pure trivial
    · exact .pure trivial
  afterContent state _ := by
    cases state with
    | none => exact .pure trivial
    | some signature =>
      refine .bind (.looking hU) fun s _ => ?_
      split
      · exact .throw (hU.allows _)
      · exact .ite (fun _ => .throw (hU.allows _)) fun _ =>
          .bind (.setDelayed hU) fun _ _ => .pure trivial
  prepare m state immediate _ := by
    simp only [defineLifecycle]
    refine .ite (fun _ => .pure trivial) fun _ => ?_
    cases state with
    | none => exact .pure trivial
    | some signature =>
      refine .ite (fun _ => .pure trivial) fun _ => ?_
      cases kind <;> exact .get fun _ => .pure trivial
  expand m state immediate _ := by
    simp only [defineLifecycle]
    refine .ite (fun _ => .pure trivial) fun _ => ?_
    cases state with
    | none => exact .pure trivial
    | some signature =>
      exact .ite (fun _ => .bind (.modify fun _ hcx => hU.register kind _ rfl hcx)
        fun _ _ => .pure trivial) fun _ => .pure trivial
  beforeProcessing _ _ _ := .pure trivial
  afterProcessing _ _ := .pure trivial

theorem Step.Upholds.locateSlot {kind : MacroKind} {m : Modifier} {argument : Option Argument}
    {immediate : Bool} : Step.Upholds U (fun _ => True) (locateSlot kind m argument immediate) := by
  refine .bind (.looking hU) fun s _ => ?_
  refine .ite (fun _ => ?_) fun _ => .ite (fun _ => .pure trivial) fun _ => ?_
  · exact .ite (fun _ => .bind (.lift hU) fun _ _ => .pure trivial) fun _ => .pure trivial
  · split
    · exact .pure trivial
    · split
      · exact .pure trivial
      · exact .ite (fun _ => .pure trivial) fun _ => .pure trivial

theorem upholdsEach_slot (kind : MacroKind) : (slotLifecycle kind).UpholdsEach U anyState where
  beforeContent _ _ := .pure trivial
  afterContent _ _ := .pure trivial
  prepare m state immediate _ := by
    simp only [slotLifecycle]
    split
    · exact .pure trivial
    split
    · exact .locateSlot hU
    · exact .ite (fun _ => .pure trivial) fun _ =>
        .ite (fun _ => .pure trivial) fun _ => .locateSlot hU
  expand m state immediate _ := by
    cases state with
    | «open» => exact .pure trivial
    | failed => exact .pure trivial
    | resolved outer detached =>
      refine .bind (.looking hU) fun s _ => ?_
      split
      · exact .pure trivial
      · exact .throw (hU.allows _)
  beforeProcessing m state _ := by
    cases state with
    | «open» => exact .pure trivial
    | failed => exact .pure trivial
    | resolved outer detached =>
      exact .bind (.looking hU) fun _ _ => .bind (.setFrames hU) fun _ _ => .pure trivial
  afterProcessing state _ := by
    cases state with
    | «open» => exact .pure trivial
    | failed => exact .pure trivial
    | resolved outer detached =>
      exact .bind (.looking hU) fun _ _ =>
        .ite (fun _ => .throw (hU.allows _)) fun _ => .setFrames hU

theorem upholdsEach_custom (kind : MacroKind) (name : String) (parameters : List String)
    (slotName : String) (body : List Node) :
    (customLifecycle kind name parameters slotName body).UpholdsEach U anyState where
  beforeContent _ _ := .pure trivial
  afterContent _ _ := .pure trivial
  prepare m state immediate _ := by
    simp only [customLifecycle]
    split <;> exact .pure trivial
  expand m state immediate _ := .ite (fun _ => .pure trivial) fun _ => .pure trivial
  beforeProcessing m state _ := by
    cases state with
    | none => exact .pure trivial
    | some arguments => exact .bind (.setFrames hU) fun _ _ => .pure trivial
  afterProcessing state _ := by
    refine .ite (fun _ => .bind (.looking hU) fun s _ => ?_) fun _ => .pure trivial
    split
    · exact .throw (hU.allows _)
    · exact .ite (fun _ => .throw (hU.allows _)) fun _ => .setFrames hU

omit hU

/-- The behaviour neither changes the registries as a whole nor looks at modules. -/
def Behaviour.isBystander : Behaviour → Bool
  | .pushNotation | .popNotation | .recordModule | .useInside | .useFromHere => false
  | _ => true

/-- **Whatever depends on registrations only is kept by all lifecycles** but those that keep
registries or deal with modules. -/
theorem upholdsEach_bystander (hU : U.Registers) {b : Behaviour} (hb : b.isBystander = true) :
    b.lifecycle.UpholdsEach U anyState := by
  cases b with
  | plain => exact upholdsEach_quiet
  | unknown head => exact upholdsEach_quiet
  | raw => exact upholdsEach_quiet
  | define kind => exact upholdsEach_define hU kind
  | slot kind => exact upholdsEach_slot hU kind
  | print => exact upholdsEach_print
  | assign => exact upholdsEach_assign hU
  | reference => exact upholdsEach_reference hU
  | conditional expectDefined => exact upholdsEach_conditional hU expectDefined
  | custom kind name parameters slotName body =>
    exact upholdsEach_custom hU kind name parameters slotName body
  | pushNotation => cases hb
  | popNotation => cases hb
  | recordModule => cases hb
  | useInside => cases hb
  | useFromHere => cases hb

end Lifecycles

end MacroMarkup
