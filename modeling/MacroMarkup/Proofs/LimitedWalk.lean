import MacroMarkup.Proofs.Limit

/-!
# Walks under a larger limit

No behaviour looks at the limit; only walks do.  A walk that refuses a list answers so, and
the modifier that was read from the source raises an alarm.

* `Lifecycle.Ignores`: the points of a lifecycle do not look at the limit; `ignores` says
  that every behaviour has this law.
* `Walk.Persists`: the law of a walk; `persists_process` says that every walk has it.
* `persists_expandRead`: the law for modifiers that are read.
-/

namespace MacroMarkup

open Limited

/-! ### Behaviours -/

section Steps

variable {α : Type} {L : Nat} {cx : Context}

theorem PersistsAs.looking {g : Context → Except Fault α} (hg : g (withLimit L cx) = g cx) :
    Persists L (fun cx => do return (← g cx, cx) : Step α) cx := by
  intro _ a cx' hrun
  simp only [Bind.bind, Except.bind] at hrun ⊢
  rw [hg]
  cases hlook : g cx with
  | error fault =>
    rw [hlook] at hrun
    cases hrun
  | ok b =>
    rw [hlook] at hrun
    cases hrun
    exact ⟨Nat.le_refl _, rfl, fun _ _ => rfl⟩

theorem persists_macros : Persists L Step.macros cx := .looking rfl

theorem persists_resolve {name : String} : Persists L (Step.resolve name) cx := .looking rfl

theorem persists_modifyMacros {f : MacroState → MacroState} :
    Persists L (Step.modifyMacros f) cx := by
  intro _ a cx' hrun
  obtain ⟨configuration, bindings, ⟨⟨macros⟩, counter, label⟩, revision⟩ := cx
  cases macros with
  | none => cases hrun
  | some s =>
    cases hrun
    exact ⟨Nat.le_refl _, rfl, fun _ _ => rfl⟩

theorem persists_restore {r : Registries} : Persists L (Step.restore r) cx :=
  .modify (Nat.le_refl _) rfl rfl

end Steps

structure Lifecycle.Ignores (life : Lifecycle) (L : Nat) : Prop where
  beforeContent : ∀ m immediate cx, Persists L (life.beforeContent m immediate) cx
  afterContent : ∀ state cx, Persists L (life.afterContent state) cx
  prepare : ∀ m state immediate cx, Persists L (life.prepare m state immediate) cx
  expand : ∀ m state immediate cx, Persists L (life.expand m state immediate) cx
  beforeProcessing : ∀ m state cx, Persists L (life.beforeProcessing m state) cx
  afterProcessing : ∀ state cx, Persists L (life.afterProcessing state) cx

section Behaviours

variable {L : Nat}

theorem ignores_quiet {State : Type} {idle : State}
    {expand : Modifier → State → Bool → Outcome × State} :
    Lifecycle.Ignores ⟨State, idle, fun _ _ => pure (idle, []), pure, fun _ state _ =>
      pure (state, []), fun m state immediate => pure (expand m state immediate),
      fun _ state => pure state, fun _ => pure ()⟩ L where
  beforeContent _ _ _ := .pure
  afterContent _ _ := .pure
  prepare _ _ _ _ := .pure
  expand _ _ _ _ := .pure
  beforeProcessing _ _ _ := .pure
  afterProcessing _ _ := .pure

theorem ignores_assign : assignLifecycle.Ignores L where
  beforeContent _ _ _ := .pure
  afterContent _ _ := .pure
  prepare m state immediate cx := by
    simp only [assignLifecycle]
    split
    · exact .pure
    · split
      · exact .ite (fun _ => .pure) fun _ => .pure
      · exact .pure
  expand m state immediate cx := by
    cases state with
    | none => exact .pure
    | some binding => exact .bind (.modify (Nat.le_refl _) rfl rfl) fun _ _ => .pure
  beforeProcessing _ _ _ := .pure
  afterProcessing _ _ := .pure

theorem ignores_reference : referenceLifecycle.Ignores L where
  beforeContent _ _ _ := .pure
  afterContent _ _ := .pure
  prepare m state immediate cx := by
    simp only [referenceLifecycle]
    split
    · exact .pure
    · split
      · refine .ite (fun _ => .pure) fun _ => ?_
        refine .bind persists_resolve fun found cx' => ?_
        split <;> exact .pure
      · exact .pure
  expand m state immediate cx := by
    cases state <;> exact .pure
  beforeProcessing _ _ _ := .pure
  afterProcessing _ _ := .pure

theorem ignores_conditional (expectDefined : Bool) :
    (conditionalLifecycle expectDefined).Ignores L where
  beforeContent _ _ _ := .pure
  afterContent _ _ := .pure
  prepare m state immediate cx := by
    simp only [conditionalLifecycle]
    split
    · exact .pure
    · split
      · refine .ite (fun _ => .pure) fun _ => ?_
        refine .bind persists_resolve fun found cx' => ?_
        split <;> exact .pure
      · exact .pure
  expand m state immediate cx := by
    simp only [conditionalLifecycle]
    split <;> exact .pure
  beforeProcessing _ _ _ := .pure
  afterProcessing _ _ := .pure

theorem ignores_print : printLifecycle.Ignores L where
  beforeContent _ _ _ := .pure
  afterContent _ _ := .pure
  prepare m state immediate cx := by
    simp only [printLifecycle]
    split <;> exact .pure
  expand m state immediate cx := .ite (fun _ => .pure) fun _ => .pure
  beforeProcessing _ _ _ := .pure
  afterProcessing _ _ := .pure

theorem ignores_pushNotation : pushNotationLifecycle.Ignores L where
  beforeContent _ _ _ := .pure
  afterContent _ _ := .pure
  prepare _ _ _ _ := .pure
  expand _ _ _ _ := .get (.bind persists_modifyMacros fun _ _ => .pure)
  beforeProcessing _ _ _ := .pure
  afterProcessing _ _ := .pure

theorem ignores_popNotation : popNotationLifecycle.Ignores L where
  beforeContent _ _ _ := .pure
  afterContent _ _ := .pure
  prepare m state immediate cx := by
    refine .bind persists_macros fun s cx' => ?_
    split
    · exact .pure
    · exact .bind persists_modifyMacros fun _ _ => .bind persists_restore fun _ _ => .pure
  expand _ _ _ _ := .pure
  beforeProcessing _ _ _ := .pure
  afterProcessing _ _ := .pure

theorem ignores_recordModule : moduleLifecycle.Ignores L where
  beforeContent m immediate cx := by
    simp only [moduleLifecycle]
    refine .ite (fun _ => .pure) fun _ => ?_
    split
    · exact .pure
    split
    · refine .ite (fun _ => .pure) fun _ => ?_
      refine .bind persists_macros fun s cx' => ?_
      refine .ite (fun _ => .pure) fun _ => ?_
      refine .get ?_
      split
      · exact .bind persists_restore fun _ _ => .bind .pure fun _ _ =>
          .bind persists_modifyMacros fun _ _ => .pure
      · exact .bind .pure fun _ _ => .bind persists_modifyMacros fun _ _ => .pure
    · exact .pure
  afterContent state cx := by
    cases state with
    | none => exact .pure
    | some module =>
      exact .get (.bind persists_modifyMacros fun _ _ => .bind persists_restore fun _ _ => .pure)
  prepare _ _ _ _ := .pure
  expand _ _ _ _ := .pure
  beforeProcessing _ _ _ := .pure
  afterProcessing _ _ := .pure

theorem persists_findModule {m : Modifier} {immediate : Bool} {cx : Context} :
    Persists L (findModule m immediate) cx := by
  simp only [findModule]
  split
  · exact .pure
  split
  · refine .bind persists_macros fun s cx' => ?_
    split
    · exact .pure
    · exact .ite (fun _ => .pure) fun _ => .pure
  · exact .pure

theorem ignores_useInside : useInsideLifecycle.Ignores L where
  beforeContent m immediate cx := by
    refine .bind persists_findModule fun found cx' => ?_
    cases found with
    | error messages => exact .pure
    | ok record => exact .get (.bind persists_restore fun _ _ => .pure)
  afterContent state cx := by
    cases state with
    | none => exact .pure
    | some outer => exact .bind persists_restore fun _ _ => .pure
  prepare _ _ _ _ := .pure
  expand _ _ _ _ := .pure
  beforeProcessing _ _ _ := .pure
  afterProcessing _ _ := .pure

theorem ignores_useFromHere : useFromHereLifecycle.Ignores L where
  beforeContent _ _ _ := .pure
  afterContent _ _ := .pure
  prepare m state immediate cx := by
    refine .bind persists_findModule fun found cx' => ?_
    cases found with
    | error messages => exact .pure
    | ok record => exact .get .pure
  expand m state immediate cx := by
    cases state with
    | none => exact .pure
    | some merged => exact .bind persists_restore fun _ _ => .pure
  beforeProcessing _ _ _ := .pure
  afterProcessing _ _ := .pure

theorem ignores_define (kind : MacroKind) : (defineLifecycle kind).Ignores L where
  beforeContent m immediate cx := by
    simp only [defineLifecycle]
    split
    · exact .pure
    split
    · exact .bind persists_modifyMacros fun _ _ => .pure
    · exact .pure
  afterContent state cx := by
    cases state with
    | none => exact .pure
    | some signature =>
      refine .bind persists_macros fun s cx' => ?_
      split
      · exact .throw
      · exact .ite (fun _ => .throw) fun _ => .bind persists_modifyMacros fun _ _ => .pure
  prepare m state immediate cx := by
    simp only [defineLifecycle]
    refine .ite (fun _ => .pure) fun _ => ?_
    cases state with
    | none => exact .pure
    | some signature =>
      refine .ite (fun _ => .pure) fun _ => ?_
      cases kind <;> exact .get .pure
  expand m state immediate cx := by
    simp only [defineLifecycle]
    refine .ite (fun _ => .pure) fun _ => ?_
    cases state with
    | none => exact .pure
    | some signature =>
      refine .ite (fun _ => .bind (.modify (Nat.le_refl _) ?_ ?_) fun _ _ => .pure) fun _ => .pure
      · cases kind <;> rfl
      · cases kind <;> rfl
  beforeProcessing _ _ _ := .pure
  afterProcessing _ _ := .pure

theorem persists_locateSlot {kind : MacroKind} {m : Modifier} {argument : Option Argument}
    {immediate : Bool} {cx : Context} :
    Persists L (locateSlot kind m argument immediate) cx := by
  refine .bind persists_macros fun s cx' => ?_
  refine .ite (fun _ => ?_) fun _ => .ite (fun _ => .pure) fun _ => ?_
  · exact .ite (fun _ => .bind .lift fun _ _ => .pure) fun _ => .pure
  · split
    · exact .pure
    · split
      · exact .pure
      · exact .ite (fun _ => .pure) fun _ => .pure

theorem ignores_slot (kind : MacroKind) : (slotLifecycle kind).Ignores L where
  beforeContent _ _ _ := .pure
  afterContent _ _ := .pure
  prepare m state immediate cx := by
    simp only [slotLifecycle]
    split
    · exact .pure
    split
    · exact persists_locateSlot
    · refine .ite (fun _ => .pure) fun _ => .ite (fun _ => .pure) fun _ => persists_locateSlot
  expand m state immediate cx := by
    cases state with
    | «open» => exact .pure
    | failed => exact .pure
    | resolved outer detached =>
      refine .bind persists_macros fun s cx' => ?_
      split
      · exact .pure
      · exact .throw
  beforeProcessing m state cx := by
    cases state with
    | «open» => exact .pure
    | failed => exact .pure
    | resolved outer detached =>
      exact .bind persists_macros fun s cx' => .bind persists_modifyMacros fun _ _ => .pure
  afterProcessing state cx := by
    cases state with
    | «open» => exact .pure
    | failed => exact .pure
    | resolved outer detached =>
      exact .bind persists_macros fun s cx' => .ite (fun _ => .throw) fun _ => persists_modifyMacros

theorem ignores_custom (kind : MacroKind) (name : String) (parameters : List String)
    (slotName : String) (body : List Node) :
    (customLifecycle kind name parameters slotName body).Ignores L where
  beforeContent _ _ _ := .pure
  afterContent _ _ := .pure
  prepare m state immediate cx := by
    simp only [customLifecycle]
    split <;> exact .pure
  expand m state immediate cx := .ite (fun _ => .pure) fun _ => .pure
  beforeProcessing m state cx := by
    cases state with
    | none => exact .pure
    | some arguments => exact .bind persists_modifyMacros fun _ _ => .pure
  afterProcessing state cx := by
    refine .ite (fun _ => .bind persists_macros fun s cx' => ?_) fun _ => .pure
    split
    · exact .throw
    · exact .ite (fun _ => .throw) fun _ => persists_modifyMacros

/-- **No behaviour looks at the limit.** -/
theorem ignores (behaviour : Behaviour) : behaviour.lifecycle.Ignores L := by
  cases behaviour with
  | plain => exact ignores_quiet
  | unknown head => exact ignores_quiet
  | raw => exact ignores_quiet
  | define kind => exact ignores_define kind
  | slot kind => exact ignores_slot kind
  | print => exact ignores_print
  | assign => exact ignores_assign
  | reference => exact ignores_reference
  | conditional expectDefined => exact ignores_conditional expectDefined
  | pushNotation => exact ignores_pushNotation
  | popNotation => exact ignores_popNotation
  | recordModule => exact ignores_recordModule
  | useInside => exact ignores_useInside
  | useFromHere => exact ignores_useFromHere
  | custom kind name parameters slotName body =>
    exact ignores_custom kind name parameters slotName body

end Behaviours

/-! ### Arguments -/

section Arguments

variable {L : Nat}

theorem persists_immediate {e : Engine} : Persists L Expand.immediate e := .get .pure

mutual

theorem persists_expandArgument : ∀ (a : Argument) (e : Engine),
    Persists L (expandArgument a) e
  | ⟨span, content, some value⟩, e => by
    rw [expandArgument]
    exact .pure
  | ⟨span, content, none⟩, e => by
    rw [expandArgument]
    exact .bind (persists_expandEntities content e) fun _ _ => .pure

theorem persists_expandEntities : ∀ (entities : List Entity) (e : Engine),
    Persists L (expandEntities entities) e
  | [], e => by
    rw [expandEntities]
    exact .pure
  | entity :: rest, e => by
    rw [expandEntities]
    refine .bind (persists_expandEntity entity e) fun r e' => ?_
    obtain ⟨entity, value⟩ := r
    cases value with
    | none => exact .pure
    | some value => exact .bind (persists_expandEntities rest e') fun _ _ => .pure

theorem persists_expandEntity : ∀ (entity : Entity) (e : Engine),
    Persists L (expandEntity entity) e
  | .text span content, e => by
    rw [expandEntity]
    exact .pure
  | .escaped span content, e => by
    rw [expandEntity]
    exact .pure
  | .interpolation span interpolator argument (some value), e => by
    rw [expandEntity]
    exact .pure
  | .interpolation span interpolator argument none, e => by
    rw [expandEntity]
    refine .bind (persists_expandArgument argument e) fun r e' => ?_
    obtain ⟨argument, inner⟩ := r
    refine .bind persists_immediate fun immediate e'' => ?_
    cases inner with
    | none => exact .pure
    | some name =>
      refine .ite (fun _ => .pure) fun _ => ?_
      refine .bind (.inContext persists_resolve) fun found e₃ => ?_
      cases found with
      | value text => exact .pure
      | deferred => exact .pure
      | undefined => exact .ite (fun _ => .bind persists_emit fun _ _ => .pure) fun _ => .pure

end

theorem persists_expandArguments (arguments : List Argument) (e : Engine) :
    Persists L (expandArguments arguments) e := by
  induction arguments generalizing e with
  | nil => exact .pure
  | cons argument rest ih =>
    refine .bind (persists_expandArgument argument e) fun _ e' => ?_
    exact .bind (ih e') fun _ _ => .pure

end Arguments

/-! ### Walks -/

/-- If nothing was refused, the second walk ends the same under the limit `L`. -/
def Walk.Persists (L : Nat) (walk walk' : Walk) : Prop :=
  ∀ (nodes : List Node) (e : Engine),
    PersistsAs L (fun r => r.2 = true) (walk nodes) (walk' nodes) e

section Walks

variable {L : Nat} {walk walk' : Walk} {m : Modifier} {e : Engine}

theorem persists_leaveReplacement : Persists L Expand.leaveReplacement e := by
  obtain ⟨context, emitted, referring, delayDepth, refusals, losses, anticipations⟩ := e
  cases referring with
  | nil => exact .get .throw
  | cons span outer => exact .get (.modify (Nat.le_refl _) rfl rfl)

/-- **Processing persists**, as a refusal is answered or reported. -/
theorem persists_processNodes (hw : Walk.Persists L walk walk') (outermost : Bool)
    (state : m.definition.behaviour.lifecycle.State) (nodes : List Node) :
    PersistsAs L (fun r => outermost = true ∨ r.2 = true)
      (processNodes walk outermost m state nodes) (processNodes walk' outermost m state nodes)
      e := by
  have hlife := ignores (L := L) m.definition.behaviour
  refine .ite (fun _ => .pure) fun _ => ?_
  refine .bind (.inContext (hlife.beforeProcessing m state _)) fun state e₁ => ?_
  refine .bind (.modify (Nat.le_refl _) rfl rfl) fun _ e₂ => ?_
  refine .flagged (hw nodes e₂) ?_ ?_
  · intro answer e₃ hanswer
    obtain ⟨nodes, complete⟩ := answer
    obtain rfl := hanswer
    refine .bind persists_leaveReplacement fun _ e₄ => ?_
    refine .bind (.inContext (hlife.afterProcessing state _)) fun _ e₅ => ?_
    exact .pure
  · intro answer e₃ hincomplete hlimit
    obtain ⟨nodes, complete⟩ := answer
    have hcomplete : complete = false := by simpa using hincomplete
    subst hcomplete
    rw [ensures_bind]
    have hleave : Persists L Expand.leaveReplacement e₃ :=
      persists_leaveReplacement
    refine (hleave.ensures hlimit).mono ?_
    intro _ e₄ hanswer
    obtain ⟨halarms₄, hlimit₄⟩ := hanswer
    rw [ensures_bind]
    refine ((PersistsAs.inContext (hlife.afterProcessing state _)).ensures
      (hlimit₄.symm ▸ hlimit)).mono ?_
    intro _ e₅ hanswer
    obtain ⟨halarms₅, hlimit₅⟩ := hanswer
    cases outermost with
    | false => exact ⟨Nat.le_trans halarms₄ halarms₅, hlimit₅.trans hlimit₄, fun _ => by simp⟩
    | true =>
      simp only [Bool.not_false, Bool.and_self, if_true, ensures_bind, ensures_get, Expand.emit,
        ensures_modify, ensures_pure]
      have halarm := alarms_emit e₅ [(Problem.recursionLimit
        e₅.context.configuration.depthLimit m.definition.name).message m.span]
      simp only [List.countP_singleton, reportsLimit_recursionLimit, if_true] at halarm
      refine ⟨by omega, hlimit₅.trans hlimit₄, fun hquiet => ?_⟩
      omega

theorem persists_finishModifier (hw : Walk.Persists L walk walk') (outermost : Bool)
    (state : m.definition.behaviour.lifecycle.State) :
    PersistsAs L (fun r => outermost = true ∨ r.2 = true) (finishModifier walk outermost m state)
      (finishModifier walk' outermost m state) e := by
  have hlife := ignores (L := L) m.definition.behaviour
  refine .bind persists_immediate fun immediate e₁ => ?_
  refine .bind (.reporting (hlife.prepare m state immediate _)) fun state e₂ => ?_
  refine .bind (.inContext (hlife.expand m state immediate _)) fun decided e₃ => ?_
  obtain ⟨outcome, state⟩ := decided
  cases outcome with
  | defer => exact .pure
  | keep => exact (persists_processNodes hw outermost state m.content).map fun _ hok => hok
  | replace nodes =>
    refine (persists_processNodes hw outermost state nodes).flagged (fun r e₄ _ => ?_) ?_
    · exact .ite (fun _ => .bind (.modify (Nat.le_refl _) rfl rfl) fun _ _ => .pure) fun _ => .pure
    · intro r e₄ hnot _
      rw [ensures_ite]
      exact ⟨fun _ => ⟨Nat.le_refl _, rfl, fun _ => hnot⟩,
        fun _ => ⟨Nat.le_refl _, rfl, fun _ => hnot⟩⟩

/-- **The end of a modifier's life persists** if the modifier was read from the source. -/
theorem persists_expandRead (hw : Walk.Persists L walk walk')
    (state : m.definition.behaviour.lifecycle.State) :
    PersistsAs L anyResult (expandRead walk m state) (expandRead walk' m state) e := by
  refine .bind (.get .pure) fun delayed e₁ => ?_
  refine .ite (fun _ => .pure) fun _ => ?_
  exact (persists_finishModifier hw true state).weaken fun _ _ => .inl rfl

/-- A refusal inside the content that goes unnoticed is an alarm. -/
theorem persists_walkContent (hw : Walk.Persists L walk walk') :
    PersistsAs L anyResult (walkContent walk m) (walkContent walk' m) e := by
  refine .ite (fun _ => .pure) fun _ => ?_
  refine .bind (.modify (Nat.le_refl _) rfl rfl) fun _ e₁ => ?_
  refine .flagged (hw m.content e₁) ?_ ?_
  · intro answer e₂ hanswer
    obtain ⟨content, complete⟩ := answer
    obtain rfl := hanswer
    exact .bind (.modify (Nat.le_refl _) rfl rfl) fun _ _ => .pure
  · intro answer e₂ hincomplete _
    obtain ⟨content, complete⟩ := answer
    have hcomplete : complete = false := by simpa using hincomplete
    subst hcomplete
    simp only [Expand.leaveBody, Expand.lose, ensures_bind, ensures_modify, Bool.not_false,
      if_true, ensures_pure]
    have halarm : alarms e₂ < e₂.losses + 1 + e₂.emitted.countP Message.reportsLimit := by
      show e₂.losses + _ < _
      omega
    exact ⟨Nat.le_of_lt halarm, rfl, fun hquiet => absurd hquiet (Nat.ne_of_gt halarm)⟩

theorem persists_expandGenerated (hw : Walk.Persists L walk walk') (m : Modifier) :
    PersistsAs L (fun r => r.2 = true) (expandGenerated walk m) (expandGenerated walk' m) e := by
  have hlife := ignores (L := L) m.definition.behaviour
  refine .ite (fun _ => .pure) fun _ => ?_
  refine .bind (persists_expandArguments m.arguments e) fun arguments e₁ => ?_
  refine .bind (.get .pure) fun delayed e₂ => ?_
  refine .ite (fun _ => .pure) fun _ => ?_
  refine .bind persists_immediate fun immediate e₃ => ?_
  refine .bind (.reporting (hlife.beforeContent _ immediate _)) fun state e₄ => ?_
  refine .bind (persists_walkContent hw) fun content e₅ => ?_
  refine .bind (.inContext (hlife.afterContent state _)) fun state e₆ => ?_
  exact (persists_finishModifier hw false state).weaken fun _ hcomplete => .inr hcomplete

theorem persists_processNode (hw : Walk.Persists L walk walk') (node : Node) :
    PersistsAs L (fun r => r.2 = true) (processNode walk node) (processNode walk' node) e := by
  cases node with
  | paragraph span content => exact (hw content e).map fun _ hcomplete => hcomplete
  | modifier m => exact (persists_expandGenerated hw m).map fun _ hcomplete => hcomplete
  | text span content => exact .pure
  | escaped span content => exact .pure
  | preformatted span contentSpan text => exact .pure

theorem persists_processEach (hw : Walk.Persists L walk walk') :
    Walk.Persists L (processEach walk) (processEach walk') := by
  intro nodes
  induction nodes with
  | nil => exact fun e => .pure
  | cons node rest ih =>
    intro e
    refine (persists_processNode hw node).flagged ?_ ?_
    · intro answer e₁ hanswer
      obtain ⟨node, complete⟩ := answer
      obtain rfl := hanswer
      exact (ih e₁).map fun r hcomplete => by simpa using hcomplete
    · intro answer e₁ hincomplete hlimit
      obtain ⟨node, complete⟩ := answer
      rw [ensures_bind]
      refine ((ih e₁).ensures hlimit).mono ?_
      intro answer e₂ hanswer
      obtain ⟨rest, others⟩ := answer
      obtain ⟨halarms, hlimit₂⟩ := hanswer
      refine ⟨halarms, hlimit₂, fun _ hcomplete => hincomplete ?_⟩
      exact (Bool.and_eq_true_iff.mp hcomplete).2

/-- **A walk that refuses nothing is the same if more levels may nest.** -/
theorem persists_process {levels levels' : Nat} (h : levels ≤ levels') :
    Walk.Persists L (process levels) (process levels') := by
  induction levels generalizing levels' with
  | zero =>
    intro nodes e hlimit r e' hrun
    cases hrun
    exact ⟨Nat.le_refl _, rfl, fun _ hcomplete => by cases hcomplete⟩
  | succ levels ih =>
    cases levels' with
    | zero => omega
    | succ levels' => exact persists_processEach (ih (Nat.le_of_succ_le_succ h))

end Walks

end MacroMarkup
