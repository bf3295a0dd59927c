import MacroMarkup.Proofs.Evaluation

/-!
# What expansion keeps of a context

Expansion acts on a context by the points of lifecycles only.  So what is kept from each
point to the next is kept by every walk, however deep it goes and whatever it comes to.

* `Upkeep`: what is to be kept of a context, and the faults that may be met.
* `Step.Upholds`: a step that keeps it, with a rule for each way of building one.
* `Lifecycle.Upholds`: a lifecycle that keeps it at each point, and over the two points
  around the processing of what a modifier stands for; `Lifecycle.UpholdsEach` asks it of these
  two as well.
* `upholds_process`: **if all lifecycles keep it, then every walk does.**
-/

namespace MacroMarkup

/-- What is to be kept of a context. -/
structure Upkeep where
  /-- The faults that may be met. -/
  allows : Fault → Prop
  /-- What holds of a context at every point. -/
  Holds : Context → Prop
  /-- What holds between the contexts at two points. -/
  Keeps : Context → Context → Prop
  refl : ∀ {cx}, Holds cx → Keeps cx cx
  trans : ∀ {cx cx' cx''}, Keeps cx cx' → Keeps cx' cx'' → Keeps cx cx''
  holds : ∀ {cx cx'}, Keeps cx cx' → Holds cx'
  /-- The state of the macros may be asked for. -/
  missing : ∀ {cx fault}, Holds cx → cx.macros = .error fault → allows fault

variable {U : Upkeep}

/-! ### Steps -/

/-- From a context in which `U` holds the step keeps it, and answers what satisfies
`post`. -/
def Step.Upholds {α : Type} (U : Upkeep) (post : α → Prop) (step : Step α) : Prop :=
  ∀ cx, U.Holds cx → Ensures U.allows step cx fun a cx' => U.Keeps cx cx' ∧ post a

namespace Step.Upholds

variable {α β : Type} {post : α → Prop} {post' : β → Prop}

theorem pure {a : α} (h : post a) : Upholds U post (pure a : Step α) :=
  fun _ hcx => ⟨U.refl hcx, h⟩

theorem throw {fault : Fault} (h : U.allows fault) :
    Upholds U post (throw fault : Step α) := fun _ _ => h

theorem bind {step : Step α} {next : α → Step β} (h : Upholds U post step)
    (g : ∀ a, post a → Upholds U post' (next a)) : Upholds U post' (step >>= next) := by
  intro cx hcx
  rw [ensures_bind]
  refine (h cx hcx).mono fun a cx' ha => ?_
  exact (g a ha.2 cx' (U.holds ha.1)).mono fun _ _ hb => ⟨U.trans ha.1 hb.1, hb.2⟩

theorem ite {c : Prop} [Decidable c] {step other : Step α} (h : c → Upholds U post step)
    (g : ¬ c → Upholds U post other) : Upholds U post (if c then step else other) := by
  split
  · exact h (by assumption)
  · exact g (by assumption)

theorem get {next : Context → Step α} (h : ∀ cx, Upholds U post (next cx)) :
    Upholds U post (get >>= next) := fun cx hcx => h cx cx hcx

theorem modify {f : Context → Context} (h : ∀ cx, U.Holds cx → U.Keeps cx (f cx)) :
    Upholds U (fun _ => True) (modify f : Step PUnit) := fun cx hcx => ⟨h cx hcx, trivial⟩

end Step.Upholds

abbrev anyState {State : Type} : State → Prop := fun _ => True

/-- The points of the lifecycle keep `U`, and leave a state that `rests`.  Whether it does may
depend on the context, but does not change while `U` is kept. -/
structure Lifecycle.Upholds (U : Upkeep) (life : Lifecycle)
    (rests : life.State → Context → Prop) : Prop where
  stays : ∀ {state cx cx'}, rests state cx → U.Keeps cx cx' → rests state cx'
  beforeContent : ∀ m immediate cx, U.Holds cx →
    Ensures U.allows (life.beforeContent m immediate) cx fun r cx' =>
      U.Keeps cx cx' ∧ rests r.1 cx'
  afterContent : ∀ state cx, U.Holds cx → rests state cx →
    Ensures U.allows (life.afterContent state) cx fun state' cx' =>
      U.Keeps cx cx' ∧ rests state' cx'
  prepare : ∀ m state immediate cx, U.Holds cx → rests state cx →
    Ensures U.allows (life.prepare m state immediate) cx fun r cx' =>
      U.Keeps cx cx' ∧ rests r.1 cx'
  expand : ∀ m state immediate cx, U.Holds cx → rests state cx →
    Ensures U.allows (life.expand m state immediate) cx fun d cx' =>
      U.Keeps cx cx' ∧ rests d.2 cx'
  /-- Behind the processing `U` is kept from before it on. -/
  processing : ∀ m state cx, U.Holds cx → rests state cx →
    Ensures U.allows (life.beforeProcessing m state) cx fun state' inside => U.Holds inside ∧
      ∀ later, U.Keeps inside later →
        Ensures U.allows (life.afterProcessing state') later fun _ outside => U.Keeps cx outside

/-- If both points around the processing keep `U`, it is kept over both. -/
theorem Step.Upholds.around {State : Type} {rests : State → Prop} {before : Step State}
    {after : State → Step Unit} (hbefore : Step.Upholds U rests before)
    (hafter : ∀ state, rests state → Step.Upholds U (fun _ => True) (after state))
    {cx : Context} (hcx : U.Holds cx) :
    Ensures U.allows before cx fun state inside => U.Holds inside ∧ ∀ later,
      U.Keeps inside later →
        Ensures U.allows (after state) later fun _ outside => U.Keeps cx outside := by
  refine (hbefore cx hcx).mono fun state inside hinside => ⟨U.holds hinside.1, ?_⟩
  intro later hlater
  refine (hafter state hinside.2 later (U.holds hlater)).mono fun _ outside houtside => ?_
  exact U.trans hinside.1 (U.trans hlater houtside.1)

/-- Each point of the lifecycle by itself keeps `U`, and leaves a state in `rests`. -/
structure Lifecycle.UpholdsEach (U : Upkeep) (life : Lifecycle) (rests : life.State → Prop) :
    Prop where
  beforeContent : ∀ m immediate,
    Step.Upholds U (fun r => rests r.1) (life.beforeContent m immediate)
  afterContent : ∀ state, rests state → Step.Upholds U rests (life.afterContent state)
  prepare : ∀ m state immediate, rests state →
    Step.Upholds U (fun r => rests r.1) (life.prepare m state immediate)
  expand : ∀ m state immediate, rests state →
    Step.Upholds U (fun d => rests d.2) (life.expand m state immediate)
  beforeProcessing : ∀ m state, rests state → Step.Upholds U rests (life.beforeProcessing m state)
  afterProcessing : ∀ state, rests state →
    Step.Upholds U (fun _ => True) (life.afterProcessing state)

theorem Lifecycle.UpholdsEach.upholds {life : Lifecycle} {rests : life.State → Prop}
    (h : life.UpholdsEach U rests) : life.Upholds U fun state _ => rests state where
  stays hstate _ := hstate
  beforeContent := h.beforeContent
  afterContent state cx hcx hstate := h.afterContent state hstate cx hcx
  prepare m state immediate cx hcx hstate := h.prepare m state immediate hstate cx hcx
  expand m state immediate cx hcx hstate := h.expand m state immediate hstate cx hcx
  processing m state _ hcx hstate :=
    (h.beforeProcessing m state hstate).around h.afterProcessing hcx

/-! ### Walks -/

/-- From the first point to the second `U` was kept, and as many modifiers are being
processed. -/
structure Engine.Upholds (U : Upkeep) (e e' : Engine) : Prop where
  keeps : U.Keeps e.context e'.context
  referring : e'.referring = e.referring

namespace Engine

variable {e e' e'' : Engine}

theorem Upholds.refl (h : U.Holds e.context) : e.Upholds U e := ⟨U.refl h, rfl⟩

theorem Upholds.trans (h : e.Upholds U e') (g : e'.Upholds U e'') : e.Upholds U e'' :=
  ⟨U.trans h.keeps g.keeps, g.referring.trans h.referring⟩

theorem Upholds.holds (h : e.Upholds U e') : U.Holds e'.context := U.holds h.keeps

theorem Reports.upholds (h : e.Reports e') (he : U.Holds e.context) : e.Upholds U e' := by
  obtain ⟨⟨emitted, rfl⟩, -⟩ := h
  exact ⟨U.refl he, rfl⟩

end Engine

section Parts

variable {α : Type} {e : Engine}

theorem upholds_inContext {post : α → Context → Prop} {step : Step α}
    (h : Ensures U.allows step e.context fun a cx' => U.Keeps e.context cx' ∧ post a cx') :
    Ensures U.allows (Expand.inContext step) e fun a e' =>
      e.Upholds U e' ∧ post a e'.context :=
  ensures_inContext.mpr (h.mono fun _ _ ha => ⟨⟨ha.1, rfl⟩, ha.2⟩)

theorem upholds_reporting {post : α → Context → Prop} {step : Step (α × List Message)}
    (h : Ensures U.allows step e.context fun r cx' => U.Keeps e.context cx' ∧ post r.1 cx') :
    Ensures U.allows (Expand.reporting step) e fun a e' =>
      e.Upholds U e' ∧ post a e'.context :=
  ensures_reporting.mpr (h.mono fun _ _ ha => ⟨⟨ha.1, rfl⟩, ha.2⟩)

end Parts

def Walk.Upholds (U : Upkeep) (walk : Walk) : Prop :=
  ∀ (nodes : List Node) (e : Engine), U.Holds e.context →
    Ensures U.allows (walk nodes) e fun _ e' => e.Upholds U e'

section Walks

variable {rests : (b : Behaviour) → b.lifecycle.State → Context → Prop}
  (hlife : ∀ b : Behaviour, b.lifecycle.Upholds U (rests b)) {walk : Walk} {e : Engine}
  {m : Modifier}

include hlife

theorem upholds_processNodes (hw : walk.Upholds U) (outermost : Bool)
    {state : m.definition.behaviour.lifecycle.State} (hstate : rests _ state e.context)
    {nodes : List Node} (he : U.Holds e.context) :
    Ensures U.allows (processNodes walk outermost m state nodes) e fun _ e' =>
      e.Upholds U e' := by
  rw [ensures_processNodes_iff]
  refine ⟨fun _ => .refl he, fun _ => ?_⟩
  rw [ensures_inContext]
  refine ((hlife m.definition.behaviour).processing m state e.context he hstate).mono ?_
  intro state' inside hanswer
  obtain ⟨hinside, hback⟩ := hanswer
  refine (hw nodes _ hinside).mono ?_
  intro _ later hlater
  rw [ensures_leaveReplacement hlater.referring, ensures_inContext]
  refine (hback later.context hlater.keeps).mono ?_
  intro _ outside houtside
  exact ⟨fun _ => ⟨houtside, rfl⟩, fun _ => ⟨houtside, rfl⟩⟩

theorem upholds_finishModifier (hw : walk.Upholds U) (outermost : Bool)
    {state : m.definition.behaviour.lifecycle.State} (hstate : rests _ state e.context)
    (he : U.Holds e.context) :
    Ensures U.allows (finishModifier walk outermost m state) e fun _ e' => e.Upholds U e' := by
  have hm := hlife m.definition.behaviour
  rw [ensures_finishModifier_iff]
  refine (upholds_reporting (hm.prepare m state e.immediate _ he hstate)).mono ?_
  intro prepared between hanswer
  obtain ⟨hbetween, hprepared⟩ := hanswer
  refine (upholds_inContext
    (hm.expand m prepared e.immediate _ hbetween.holds hprepared)).mono ?_
  intro answer decided hanswer
  obtain ⟨outcome, state'⟩ := answer
  obtain ⟨hdecided, hstate'⟩ := hanswer
  have hupholds := hbetween.trans hdecided
  cases outcome with
  | defer => exact hupholds
  | keep =>
    exact (upholds_processNodes hlife hw outermost hstate' hupholds.holds).mono
      fun _ _ h => hupholds.trans h
  | replace nodes =>
    refine (upholds_processNodes hlife hw outermost hstate' hupholds.holds).mono ?_
    intro _ e' h
    have hupholds' := hupholds.trans h
    exact ⟨fun _ => ⟨hupholds'.keeps, hupholds'.referring⟩, fun _ => hupholds'⟩

theorem upholds_expandRead (hw : walk.Upholds U)
    {state : m.definition.behaviour.lifecycle.State} (hstate : rests _ state e.context)
    (he : U.Holds e.context) :
    Ensures U.allows (expandRead walk m state) e fun _ e' => e.Upholds U e' :=
  ensures_expandRead_iff.mpr
    ⟨fun _ => .refl he, fun _ => upholds_finishModifier hlife hw true hstate he⟩

omit hlife in
theorem upholds_walkContent (hw : walk.Upholds U) (he : U.Holds e.context) :
    Ensures U.allows (walkContent walk m) e fun _ e' => e.Upholds U e' := by
  rw [ensures_walkContent_iff]
  refine ⟨fun _ => .refl he, fun _ => (hw m.content { e with
    delayDepth := e.delayDepth + m.definition.delaysContent.toNat } he).mono ?_⟩
  intro _ _ h
  exact ⟨fun _ => ⟨h.keeps, h.referring⟩, fun _ => ⟨h.keeps, h.referring⟩⟩

theorem upholds_expandGenerated (hw : walk.Upholds U) (he : U.Holds e.context) :
    Ensures U.allows (expandGenerated walk m) e fun _ e' => e.Upholds U e' := by
  have hm := hlife m.definition.behaviour
  rw [ensures_expandGenerated_iff]
  refine ⟨fun _ => .refl he, fun _ => ?_⟩
  refine (ensures_expandArguments m.arguments e fun _ => U.missing he).mono ?_
  intro arguments e₁ hanswer
  obtain ⟨⟨hreports, -⟩, -, -⟩ := hanswer
  have h₁ : e.Upholds U e₁ := hreports.upholds he
  refine ⟨fun _ => h₁, fun _ => ?_⟩
  refine (upholds_reporting
    (hm.beforeContent { m with arguments := arguments } _ _ h₁.holds)).mono ?_
  intro state opened hanswer
  obtain ⟨hopened, hstate⟩ := hanswer
  refine (upholds_walkContent hw hopened.holds).mono ?_
  intro content closed hclosed
  refine (upholds_inContext
    (hm.afterContent state _ hclosed.holds (hm.stays hstate hclosed.keeps))).mono ?_
  intro state' later hanswer
  obtain ⟨hlater, hstate'⟩ := hanswer
  refine (upholds_finishModifier hlife hw false
    (m := { m with arguments := arguments, content := content }) hstate' hlater.holds).mono ?_
  exact fun _ _ h => h₁.trans (hopened.trans (hclosed.trans (hlater.trans h)))

theorem upholds_processNode (hw : walk.Upholds U) (node : Node) (he : U.Holds e.context) :
    Ensures U.allows (processNode walk node) e fun _ e' => e.Upholds U e' := by
  cases node with
  | paragraph span content => exact ensures_processNode_paragraph.mpr (hw content e he)
  | modifier m =>
    exact ensures_processNode_modifier.mpr (upholds_expandGenerated hlife hw he)
  | text _ _ => exact .refl he
  | escaped _ _ => exact .refl he
  | preformatted _ _ _ => exact .refl he

theorem upholds_processEach (hw : walk.Upholds U) : Walk.Upholds U (processEach walk) := by
  intro nodes
  induction nodes with
  | nil => exact fun e he => .refl he
  | cons node rest ih =>
    intro e he
    rw [ensures_processEach_cons]
    refine (upholds_processNode hlife hw node he).mono ?_
    intro answer e₁ h₁
    exact (ih e₁ h₁.holds).mono fun _ _ h => h₁.trans h

/-- **What all lifecycles keep is kept by every walk**, in whatever state it starts. -/
theorem upholds_process (levels : Nat) : Walk.Upholds U (process levels) := by
  induction levels with
  | zero => exact fun nodes e he => ⟨U.refl he, rfl⟩
  | succ levels ih => exact upholds_processEach hlife ih

end Walks

end MacroMarkup
