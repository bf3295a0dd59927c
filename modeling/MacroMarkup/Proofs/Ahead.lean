import MacroMarkup.Proofs.Frames
import MacroMarkup.Proofs.World

/-!
# Visits ahead of time

Inside a body that is read for later, modifiers are looked at ahead of time: the points
around their content are passed as they are read, and a few of them are tried.  None of this
lasts.  What a point opens or makes visible is put back behind the content, and what is tried
binds nothing; only the count of changes of the configuration may rise.  Two problems are
reported all the same, at each such visit.

* `Context.Same`: two contexts differ at most in how often the configuration was changed.
* `Definition.Ordinary`: which modifiers are tried ahead of time.
* `Problem.Hasty`: what is reported ahead of time.
* `Engine.Idles`: between two points nothing changed, and only certain problems were reported.
* `Lifecycle.Returns`, `Lifecycle.Idles`: the laws of the points; `returns` and `idles` say
  which behaviours have them.
* `idle_process`: **a walk ahead of time changes nothing**, and what it reports.
* `World.ahead`: the world of a source that is read for later.
-/

namespace MacroMarkup

/-! ### What stays the same -/

/-- The contexts differ at most in how often the configuration was changed. -/
def Context.Same (cx cx' : Context) : Prop := ∃ revision, cx' = { cx with revision := revision }

namespace Context.Same

variable {cx cx' cx'' : Context}

theorem refl (cx : Context) : cx.Same cx := ⟨cx.revision, rfl⟩

theorem trans (h : cx.Same cx') (g : cx'.Same cx'') : cx.Same cx'' := by
  obtain ⟨_, rfl⟩ := h
  obtain ⟨revision, rfl⟩ := g
  exact ⟨revision, rfl⟩

theorem macros (h : cx.Same cx') : cx'.macros = cx.macros := by
  obtain ⟨_, rfl⟩ := h
  rfl

theorem restore_restore {r r' : Registries} (h : (cx.restore r).Same cx')
    (hr : r' = cx.registries) : cx.Same (cx'.restore r') := by
  obtain ⟨revision, rfl⟩ := h
  subst hr
  exact ⟨revision + 1, rfl⟩

end Context.Same

theorem Context.withMacros_of_macros {cx : Context} {s : MacroState} (hs : cx.macros = .ok s) :
    cx.withMacros s = cx := by
  obtain ⟨configuration, bindings, ⟨⟨value⟩, counter, label⟩, revision⟩ := cx
  cases value with
  | none => cases hs
  | some t =>
    cases hs
    rfl

/-- What was written over the state of the macros is undone by writing that again. -/
theorem Context.Same.withMacros {cx cx' : Context} {s t : MacroState} (hs : cx.macros = .ok s)
    (h : (cx.withMacros t).Same cx') : cx.Same (cx'.withMacros s) := by
  obtain ⟨revision, rfl⟩ := h
  exact ⟨revision, by
    conv_rhs => rw [← withMacros_of_macros hs]
    rfl⟩

namespace MacroState

theorem setDelayed_setDelayed (s : MacroState) (kind : MacroKind) (delayed : List DelayedFrame) :
    (s.setDelayed kind delayed).setDelayed kind (s.delayed kind) = s := by
  cases kind <;> rfl

theorem setFrames_setFrames (s : MacroState) (kind : MacroKind) (frames : List Frame) :
    (s.setFrames kind frames).setFrames kind (s.frames kind) = s := by
  cases kind <;> rfl

end MacroState

/-! ### What is tried ahead of time -/

/-- Modifiers of this behaviour may be tried ahead of time; `plain` says whether plain ones
may. -/
inductive Behaviour.GoesAhead (plain : Prop) : Behaviour → Prop
  | plain : plain → GoesAhead plain .plain
  | define (kind : MacroKind) : GoesAhead plain (.define kind)
  | slot (kind : MacroKind) : GoesAhead plain (.slot kind)
  | reference : GoesAhead plain .reference

/-- A definition reads its body for later, and of the modifiers of the language only
definitions, slots and references are tried ahead of time.  A document makes none that are; an
embedding program may add plain ones. -/
structure Definition.Ordinary (plain : Prop) (d : Definition) : Prop where
  delays : ∀ kind, d.behaviour = .define kind → d.delaysContent = true
  ahead : d.alwaysExpands = true → d.behaviour.GoesAhead plain

theorem Definition.Ordinary.custom {plain : Prop} (stamp : Nat) (kind : MacroKind) (name : String)
    (parameters : List String) (slotName : String) (body : List Node) :
    Ordinary plain { Definition.custom kind name parameters slotName body with stamp := stamp } :=
  ⟨nofun, nofun⟩

theorem Definition.Ordinary.unknown {plain : Prop} (kind : ModifierKind) (head : String) :
    Ordinary plain (.unknown kind head) :=
  ⟨nofun, nofun⟩

def Regime.ordinary (plain : Prop) : Regime where
  strict := False
  delaying := False
  delaying_of_strict := id
  Admits d := d.Ordinary plain
  custom := .custom
  unknown := .unknown
  delays h := h.elim

/-- What is reported ahead of time: a definition without arguments, and a slot whose name is
empty. -/
def Problem.Hasty (p : Problem) : Prop := p = .argumentCount 1 none ∨ p = .invalidArgument none

/-- What a modifier reports ahead of time before its content. -/
def Behaviour.opensWith (m : Modifier) : Behaviour → List Message
  | .define _ =>
    if m.arguments.isEmpty then [(Problem.argumentCount 1 none).message m.head] else []
  | _ => []

/-- What a modifier reports when it is tried ahead of time. -/
def Behaviour.triedWith (m : Modifier) : Behaviour → List Message
  | .slot _ =>
    match m.arguments with
    | [a] => if a.value = some "" then [(Problem.invalidArgument none).message a.span] else []
    | _ => []
  | _ => []

theorem about_hasty {p : Problem} {span : Span} (hp : p.Hasty) :
    ∀ message ∈ [p.message span], message.About Problem.Hasty := by
  intro message hmessage
  rw [List.mem_singleton.mp hmessage]
  exact Message.about_message hp span

theorem Behaviour.about_opensWith (b : Behaviour) (m : Modifier) :
    ∀ message ∈ b.opensWith m, message.About Problem.Hasty := by
  cases b with
  | define kind =>
    rw [opensWith]
    split
    · exact about_hasty (.inl rfl)
    · exact List.forall_mem_nil _
  | _ => exact List.forall_mem_nil _

theorem Behaviour.about_triedWith (b : Behaviour) (m : Modifier) :
    ∀ message ∈ b.triedWith m, message.About Problem.Hasty := by
  cases b with
  | slot kind =>
    rw [triedWith]
    split
    · split
      · exact about_hasty (.inr rfl)
      · exact List.forall_mem_nil _
    · exact List.forall_mem_nil _
  | _ => exact List.forall_mem_nil _

/-- From the first point to the second nothing changed, and only problems in `P` were
reported. -/
structure Engine.Idles (P : Problem → Prop) (e e' : Engine) : Prop where
  same : e.context.Same e'.context
  tells : e.Tells P e'

namespace Engine.Idles

variable {P Q : Problem → Prop} {e e' e'' : Engine}

theorem refl (e : Engine) : e.Idles P e := ⟨.refl _, .refl e⟩

theorem trans (h : e.Idles P e') (g : e'.Idles P e'') : e.Idles P e'' :=
  ⟨h.same.trans g.same, h.tells.trans g.tells⟩

theorem mono (h : e.Idles P e') (imp : ∀ p, P p → Q p) : e.Idles Q e' :=
  ⟨h.same, h.tells.mono imp⟩

end Engine.Idles

/-! ### The points of a lifecycle -/

namespace Lifecycle

/-- Ahead of time, the points around content that changes nothing change nothing, and the
first of them reports just this. -/
def Returns (life : Lifecycle) (remarks : Modifier → List Message) : Prop :=
  ∀ (cx : Context) (s : MacroState) (m : Modifier), cx.macros = .ok s →
    Ensures anyFault (life.beforeContent m false) cx fun r inside =>
      r.2 = remarks m ∧ ∀ later, inside.Same later →
        Ensures anyFault (life.afterContent r.1) later fun _ outside => cx.Same outside

/-- The points around the processing change nothing if nothing changes in between. -/
def Restores (life : Lifecycle) (cx : Context) (m : Modifier) (state : life.State) : Prop :=
  Ensures anyFault (life.beforeProcessing m state) cx fun state inside => ∀ later,
    inside.Same later →
      Ensures anyFault (life.afterProcessing state) later fun _ outside => cx.Same outside

/-- Ahead of time, deciding what a modifier stands for and processing it change nothing, and
just this is reported. -/
def Idles (life : Lifecycle) (remarks : Modifier → List Message) : Prop :=
  ∀ (cx : Context) (s : MacroState) (m : Modifier) (state : life.State), cx.macros = .ok s →
    m.span.start ≤ m.head.stop →
    Ensures anyFault (life.prepare m state false) cx fun r between =>
      between = cx ∧ r.2 = remarks m ∧
        Ensures anyFault (life.expand m r.1 false) cx fun d decided =>
          decided = cx ∧ life.Restores cx m d.2

variable {life : Lifecycle}

theorem Returns.of_default (hb : life.beforeContent = fun _ _ => pure (life.idle, []))
    (ha : life.afterContent = pure) : life.Returns fun _ => [] := by
  intro cx s m _
  rw [hb, ensures_pure, ha]
  exact ⟨rfl, fun later hlater => hlater⟩

theorem Restores.of_default {cx : Context} {m : Modifier} {state : life.State}
    (hb : life.beforeProcessing = fun _ state => pure state)
    (ha : life.afterProcessing = fun _ => pure ()) : life.Restores cx m state := by
  rw [Restores, hb, ha]
  exact fun later hlater => hlater

end Lifecycle

theorem returns_module : moduleLifecycle.Returns fun _ => [] :=
  fun _ _ _ _ => ⟨rfl, fun _ hlater => hlater⟩

theorem ensures_findModule_ahead {cx : Context} {s : MacroState} {m : Modifier}
    (hs : cx.macros = .ok s) :
    Ensures anyFault (findModule m false) cx fun found after => after = cx ∧
      ∀ messages, found = .error messages → messages = [] := by
  have refused : Ensures anyFault
      (pure (.error []) : Step (Except (List Message) ModuleRecord)) cx
      fun found after => after = cx ∧ ∀ messages, found = .error messages → messages = [] :=
    ⟨rfl, fun _ h => by cases h; rfl⟩
  simp only [findModule, Bool.false_eq_true, if_false]
  split
  · exact refused
  · split
    · rw [ensures_bind, ensures_macros hs]
      split
      · exact refused
      · split
        · exact refused
        · exact ⟨rfl, fun _ h => by cases h⟩
    · exact refused

theorem returns_useInside : useInsideLifecycle.Returns fun _ => [] := by
  intro cx s m hs
  simp only [useInsideLifecycle, ensures_bind]
  refine (ensures_findModule_ahead hs).mono ?_
  intro found after hanswer
  obtain ⟨rfl, hfound⟩ := hanswer
  cases found with
  | error messages =>
    exact ⟨hfound messages rfl, fun later hlater => hlater⟩
  | ok record =>
    refine ⟨rfl, fun later hlater => ?_⟩
    exact hlater.restore_restore rfl

theorem returns_define (kind : MacroKind) :
    (defineLifecycle kind).Returns (Behaviour.define kind).opensWith := by
  intro cx s m hs
  cases harguments : m.arguments with
  | nil =>
    have hcount : checkCount? m 1 none = some ((Problem.argumentCount 1 none).message m.head) := by
      simp [checkCount?, harguments]
    simp only [defineLifecycle, Behaviour.opensWith, hcount, harguments]
    exact ⟨rfl, fun later hlater => hlater⟩
  | cons name others =>
    have hcount : checkCount? m 1 none = none := by simp [checkCount?, harguments]
    simp only [defineLifecycle, Behaviour.opensWith, hcount, harguments, List.isEmpty_cons,
      Bool.false_eq_true, if_false, ensures_bind, ensures_modifyMacros hs, ensures_pure, true_and]
    intro later hlater
    have ht := hlater.macros.trans (Context.macros_withMacros _ _)
    simp only [ensures_macros ht, MacroState.delayed_setDelayed, ne_eq, not_true_eq_false,
      if_false, ensures_bind, ensures_modifyMacros ht, MacroState.setDelayed_setDelayed]
    exact hlater.withMacros hs

/-- **Ahead of time, the points around the content leave nothing behind.** -/
theorem returns (b : Behaviour) : b.lifecycle.Returns b.opensWith := by
  cases b with
  | define kind => exact returns_define kind
  | recordModule => exact returns_module
  | useInside => exact returns_useInside
  | plain => exact .of_default rfl rfl
  | unknown head => exact .of_default rfl rfl
  | slot kind => exact .of_default rfl rfl
  | print => exact .of_default rfl rfl
  | raw => exact .of_default rfl rfl
  | assign => exact .of_default rfl rfl
  | reference => exact .of_default rfl rfl
  | conditional expectDefined => exact .of_default rfl rfl
  | pushNotation => exact .of_default rfl rfl
  | popNotation => exact .of_default rfl rfl
  | useFromHere => exact .of_default rfl rfl
  | custom kind name parameters slotName body => exact .of_default rfl rfl

theorem idles_plain : plainLifecycle.Idles fun _ => [] :=
  fun _ _ _ _ _ _ => ⟨rfl, rfl, rfl, .of_default rfl rfl⟩

theorem idles_define (kind : MacroKind) : (defineLifecycle kind).Idles fun _ => [] :=
  fun _ _ _ _ _ _ => ⟨rfl, rfl, rfl, .of_default rfl rfl⟩

theorem idles_reference : referenceLifecycle.Idles fun _ => [] := by
  intro cx s m state hs _
  have hexpand : ∀ state, Ensures anyFault (referenceLifecycle.expand m state false) cx
      fun d decided => decided = cx ∧ referenceLifecycle.Restores cx m d.2 := by
    intro state
    cases state with
    | none => exact ⟨rfl, .of_default rfl rfl⟩
    | some text => exact ⟨rfl, .of_default rfl rfl⟩
  have quiet : ∀ state, Ensures anyFault (pure (state, []) : Step (Option String × List Message)) cx
      fun r between => between = cx ∧ r.2 = [] ∧
        Ensures anyFault (referenceLifecycle.expand m r.1 false) cx
          fun d decided => decided = cx ∧ referenceLifecycle.Restores cx m d.2 :=
    fun state => ⟨rfl, rfl, hexpand state⟩
  simp only [referenceLifecycle, Bool.false_eq_true, if_false] at quiet ⊢
  split
  · exact quiet _
  · split
    · split
      · exact quiet _
      · rw [ensures_bind, ensures_resolve hs]
        split <;> exact quiet _
    · exact quiet _

section Slots

variable {kind : MacroKind} {cx : Context} {s : MacroState} {m : Modifier}

/-- Ahead of time nothing is wrong with a slot but that its name is empty. -/
theorem ensures_prepare_slot_ahead {state : SlotState} (hs : cx.macros = .ok s)
    (hplaced : m.span.start ≤ m.head.stop) :
    Ensures anyFault ((slotLifecycle kind).prepare m state false) cx fun r between =>
      between = cx ∧ SlotState.Within (s.frames kind) r.1 ∧
        r.2 = (Behaviour.slot kind).triedWith m := by
  have hlocated : ∀ argument, Ensures anyFault (locateSlot kind m argument false) cx fun r _ =>
      r.2 = [] := by
    intro argument
    simp only [locateSlot, ensures_bind, ensures_macros hs, Bool.false_eq_true, if_false,
      ensures_ite]
    refine ⟨fun _ => rfl, fun _ => ⟨fun _ => rfl, fun _ => ?_⟩⟩
    split
    · exact rfl
    · split <;> exact rfl
  have htells : Ensures anyFault ((slotLifecycle kind).prepare m state false) cx fun r _ =>
      r.2 = (Behaviour.slot kind).triedWith m := by
    rcases harguments : m.arguments with _ | ⟨a, _ | ⟨b, rest⟩⟩
    case nil =>
      have hcount : checkCount? m 0 (some 1) = none := by simp [checkCount?, harguments]
      simp only [slotLifecycle, Behaviour.triedWith, hcount, harguments]
      exact hlocated _
    case cons.nil =>
      have hcount : checkCount? m 0 (some 1) = none := by simp [checkCount?, harguments]
      have hfound := hlocated (some a)
      obtain ⟨span, content, value⟩ := a
      simp only [slotLifecycle, Behaviour.triedWith, hcount, harguments, List.head?_cons,
        Bool.not_false, Bool.and_true, Argument.text]
      cases value with
      | none => exact rfl
      | some text =>
        simp only [Option.isNone_some, Bool.false_eq_true, if_false, Option.getD_some,
          String.isEmpty_iff, Option.some.injEq]
        split
        · exact rfl
        · exact hfound
    case cons.cons =>
      have hcount : (checkCount? m 0 (some 1)).isSome = true := by simp [checkCount?, harguments]
      obtain ⟨problem, hproblem⟩ := Option.isSome_iff_exists.mp hcount
      simp only [slotLifecycle, Behaviour.triedWith, hproblem, harguments, Bool.false_eq_true,
        if_false]
      exact rfl
  refine ((ensures_prepare_slot hs hplaced).any.and htells).mono ?_
  exact fun r between h => ⟨h.1.1, h.1.2.1, h.2⟩

/-- The invocations that are set aside before the body is processed come back behind it. -/
theorem restores_slot {state : SlotState} (hs : cx.macros = .ok s)
    (hstate : state.Within (s.frames kind)) : (slotLifecycle kind).Restores cx m state := by
  unfold Lifecycle.Restores
  cases state with
  | «open» => exact fun later hlater => hlater
  | failed => exact fun later hlater => hlater
  | resolved outer detached =>
    have hlt : outer < (s.frames kind).length := hstate outer detached rfl
    simp only [slotLifecycle, ensures_bind, ensures_macros hs, ensures_modifyMacros hs,
      ensures_pure]
    intro later hlater
    have ht := hlater.macros.trans (Context.macros_withMacros _ _)
    have hlength : ((s.frames kind).drop ((s.frames kind).length - outer)).length = outer := by
      rw [List.length_drop]
      omega
    simp only [ensures_macros ht, MacroState.frames_setFrames, hlength, ne_eq, not_true_eq_false,
      if_false, ensures_modifyMacros ht, List.take_append_drop, MacroState.setFrames_setFrames]
    exact hlater.withMacros hs

theorem idles_slot (kind : MacroKind) :
    (slotLifecycle kind).Idles (Behaviour.slot kind).triedWith := by
  intro cx s m state hs hplaced
  refine (ensures_prepare_slot_ahead hs hplaced).mono ?_
  intro answer between hanswer
  obtain ⟨state, messages⟩ := answer
  obtain ⟨rfl, hwithin, htells⟩ := hanswer
  refine ⟨rfl, htells, ?_⟩
  have hrestores := restores_slot (m := m) hs hwithin
  cases state with
  | «open» => exact ⟨rfl, hrestores⟩
  | failed => exact ⟨rfl, hrestores⟩
  | resolved outer detached =>
    obtain ⟨frame, -, hframe⟩ := frameInside?_of_lt (hwithin outer detached rfl)
    simp only [slotLifecycle, ensures_bind, ensures_macros hs, hframe, ensures_pure, true_and]
    exact hrestores

end Slots

/-- **What is tried ahead of time changes nothing.** -/
theorem idles {plain : Prop} {b : Behaviour} (h : b.GoesAhead plain) :
    b.lifecycle.Idles b.triedWith := by
  cases h with
  | plain _ => exact idles_plain
  | define kind => exact idles_define kind
  | slot kind => exact idles_slot kind
  | reference => exact idles_reference

/-! ### Walks -/

def Walk.Idles (plain : Prop) (walk : Walk) : Prop :=
  ∀ (e : Engine) (nodes : List Node), e.Sound (.ordinary plain) → e.immediate = false →
    (∀ n ∈ nodes, ((Regime.ordinary plain).stock e).Keeps n) →
    Ensures anyFault (walk nodes) e fun _ e' => e.Idles Problem.Hasty e'

/-- What is reported ahead of time where things may be nested too deep. -/
def Problem.HastyIn (deep : Prop) (p : Problem) : Prop :=
  p.Hasty ∨ deep ∧ ∃ limit name, p = .recursionLimit limit name

/-- Nothing in these nodes is nested too deep. -/
def Walk.Completes (walk : Walk) (nodes : List Node) : Prop :=
  ∀ e r e', walk nodes e = .ok (r, e') → r.2 = true

def Walk.CompletesAhead (walk : Walk) (m : Modifier)
    (state : m.definition.behaviour.lifecycle.State) (cx : Context) : Prop :=
  Ensures anyFault (m.definition.behaviour.lifecycle.prepare m state false) cx fun r between =>
    Ensures anyFault (m.definition.behaviour.lifecycle.expand m r.1 false) between fun d _ =>
      d.1 = .defer ∨ walk.Completes (d.1.nodes m)

section Walks

variable {plain deep : Prop} {walk : Walk} {e : Engine} {m : Modifier}

/-- A body is entered ahead of time if it is one, or if the modifier is visited so. -/
theorem Engine.immediate_inBody (h : e.immediate = false) (delayed : Bool) :
    (e.inBody delayed).immediate = false := by
  simp only [immediate, beq_eq_false_iff_ne, inBody, ne_eq] at h ⊢
  omega

theorem idle_processNodes (hw : walk.Idles plain) (outermost : Bool)
    {state : m.definition.behaviour.lifecycle.State} {nodes : List Node}
    (hlater : e.immediate = false)
    (hdeep : outermost = true → deep ∨ walk.Completes nodes)
    (hnodes : ∀ n ∈ nodes, ((Regime.ordinary plain).stock e).Keeps n)
    (hp : m.definition.behaviour.lifecycle.KeepsProcessing ((Regime.ordinary plain).stock e) m
      state e.context)
    (hr : m.definition.behaviour.lifecycle.Restores e.context m state) :
    Ensures anyFault (processNodes walk outermost m state nodes) e fun _ e' =>
      e.Idles (Problem.HastyIn deep) e' := by
  rw [ensures_processNodes_iff]
  refine ⟨fun _ => .refl e, fun _ => ?_⟩
  rw [ensures_inContext]
  refine (hr.and hp.any).mono ?_
  intro state inside hanswer
  obtain ⟨hrestores, hstores, -, -⟩ := hanswer
  have hinside : Engine.Sound (.ordinary plain)
      { e with context := inside, referring := m.span :: e.referring } :=
    ⟨hstores, fun h => h.elim⟩
  have hcomplete : Ensures anyFault (walk nodes)
      { e with context := inside, referring := m.span :: e.referring } fun r _ =>
        outermost = true → deep ∨ r.2 = true :=
    ensures_iff.mpr ⟨fun r e' hr houter => (hdeep houter).imp_right fun h => h _ r e' hr,
      fun _ _ => trivial⟩
  refine ((hw _ nodes hinside hlater hnodes).and hcomplete).mono ?_
  intro answer later hanswer
  obtain ⟨nodes', complete⟩ := answer
  obtain ⟨hidles, hcomplete⟩ := hanswer
  have htells : e.Tells (Problem.HastyIn deep) later := hidles.tells.mono fun _ => .inl
  refine ensures_leaveReplacement_any fun outer => ?_
  rw [ensures_inContext]
  refine (hrestores later.context hidles.same).mono ?_
  intro _ outside hsame
  refine ⟨fun hreports => ⟨hsame, htells.trans (Engine.tells_emit fun message hmessage => ?_)⟩,
    fun _ => ⟨hsame, htells⟩⟩
  rw [List.mem_singleton.mp hmessage]
  simp only [Bool.and_eq_true, Bool.not_eq_true'] at hreports
  refine Message.about_message
    (.inr ⟨(hcomplete hreports.2).resolve_right fun h => ?_, _, _, rfl⟩) _
  exact Bool.false_ne_true (hreports.1.symm.trans h)

theorem idle_finishModifier (hw : walk.Idles plain) (outermost : Bool)
    {state : m.definition.behaviour.lifecycle.State} (he : e.Sound (.ordinary plain))
    (hlater : e.immediate = false) (hm : ((Regime.ordinary plain).stock e).Sits m)
    (hstate : m.definition.behaviour.Rests state)
    (hahead : m.definition.behaviour.GoesAhead plain)
    (hdeep : outermost = true → deep ∨ walk.CompletesAhead m state e.context) :
    Ensures anyFault (finishModifier walk outermost m state) e fun _ e' =>
      e.Idles (Problem.HastyIn deep) e' := by
  obtain ⟨s, hs, -⟩ := he.stores.macros
  have hdecision := (ensures_decision he hm hstate).any
  have hidles := idles hahead e.context s m state hs hm.placed
  have hcompletes : Ensures anyFault (m.definition.behaviour.lifecycle.prepare m state false)
      e.context fun r between => Ensures anyFault
        (m.definition.behaviour.lifecycle.expand m r.1 false) between fun d _ =>
          outermost = true → deep ∨ d.1 = .defer ∨ walk.Completes (d.1.nodes m) := by
    by_cases h : outermost = true ∧ ¬ deep
    · refine ((hdeep h.1).resolve_left h.2).mono fun _ _ hexpand => hexpand.mono ?_
      exact fun _ _ hd _ => .inr hd
    · refine ensures_of_forall fun _ _ => ensures_of_forall fun _ _ houter => ?_
      exact .inl (not_not.mp fun hdeep => h ⟨houter, hdeep⟩)
  simp only [ensures_finishModifier_iff, ensures_reporting, ensures_inContext, hlater]
    at hdecision ⊢
  refine ((hidles.and hdecision).and hcompletes).mono ?_
  intro answer between hanswer
  obtain ⟨prepared, messages⟩ := answer
  obtain ⟨⟨⟨rfl, rfl, hexpand⟩, hdecided⟩, hcompleted⟩ := hanswer
  refine ((hexpand.and hdecided.any).and hcompleted).mono ?_
  intro answer decided hanswer
  obtain ⟨outcome, state⟩ := answer
  obtain ⟨⟨⟨rfl, hrestores⟩, ⟨-, -, hnodes, hp⟩, -⟩, hcomplete⟩ := hanswer
  -- the engine once it was decided what the modifier stands for
  let e₁ : Engine := e.emit (m.definition.behaviour.triedWith m)
  have hidles₁ : e.Idles (Problem.HastyIn deep) e₁ :=
    ⟨.refl _, (Engine.tells_emit (Behaviour.about_triedWith _ m)).mono fun _ => .inl⟩
  cases outcome with
  | defer => exact hidles₁
  | keep =>
    have hdeep' : outermost = true → deep ∨ walk.Completes m.content :=
      fun houter => (hcomplete houter).imp_right fun h => h.resolve_left Outcome.noConfusion
    exact (idle_processNodes (e := e₁) hw outermost hlater hdeep' hnodes hp hrestores).mono
      fun _ _ h => hidles₁.trans h
  | replace nodes =>
    have hdeep' : outermost = true → deep ∨ walk.Completes nodes :=
      fun houter => (hcomplete houter).imp_right fun h => h.resolve_left Outcome.noConfusion
    refine (idle_processNodes (e := e₁) hw outermost hlater hdeep' hnodes hp hrestores).mono ?_
    intro answer e' h
    have hidles' := hidles₁.trans h
    exact ⟨fun _ => ⟨hidles'.same, hidles'.tells⟩, fun _ => hidles'⟩

theorem idle_expandRead (hw : walk.Idles plain)
    {state : m.definition.behaviour.lifecycle.State} (he : e.Sound (.ordinary plain))
    (hlater : e.immediate = false) (hm : ((Regime.ordinary plain).stock e).Sits m)
    (hstate : m.definition.behaviour.Rests state)
    (hdeep : deep ∨ (m.definition.behaviour.GoesAhead plain →
      walk.CompletesAhead m state e.context)) :
    Ensures anyFault (expandRead walk m state) e fun _ e' =>
      e.Idles (Problem.HastyIn deep) e' := by
  refine ensures_expandRead_iff.mpr ⟨fun _ => .refl e, fun halways => ?_⟩
  have hahead : m.definition.behaviour.GoesAhead plain :=
    hm.fits.1.ahead (by simpa [hlater] using halways)
  exact idle_finishModifier hw true he hlater hm hstate hahead
    fun _ => hdeep.imp_right fun h => h hahead

theorem idle_walkContent (hw : walk.Idles plain)
    (he : (e.inBody m.definition.delaysContent).Sound (.ordinary plain))
    (hlater : e.immediate = false)
    (hm : ∀ n ∈ m.content, ((Regime.ordinary plain).stock e).Keeps n) :
    Ensures anyFault (walkContent walk m) e fun _ e' => e.Idles Problem.Hasty e' := by
  rw [ensures_walkContent_iff]
  refine ⟨fun _ => .refl e, fun _ => ?_⟩
  refine (hw _ m.content he (Engine.immediate_inBody hlater _) hm).mono ?_
  intro answer later hidles
  exact ⟨fun _ => ⟨hidles.same, hidles.tells⟩, fun _ => ⟨hidles.same, hidles.tells⟩⟩

theorem idle_expandGenerated (hl : walk.Lawful (.ordinary plain)) (hw : walk.Idles plain)
    (he : e.Sound (.ordinary plain)) (hlater : e.immediate = false)
    (hm : ((Regime.ordinary plain).stock e).Keeps (.modifier m)) :
    Ensures anyFault (expandGenerated walk m) e fun _ e' => e.Idles Problem.Hasty e' := by
  rw [ensures_expandGenerated_iff]
  refine ⟨fun _ => .refl e, fun hnone => ?_⟩
  have hsits := (Stock.sits_iff (by simpa using hnone)).mpr hm
  obtain ⟨s, hs, -⟩ := he.stores.macros
  refine (ensures_expandArguments m.arguments e fun _ _ => trivial).mono ?_
  intro arguments e₁ hanswer
  obtain ⟨⟨-, hquiet⟩, -, -⟩ := hanswer
  have hsame : e₁ = e := hquiet hlater
  subst hsame
  let m₁ : Modifier := { m with arguments := arguments }
  have hsits₁ : ((Regime.ordinary plain).stock e₁).Sits m₁ :=
    ⟨hsits.fits, hsits.placed, hsits.content⟩
  refine ⟨fun _ => .refl e₁, fun halways => ?_⟩
  have hahead : m.definition.behaviour.GoesAhead plain :=
    hsits.fits.1.ahead (by simpa [hlater] using halways)
  have hopens := (ensures_beforeContent (m := m₁) e₁.immediate he hsits₁).any
  have hreturns := returns m.definition.behaviour e₁.context s m₁ hs
  simp only [ensures_reporting, hlater] at hopens ⊢
  refine (hopens.and hreturns).mono ?_
  intro answer inside hanswer
  obtain ⟨state, messages⟩ := answer
  obtain ⟨hopens, rfl, hreturns⟩ := hanswer
  -- the engine at the start of the content
  let opened : Engine :=
    Engine.emit { e₁ with context := inside } (m.definition.behaviour.opensWith m₁)
  have hle : ((Regime.ordinary plain).stock e₁).Le ((Regime.ordinary plain).stock opened) :=
    Engine.stock_le (Nat.le_refl _) (Nat.le_refl _)
  have hcontent : ∀ n ∈ m₁.content, ((Regime.ordinary plain).stock opened).Keeps n :=
    fun n hn => hle.keeps n (hsits₁.content n hn)
  refine ((ensures_walkContent (e := opened) hl hopens.sound hcontent).any.and
    (idle_walkContent hw hopens.sound hlater hcontent)).mono ?_
  intro content later hanswer
  obtain ⟨hyields, hidles⟩ := hanswer
  have hafter := (ensures_afterContent he hopens hyields.sound hyields.follows).any
  simp only [ensures_inContext] at hafter ⊢
  refine (hafter.and (hreturns later.context hidles.same)).mono ?_
  intro state outside hanswer
  obtain ⟨⟨houtside, hfollows, hlater', hrests⟩, hsame⟩ := hanswer
  -- the engine behind the content
  let closed : Engine := { later with context := outside }
  have hidles₁ : e₁.Idles Problem.Hasty closed :=
    ⟨hsame, (Engine.tells_emit (Behaviour.about_opensWith _ m₁)).trans hidles.tells⟩
  have himmediate : closed.immediate = false := hfollows.immediate.trans hlater
  have hsits₂ : ((Regime.ordinary plain).stock closed).Sits { m₁ with content := content } :=
    ⟨hfollows.le.fits _ hsits₁.fits, hsits.placed, fun n hn => hlater'.keeps n (hyields.keeps n hn)⟩
  have hidles : Ensures anyFault
      (finishModifier walk false { m₁ with content := content } state) closed
      fun _ e' => closed.Idles (Problem.HastyIn False) e' :=
    idle_finishModifier hw false houtside himmediate hsits₂ hrests hahead
      fun houter => absurd houter Bool.false_ne_true
  exact hidles.mono
    fun _ e' h => hidles₁.trans (h.mono fun p hp => hp.resolve_right fun hdeep => hdeep.1)

theorem idle_processEach (hl : walk.Lawful (.ordinary plain)) (hw : walk.Idles plain) :
    Walk.Idles plain (processEach walk) := by
  intro e nodes
  induction nodes generalizing e with
  | nil => exact fun _ _ _ => .refl e
  | cons node rest ih =>
    intro he hlater hnodes
    have hnode : Ensures anyFault (processNode walk node) e fun _ e' =>
        e.Idles Problem.Hasty e' := by
      have hkeeps := hnodes node List.mem_cons_self
      cases node with
      | paragraph span content =>
        exact ensures_processNode_paragraph.mpr (hw e content he hlater
          (((Regime.ordinary plain).stock e).paragraph span content |>.mp hkeeps))
      | modifier m =>
        exact ensures_processNode_modifier.mpr (idle_expandGenerated hl hw he hlater hkeeps)
      | text _ _ => exact .refl e
      | escaped _ _ => exact .refl e
      | preformatted _ _ _ => exact .refl e
    rw [ensures_processEach_cons]
    refine ((ensures_processNode hl he (hnodes node List.mem_cons_self)).any.and hnode).mono ?_
    intro answer e₁ hanswer
    obtain ⟨node', complete⟩ := answer
    obtain ⟨hyields, hidles⟩ := hanswer
    have hlater₁ : e₁.immediate = false := hyields.follows.immediate.trans hlater
    refine (ih e₁ hyields.sound hlater₁ fun n hn =>
      hyields.follows.le.keeps n (hnodes n (List.mem_cons_of_mem _ hn))).mono ?_
    exact fun _ e₂ h => hidles.trans h

/-- **A walk ahead of time changes nothing**, however deep it may go, and what it reports is
hasty. -/
theorem idle_process (plain : Prop) (levels : Nat) : Walk.Idles plain (process levels) := by
  induction levels with
  | zero => exact fun e nodes _ _ _ => ⟨.refl _, .refl _⟩
  | succ levels ih => exact idle_processEach (lawful_process levels) ih

/-! ### Reading ahead of time -/

theorem completes_leaves (levels : Nat) {nodes : List Node} (h : ∀ n ∈ nodes, n.isLeaf = true) :
    Walk.Completes (process (levels + 1)) nodes := by
  intro e r e' hr
  have hrun : process (levels + 1) nodes e = .ok ((nodes, true), e) := by
    clear hr
    induction nodes with
    | nil => rfl
    | cons node rest ih =>
      have hrest := ih fun n hn => h n (List.mem_cons_of_mem _ hn)
      have hnode : processNode (process levels) node e = .ok ((node, true), e) := by
        cases node with
        | paragraph _ _ => exact absurd (h _ List.mem_cons_self) Bool.false_ne_true
        | modifier _ => exact absurd (h _ List.mem_cons_self) Bool.false_ne_true
        | text _ _ => rfl
        | escaped _ _ => rfl
        | preformatted _ _ _ => rfl
      rw [process] at hrest ⊢
      rw [processEach, bind_of_ok hnode]
      exact (bind_of_ok hrest).trans rfl
  rw [hrun] at hr
  cases hr
  rfl

/-- Where no invocation is open, what is tried ahead of time is left alone or stands for
text. -/
theorem completesAhead_of_noFrames {levels : Nat} {cx : Context} {s : MacroState}
    {state : m.definition.behaviour.lifecycle.State}
    (hahead : m.definition.behaviour.GoesAhead False) (hs : cx.macros = .ok s)
    (hnone : ∀ kind, s.frames kind = []) (hplaced : m.span.start ≤ m.head.stop) :
    Walk.CompletesAhead (process (levels + 1)) m state cx := by
  have hnothing : Walk.Completes (process (levels + 1)) [] :=
    completes_leaves levels (List.forall_mem_nil _)
  obtain ⟨span, head, definition, arguments, content, expansion⟩ := m
  obtain ⟨stamp, name, kind, slot, delaysContent, alwaysExpands, behaviour⟩ := definition
  cases hahead with
  | plain h => exact h.elim
  | define kind => exact .inl rfl
  | slot kind =>
    refine (ensures_prepare_slot_ahead hs hplaced).mono ?_
    intro answer between hanswer
    obtain ⟨state, messages⟩ := answer
    obtain ⟨-, hwithin, -⟩ := hanswer
    cases state with
    | «open» => exact .inl rfl
    | failed => exact .inr hnothing
    | resolved outer detached =>
      have hlt := hwithin outer detached rfl
      rw [hnone kind] at hlt
      exact absurd hlt (Nat.not_lt_zero _)
  | reference =>
    refine ensures_of_forall fun prepared between => ?_
    obtain ⟨state, messages⟩ := prepared
    cases state with
    | none => exact .inl rfl
    | some text =>
      refine .inr (completes_leaves levels fun n hn => ?_)
      rw [List.mem_singleton.mp hn]
      rfl

end Walks

def Context.NoFrames (cx : Context) : Prop := ∀ kind, cx.frames kind = []

theorem Context.NoFrames.of_same {cx cx' : Context} (h : cx.NoFrames) (hsame : cx.Same cx') :
    cx'.NoFrames := by
  intro kind
  rw [frames_congr hsame.macros]
  exact h kind

/-- What is reported while a source is read for later. -/
def Problem.Early (deep : Prop) (p : Problem) : Prop := p.isSyntactic = true ∨ p.HastyIn deep

theorem Engine.Reports.idles {deep : Prop} {e e' : Engine} (h : e.Reports e')
    (hlater : e.immediate = false) : e.Idles (Problem.Early deep) e' := by
  refine ⟨?_, h.tells.mono fun p hp => ?_⟩
  · rw [h.context]
    exact .refl _
  · exact .inl (hp.resolve_right fun hsoon => Bool.false_ne_true (hlater.symm.trans hsoon.1))

/-- Ahead of time: nothing lasts here, and invocations are open only where things may be nested
too deep. -/
structure Engine.IsAhead (deep : Prop) (e : Engine) : Prop where
  later : e.immediate = false
  shallow : deep ∨ e.context.NoFrames

theorem Engine.IsAhead.of_idles {deep : Prop} {P : Problem → Prop} {e e' : Engine}
    (h : e.IsAhead deep) (hidles : e.Idles P e') (hfollows : e.Follows e') : e'.IsAhead deep :=
  ⟨hfollows.immediate.trans h.later, h.shallow.imp_right fun hnone => hnone.of_same hidles.same⟩

/-- Before its content a modifier changes nothing that is not put back behind it, at a visit
ahead of time and at any other at which it does the same. -/
theorem ensures_beforeContent_returns {e : Engine} {m : Modifier} {s : MacroState}
    (hs : e.context.macros = .ok s)
    (hsame : m.definition.behaviour.lifecycle.beforeContent m e.immediate
      = m.definition.behaviour.lifecycle.beforeContent m false) :
    Ensures anyFault
      (Expand.reporting (m.definition.behaviour.lifecycle.beforeContent m e.immediate)) e
      fun state opened => e.Tells Problem.Hasty opened ∧
        opened.context.frames = e.context.frames ∧ opened.delayDepth = e.delayDepth ∧
        ∀ later : Engine, opened.context.Same later.context →
          Ensures anyFault (Expand.inContext (m.definition.behaviour.lifecycle.afterContent state))
            later fun _ outside => outside.emitted = later.emitted ∧
              e.context.Same outside.context := by
  have hframes := (keepsFrames m.definition.behaviour).beforeContent m false e.context trivial
  simp only [ensures_reporting, hsame]
  refine ((returns m.definition.behaviour e.context s m hs).and hframes).mono ?_
  intro answer inside hanswer
  obtain ⟨state, messages⟩ := answer
  obtain ⟨⟨rfl, hreturns⟩, hkeeps, -⟩ := hanswer
  refine ⟨Engine.tells_emit (Behaviour.about_opensWith _ m), hkeeps, rfl, fun later hlater => ?_⟩
  rw [ensures_inContext]
  exact (hreturns later.context hlater).mono fun _ _ houtside => ⟨rfl, houtside⟩

theorem idle_expandRead_levels {deep : Prop} {e : Engine} {m : Modifier}
    {state : m.definition.behaviour.lifecycle.State} (he : e.Sound (.ordinary deep))
    (hahead : e.IsAhead deep) (hm : ((Regime.ordinary deep).stock e).Sits m)
    (hstate : m.definition.behaviour.Rests state) :
    Ensures anyFault (expandRead (process e.levels) m state) e fun _ e' =>
      e.Idles (Problem.HastyIn deep) e' := by
  obtain ⟨s, hs, -⟩ := he.stores.macros
  refine idle_expandRead (idle_process deep _) he hahead.later hm hstate ?_
  by_cases hdeep : deep
  · exact .inl hdeep
  · refine .inr fun hgoes => completesAhead_of_noFrames ?_ hs ?_ hm.placed
    · rwa [eq_false hdeep] at hgoes
    · intro kind
      have hnone := hahead.shallow.resolve_left hdeep kind
      rwa [Context.frames_of_macros hs] at hnone

/-- **The world of a source that is read for later.**  Nothing changes in it, and besides what
is wrong with how the source is written only what is hasty is reported.  Things are not nested
too deep in it unless plain modifiers are tried ahead of time or an invocation is open. -/
def World.ahead (deep : Prop) : World where
  allows := noFault
  Sound e := e.Sound (.ordinary deep) ∧ e.IsAhead deep
  Fits e d := ((Regime.ordinary deep).stock e).Fits d
  Yields e nodes e' := e.Yields (.ordinary deep) nodes e' ∧ e.Idles (Problem.Early deep) e' ∧
    e.IsAhead deep
  readable h := h.1.stores.readable
  fits h hd := h.follows.le.fits _ hd
  sound h := ⟨h.1.sound, h.2.2.of_idles h.2.1 h.1.follows⟩
  leaves h hnodes := ⟨.leaves h.1 hnodes, .refl _, h.2⟩
  earlier {e e' _ _} h hyields := by
    obtain ⟨hyields, hidles, hahead⟩ := hyields
    have hlater : e.immediate = false := h.follows.immediate.symm.trans hahead.later
    refine ⟨hyields.after h.follows, (h.idles hlater).trans hidles, hlater, ?_⟩
    rw [← h.context]
    exact hahead.shallow
  later hyields h := by
    obtain ⟨hyields, hidles, hahead⟩ := hyields
    have hlater := hyields.follows.immediate.trans hahead.later
    exact ⟨hyields.later (h.sound hyields.sound) h.follows, hidles.trans (h.idles hlater), hahead⟩
  append h h' := ⟨h.1.append h'.1, h.2.1.trans h'.2.1, h.2.2⟩
  same h hsame := ⟨h.1.same hsame, h.2⟩
  paragraph span h := ⟨h.1.paragraph span, h.2⟩
  modifier {e m} he hfits hplaced hcontent hwaits hvalues := by
    obtain ⟨he, hahead⟩ := he
    obtain ⟨s, hs, -⟩ := he.stores.macros
    have hsits : ((Regime.ordinary deep).stock e).Sits m :=
      ⟨hfits, hplaced, fun n hn => by rw [hcontent] at hn; cases hn⟩
    refine ((ensures_beforeContent e.immediate he hsits).and
      (ensures_beforeContent_returns hs (by rw [hahead.later]))).mono ?_
    intro state opened hanswer
    obtain ⟨ho, htells, hframes, hdepth, hreturns⟩ := hanswer
    have hopened : opened.IsAhead deep := by
      refine ⟨?_, hahead.shallow.imp_right fun hnone kind => ?_⟩
      · rw [Engine.immediate, hdepth]
        exact hahead.later
      · rw [hframes]
        exact hnone kind
    refine ⟨⟨ho.sound, Engine.immediate_inBody hopened.later _, hopened.shallow⟩, ?_⟩
    intro content later span hyields hspan
    obtain ⟨hyields, hidles, -⟩ := hyields
    refine ((Regime.closes he hfits ho hyields hspan).and (hreturns _ hidles.same)).mono ?_
    intro state outside hanswer
    obtain ⟨⟨houtside, hfollows, hsits', hrests⟩, hemitted, hsame⟩ := hanswer
    have hidles' : e.Idles (Problem.Early deep) outside := by
      have hearly : e.Tells (Problem.Early deep) opened := htells.mono fun _ hp => .inr (.inl hp)
      have hafter : later.Tells (Problem.Early deep) outside := .of_same hemitted
      exact ⟨hsame, hearly.trans (hidles.tells.trans hafter)⟩
    refine ((ensures_expandRead (lawful_process _) houtside hsits' hwaits hrests
      fun hfinal => hvalues (hfollows.isFinal_back he hfinal)).and
      (idle_expandRead_levels houtside (hahead.of_idles hidles' hfollows) hsits' hrests)).mono ?_
    intro r e' hanswer
    obtain ⟨hexpanded, hidles''⟩ := hanswer
    exact ⟨hexpanded.after hfollows, hidles'.trans (hidles''.mono fun _ => .inr), hahead⟩

end MacroMarkup
