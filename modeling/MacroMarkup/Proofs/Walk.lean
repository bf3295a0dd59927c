import MacroMarkup.Proofs.Evaluation
import MacroMarkup.Proofs.Settled

/-!
# What a walk leaves behind

A walk over generated nodes runs the lifecycles of the modifiers in them.  Whatever they do,
the walk closes what it opens, keeps the context in stock, and, if its visits are final and
nothing is refused, it leaves nothing waiting.

A `Regime` says what is asked of definitions and expansions.  A strict one counts the
modifiers that were replaced ahead of time.

* `Engine.Sound`, `Engine.Follows`: what holds at every point, and between two points.
* `Engine.Yields`: what a run that ends with nodes leaves behind.
* `Walk.Lawful`: the law of a walk; `lawful_process` says that every walk has it.
* `ensures_beforeContent`, `ensures_afterContent`, `ensures_expandRead`: the law of the
  parts of a lifecycle, for modifiers that are read.
-/

namespace MacroMarkup

open Context (Agrees)

/-- What is asked of definitions and of what expanded modifiers stand for. -/
structure Regime where
  /-- Expansions have to be resolved as long as nothing was refused or anticipated. -/
  strict : Prop
  /-- Whatever makes definitions reads their bodies for later. -/
  delaying : Prop
  delaying_of_strict : strict → delaying
  /-- The definitions that a modifier may have. -/
  Admits : Definition → Prop
  custom : ∀ stamp kind name parameters slotName body,
    Admits { Definition.custom kind name parameters slotName body with stamp := stamp }
  unknown : ∀ kind head, Admits (.unknown kind head)
  delays : delaying → ∀ d kind, Admits d → d.behaviour = .define kind → d.delaysContent = true

namespace Regime

variable (R : Regime)

/-- So far nothing was refused and nothing was replaced ahead of time. -/
def Clean (e : Engine) : Prop := R.strict ∧ e.refusals = 0 ∧ e.anticipations = 0

def Expands (e : Engine) (nodes : List Node) : Prop :=
  (R.strict → ∀ n ∈ nodes, n.Shows R.Admits) ∧ (R.Clean e → areResolved nodes = true)

def stock (e : Engine) : Stock := .kept (R.Expands e) R.Admits R.custom R.unknown

end Regime

namespace Engine

/-- What is open is the same at both points, and the second comes after the first. -/
structure Follows (e e' : Engine) : Prop where
  agrees : e.context.Agrees e'.context
  delayDepth : e'.delayDepth = e.delayDepth
  referring : e'.referring = e.referring
  refusals : e.refusals ≤ e'.refusals
  anticipations : e.anticipations ≤ e'.anticipations

/-- The context is in stock, and no definition is being read where visits are immediate. -/
structure Sound (R : Regime) (e : Engine) : Prop where
  stores : e.context.Stores (R.stock e)
  tight : R.delaying → e.delayDepth = 0 → e.context.NothingDelayed

variable {R : Regime} {e e' e'' : Engine}

theorem Follows.refl (e : Engine) : e.Follows e := ⟨.refl _, rfl, rfl, Nat.le_refl _, Nat.le_refl _⟩

theorem Follows.trans (h : e.Follows e') (g : e'.Follows e'') : e.Follows e'' :=
  ⟨h.agrees.trans g.agrees, g.delayDepth.trans h.delayDepth, g.referring.trans h.referring,
    Nat.le_trans h.refusals g.refusals, Nat.le_trans h.anticipations g.anticipations⟩

theorem Follows.immediate (h : e.Follows e') : e'.immediate = e.immediate := by
  rw [Engine.immediate, h.delayDepth, Engine.immediate]

theorem Follows.isFinal (h : e.Follows e') (hfinal : e.IsFinal) : e'.IsFinal :=
  ⟨h.delayDepth.trans hfinal.1, hfinal.2.of_agrees h.agrees⟩

theorem Follows.isFinal_back (h : e.Follows e') (he : e.Sound R) (hfinal : e'.IsFinal) :
    e.IsFinal := by
  obtain ⟨s, hs, -⟩ := he.stores.macros
  exact ⟨h.delayDepth.symm.trans hfinal.1, hfinal.2.of_agrees_back hs h.agrees⟩

theorem Follows.clean (hr : e.refusals ≤ e'.refusals) (ha : e.anticipations ≤ e'.anticipations)
    (hclean : R.Clean e') : R.Clean e := by
  obtain ⟨hstrict, hrefusals, hanticipations⟩ := hclean
  exact ⟨hstrict, by omega, by omega⟩

/-- What may be kept grows as refusals and anticipations are counted. -/
theorem expands_mono (hr : e.refusals ≤ e'.refusals)
    (ha : e.anticipations ≤ e'.anticipations) {nodes : List Node} (h : R.Expands e nodes) :
    R.Expands e' nodes :=
  ⟨h.1, fun hclean => h.2 (Follows.clean hr ha hclean)⟩

theorem stock_le (hr : e.refusals ≤ e'.refusals) (ha : e.anticipations ≤ e'.anticipations) :
    (R.stock e).Le (R.stock e') where
  fits _ hd := ⟨hd.1, fun n hn => (hd.2 n hn).mono fun _ => expands_mono hr ha⟩
  keeps _ hn := Node.Kept.mono hn fun _ => expands_mono hr ha

theorem Follows.le (h : e.Follows e') : (R.stock e).Le (R.stock e') :=
  stock_le h.refusals h.anticipations

theorem Reports.follows (h : e.Reports e') : e.Follows e' := by
  obtain ⟨⟨emitted, rfl⟩, -⟩ := h
  exact ⟨.refl _, rfl, rfl, Nat.le_refl _, Nat.le_refl _⟩

theorem Reports.sound (h : e.Reports e') (he : e.Sound R) : e'.Sound R := by
  obtain ⟨⟨emitted, rfl⟩, -⟩ := h
  exact ⟨he.stores, he.tight⟩

/-- The run from `e` to `e'` closed what it opened, and ended with nodes in which nothing
waits if its visits were final and nothing was refused. -/
structure Yields (R : Regime) (e : Engine) (nodes : List Node) (e' : Engine) : Prop where
  sound : e'.Sound R
  follows : e.Follows e'
  keeps : ∀ n ∈ nodes, (R.stock e').Keeps n
  settled : e.IsFinal → e'.refusals = e.refusals → ∀ n ∈ nodes, n.Settled (R.Expands e')

theorem Yields.nil (he : e.Sound R) : e.Yields R [] e :=
  ⟨he, .refl e, List.forall_mem_nil _, fun _ _ => List.forall_mem_nil _⟩

/-- What was yielded is still good at a later point at which nothing more was refused. -/
theorem Yields.later {nodes : List Node} (h : e.Yields R nodes e') (hs : e''.Sound R)
    (hf : e'.Follows e'') : e.Yields R nodes e'' where
  sound := hs
  follows := h.follows.trans hf
  keeps n hn := hf.le.keeps n (h.keeps n hn)
  settled hfinal hsame n hn := by
    have hle := h.follows.refusals
    have hle' := hf.refusals
    exact (h.settled hfinal (by omega) n hn).mono fun _ =>
      expands_mono hf.refusals hf.anticipations

theorem Yields.append {before after : List Node} (h : e.Yields R before e')
    (g : e'.Yields R after e'') : e.Yields R (before ++ after) e'' := by
  have hearlier := h.later g.sound g.follows
  refine ⟨g.sound, hearlier.follows, fun n hn => ?_, fun hfinal hsame n hn => ?_⟩
  · rcases List.mem_append.mp hn with hn | hn
    · exact hearlier.keeps n hn
    · exact g.keeps n hn
  · have hle := h.follows.refusals
    have hle' := g.follows.refusals
    rcases List.mem_append.mp hn with hn | hn
    · exact hearlier.settled hfinal hsame n hn
    · exact g.settled (h.follows.isFinal hfinal) (by omega) n hn

theorem Yields.paragraph {nodes : List Node} (h : e.Yields R nodes e') (span : Span) :
    e.Yields R [.paragraph span nodes] e' where
  sound := h.sound
  follows := h.follows
  keeps n hn := by
    rw [List.mem_singleton.mp hn]
    exact ((R.stock e').paragraph span nodes).mpr h.keeps
  settled hfinal hsame n hn := by
    rw [List.mem_singleton.mp hn]
    exact .paragraph (h.settled hfinal hsame)

theorem Yields.leaves {nodes : List Node} (he : e.Sound R)
    (hnodes : ∀ n ∈ nodes, n.isLeaf = true) : e.Yields R nodes e where
  sound := he
  follows := .refl e
  keeps n hn := (R.stock e).leaf n (hnodes n hn)
  settled _ _ n hn := .leaf (hnodes n hn)

theorem Yields.leaf {n : Node} (he : e.Sound R) (hn : n.isLeaf = true) : e.Yields R [n] e :=
  .leaves he fun n' hn' => by rwa [List.mem_singleton.mp hn']

/-- Leaves may come and go among the nodes that are yielded. -/
theorem Yields.same {nodes nodes' : List Node} (h : e.Yields R nodes e')
    (hsame : compounds nodes' = compounds nodes) : e.Yields R nodes' e' where
  sound := h.sound
  follows := h.follows
  keeps n hn := (mem_or_isLeaf hsame hn).elim (h.keeps n) ((R.stock e').leaf n)
  settled hfinal hrefusals n hn :=
    (mem_or_isLeaf hsame hn).elim (h.settled hfinal hrefusals n) fun hleaf => .leaf hleaf

theorem Yields.after {nodes : List Node} (hf : e.Follows e') (h : e'.Yields R nodes e'') :
    e.Yields R nodes e'' where
  sound := h.sound
  follows := hf.trans h.follows
  keeps := h.keeps
  settled hfinal hsame := by
    have hle := hf.refusals
    have hle' := h.follows.refusals
    exact h.settled (hf.isFinal hfinal) (by omega)

theorem Yields.shows {nodes : List Node} (h : e.Yields R nodes e') (hstrict : R.strict) :
    ∀ n ∈ nodes, n.Shows R.Admits :=
  fun n hn => Node.Kept.shows (h.keeps n hn) fun _ hnodes => hnodes.1 hstrict

/-- As long as nothing was refused or anticipated, final visits resolve all. -/
theorem Yields.areResolved {nodes : List Node} (h : e.Yields R nodes e') (hfinal : e.IsFinal)
    (hclean : R.Clean e') : areResolved nodes = true := by
  have hsame : e'.refusals = e.refusals := by
    have hle := h.follows.refusals
    have hzero := hclean.2.1
    omega
  refine areResolved_iff.mpr fun n hn => ?_
  exact ((h.settled hfinal hsame n hn).mono fun _ hnodes => hnodes.2 hclean).isResolved

end Engine

/-! ### What a modifier stands for -/

/-- A walk closes what it opens, and leaves nothing waiting if its visits are final. -/
def Walk.Lawful (R : Regime) (walk : Walk) : Prop :=
  ∀ (e : Engine) (nodes : List Node), e.Sound R → (∀ n ∈ nodes, (R.stock e).Keeps n) →
    Ensures noFault (walk nodes) e fun r e' => e.Yields R r.1 e'

section Modifiers

variable {R : Regime} {walk : Walk} {e : Engine} {m : Modifier}

theorem ensures_processNodes (hw : Walk.Lawful R walk) (outermost : Bool)
    {state : m.definition.behaviour.lifecycle.State} {nodes : List Node} (he : e.Sound R)
    (hnodes : ∀ n ∈ nodes, (R.stock e).Keeps n)
    (hp : m.definition.behaviour.lifecycle.KeepsProcessing (R.stock e) m state e.context) :
    Ensures noFault (processNodes walk outermost m state nodes) e fun r e' =>
      e.Yields R r.1 e' := by
  rw [ensures_processNodes_iff]
  refine ⟨fun _ => .nil he, fun _ => ?_⟩
  rw [ensures_inContext]
  refine hp.mono ?_
  intro state inside hanswer
  obtain ⟨hstores, hnone, hafter⟩ := hanswer
  have hinside : Engine.Sound R { e with context := inside, referring := m.span :: e.referring } :=
    ⟨hstores, fun hdelaying hzero => hnone (he.tight hdelaying hzero)⟩
  refine (hw _ nodes hinside hnodes).mono ?_
  intro answer later hyields
  obtain ⟨nodes, complete⟩ := answer
  rw [ensures_leaveReplacement hyields.follows.referring, ensures_inContext]
  refine (hafter _ hyields.follows.le _ hyields.sound.stores hyields.follows.agrees).mono ?_
  intro _ outside hanswer
  obtain ⟨hstores', hagrees⟩ := hanswer
  have houtside : e.Yields R nodes { later with referring := e.referring, context := outside } := by
    refine ⟨⟨hstores', fun hdelaying hzero => ?_⟩, ⟨hagrees, hyields.follows.delayDepth, rfl,
      hyields.follows.refusals, hyields.follows.anticipations⟩, hyields.keeps, ?_⟩
    · exact (he.tight hdelaying (hyields.follows.delayDepth ▸ hzero)).of_agrees hagrees
    · exact fun hfinal => hyields.settled ⟨hfinal.1, hnone hfinal.2⟩
  refine ⟨fun _ => ?_, fun _ => houtside⟩
  exact houtside.later ⟨houtside.sound.stores, houtside.sound.tight⟩
    ⟨.refl _, rfl, rfl, Nat.le_refl _, Nat.le_refl _⟩

theorem ensures_decision {state : m.definition.behaviour.lifecycle.State} (he : e.Sound R)
    (hm : (R.stock e).Sits m) (hstate : m.definition.behaviour.Rests state) :
    Ensures noFault (m.definition.behaviour.lifecycle.prepare m state e.immediate) e.context
      fun r between => Ensures noFault
        (m.definition.behaviour.lifecycle.expand m r.1 e.immediate) between fun d decided =>
          (decided.Stores (R.stock e) ∧ e.context.Agrees decided ∧
            (∀ n ∈ d.1.nodes m, (R.stock e).Keeps n) ∧
            m.definition.behaviour.lifecycle.KeepsProcessing (R.stock e) m d.2 decided) ∧
          (e.IsFinal → d.1.IsDecided (m.definition.behaviour = .plain)) := by
  have hkeeps := keepsDecision hm.fits e.context m state e.immediate he.stores hm hstate
  by_cases hfinal : e.IsFinal
  · have hdecides := decides m.definition.behaviour e.context m state hfinal.2 hm.placed
    rw [← hfinal.immediate] at hdecides
    refine (hkeeps.and hdecides).mono ?_
    intro r between hanswer
    obtain ⟨⟨-, -, hexpand⟩, hdecided⟩ := hanswer
    exact (hexpand.and hdecided).mono fun d decided h => ⟨h.1, fun _ => h.2⟩
  · refine hkeeps.mono ?_
    intro r between hanswer
    obtain ⟨-, -, hexpand⟩ := hanswer
    exact hexpand.mono fun d decided h => ⟨h, fun h' => absurd h' hfinal⟩

theorem ensures_finishModifier (hw : Walk.Lawful R walk) (outermost : Bool)
    {state : m.definition.behaviour.lifecycle.State} (he : e.Sound R)
    (hm : (R.stock e).Sits m) (hwaits : m.expansion = none)
    (hstate : m.definition.behaviour.Rests state)
    (hvalues : e.IsFinal → ∀ a ∈ m.arguments, a.value.isSome = true) :
    Ensures noFault (finishModifier walk outermost m state) e fun r e' =>
      e.Yields R [.modifier r.1] e' := by
  simp only [ensures_finishModifier_iff, ensures_reporting, ensures_inContext]
  refine (ensures_decision he hm hstate).mono ?_
  intro answer between h
  obtain ⟨prepared, messages⟩ := answer
  refine h.mono ?_
  intro answer decided hanswer
  obtain ⟨outcome, state⟩ := answer
  obtain ⟨⟨hstores, hagrees, hnodes, hp⟩, hdecided⟩ := hanswer
  -- the engine once it was decided what the modifier stands for
  let e₁ : Engine := { Engine.emit { e with context := between } messages with context := decided }
  have he₁ : e₁.Sound R :=
    ⟨hstores, fun hdelaying hzero => (he.tight hdelaying hzero).of_agrees hagrees⟩
  have hf₁ : e.Follows e₁ := ⟨hagrees, rfl, rfl, Nat.le_refl _, Nat.le_refl _⟩
  cases outcome with
  | defer =>
    refine ⟨he₁, hf₁, fun n hn => ?_, fun hfinal => (hdecided hfinal).elim⟩
    rw [List.mem_singleton.mp hn]
    exact (Stock.sits_iff hwaits).mp hm
  | keep =>
    refine (ensures_processNodes (e := e₁) hw outermost he₁ hnodes hp).mono ?_
    intro answer e' hyields
    obtain ⟨content, complete⟩ := answer
    refine ⟨hyields.sound, hf₁.trans hyields.follows, fun n hn => ?_, fun hfinal hsame n hn => ?_⟩
    · rw [List.mem_singleton.mp hn]
      exact (Stock.sits_iff (m := { m with content := content }) hwaits).mp
        ⟨hyields.follows.le.fits _ hm.fits, hm.placed, hyields.keeps⟩
    · rw [List.mem_singleton.mp hn]
      exact .plain hwaits (hdecided hfinal) (hvalues hfinal)
        (hyields.settled (hf₁.isFinal hfinal) hsame)
  | replace nodes =>
    refine (ensures_processNodes (e := e₁) hw outermost he₁ hnodes hp).mono ?_
    intro answer e' hyields
    obtain ⟨nodes, complete⟩ := answer
    -- a replacement may stay if it is resolved, and else it counts as anticipated
    have hstays : ∀ e'' : Engine, e''.Sound R → e'.Follows e'' →
        (R.Clean e'' → areResolved nodes = true) →
        e.Yields R [.modifier { m with expansion := some nodes }] e'' := by
      intro e'' hs hf hresolved
      have hexpands : R.Expands e'' nodes := ⟨hyields.shows, hresolved⟩
      refine ⟨hs, hf₁.trans (hyields.follows.trans hf), fun n hn => ?_, fun _ _ n hn => ?_⟩
      · rw [List.mem_singleton.mp hn]
        exact Node.Kept.expanded rfl hexpands
      · rw [List.mem_singleton.mp hn]
        exact .expanded rfl hexpands
    refine ⟨fun _ => hstays _ ⟨?_, hyields.sound.tight⟩ ?_ ?_, fun hresolved => ?_⟩
    · exact hyields.sound.stores.mono (Engine.stock_le (Nat.le_refl _) (Nat.le_succ _))
    · exact ⟨.refl _, rfl, rfl, Nat.le_refl _, Nat.le_succ _⟩
    · exact fun hclean => absurd hclean.2.2 (Nat.succ_ne_zero _)
    · refine hstays e' hyields.sound (.refl e') fun hclean => ?_
      by_cases hzero : e.delayDepth = 0
      · exact hyields.areResolved ⟨hzero, he₁.tight (R.delaying_of_strict hclean.1) hzero⟩ hclean
      · simpa [Engine.immediate, hzero] using hresolved

end Modifiers

/-! ### Around the content -/

namespace Engine

def inBody (e : Engine) (delayed : Bool) : Engine :=
  { e with delayDepth := e.delayDepth + delayed.toNat }

theorem inBody_leave {e e' : Engine} {delayed : Bool} (h : (e.inBody delayed).Follows e') :
    inBody { e' with delayDepth := e'.delayDepth - delayed.toNat } delayed = e' := by
  have hdepth : e'.delayDepth - delayed.toNat + delayed.toNat = e'.delayDepth := by
    have hsame : e'.delayDepth = e.delayDepth + delayed.toNat := h.delayDepth
    omega
  simp only [inBody, hdepth]

theorem Yields.leave {R : Regime} {e e' : Engine} {delayed : Bool} {nodes : List Node}
    (h : (e.inBody delayed).Yields R nodes e') :
    (e.inBody delayed).Yields R nodes
      (inBody { e' with delayDepth := e'.delayDepth - delayed.toNat } delayed) := by
  rw [inBody_leave h.follows]
  exact h

/-- At `e` the first point of a modifier opened its content, which goes on from `e'`. -/
structure Opens (R : Regime) (d : Definition) (e : Engine)
    (state : d.behaviour.lifecycle.State) (e' : Engine) : Prop where
  sound : (e'.inBody d.delaysContent).Sound R
  delayDepth : e'.delayDepth = e.delayDepth
  referring : e'.referring = e.referring
  refusals : e'.refusals = e.refusals
  anticipations : e'.anticipations = e.anticipations
  closes : d.behaviour.lifecycle.Closes d.behaviour.Rests (R.stock e) e.context state e'.context

end Engine

section Content

variable {R : Regime} {walk : Walk} {e : Engine} {m : Modifier}

theorem ensures_beforeContent (immediate : Bool) (he : e.Sound R) (hm : (R.stock e).Sits m) :
    Ensures noFault
      (Expand.reporting (m.definition.behaviour.lifecycle.beforeContent m immediate)) e
      fun state e' => e.Opens R m.definition state e' := by
  simp only [ensures_reporting]
  have hcloses := keepsContent m.definition.behaviour (R.stock e) e.context m immediate he.stores hm
  -- the body of a definition is read for later, and nothing else starts a definition
  have htight : Ensures anyFault (m.definition.behaviour.lifecycle.beforeContent m immediate)
      e.context fun _ inside => R.delaying →
        e.delayDepth + m.definition.delaysContent.toNat = 0 → inside.NothingDelayed := by
    by_cases hdefine : ∃ kind, m.definition.behaviour = .define kind
    · obtain ⟨kind, hdefine⟩ := hdefine
      refine ensures_of_forall fun _ inside hdelaying hzero => ?_
      rw [R.delays hdelaying _ kind hm.fits.1 hdefine] at hzero
      exact absurd hzero (Nat.succ_ne_zero _)
    · by_cases hnone : e.context.NothingDelayed
      · have hopens := opensNothing (fun kind h => hdefine ⟨kind, h⟩)
          (R.stock e) e.context m immediate he.stores hnone
        exact hopens.mono fun _ inside h _ _ => h
      · refine ensures_of_forall fun _ inside hdelaying hzero => ?_
        exact absurd (he.tight hdelaying (Nat.eq_zero_of_add_eq_zero_right hzero)) hnone
  refine (hcloses.and htight).mono ?_
  intro answer inside hanswer
  obtain ⟨state, messages⟩ := answer
  obtain ⟨hcloses, htight⟩ := hanswer
  exact ⟨⟨hcloses.1, htight⟩, rfl, rfl, rfl, rfl, hcloses⟩

theorem ensures_afterContent {d : Definition} {state : d.behaviour.lifecycle.State}
    {opened later : Engine} (he : e.Sound R) (ho : e.Opens R d state opened)
    (hs : (later.inBody d.delaysContent).Sound R)
    (hf : (opened.inBody d.delaysContent).Follows (later.inBody d.delaysContent)) :
    Ensures noFault (Expand.inContext (d.behaviour.lifecycle.afterContent state)) later
      fun state outside => outside.Sound R ∧ e.Follows outside ∧
        (R.stock later).Le (R.stock outside) ∧ d.behaviour.Rests state := by
  have hrefusals : e.refusals ≤ later.refusals := ho.refusals ▸ hf.refusals
  have hanticipations : e.anticipations ≤ later.anticipations := ho.anticipations ▸ hf.anticipations
  have hdepth : later.delayDepth = e.delayDepth := by
    have h := hf.delayDepth
    simp only [Engine.inBody, ho.delayDepth] at h
    omega
  rw [ensures_inContext]
  refine (ho.closes.2 _ (Engine.stock_le hrefusals hanticipations) _ hs.stores hf.agrees).mono ?_
  intro state outside hanswer
  obtain ⟨hstores, hagrees, hrests⟩ := hanswer
  refine ⟨⟨hstores, fun hdelaying hzero => ?_⟩, ?_, ?_, hrests⟩
  · exact (he.tight hdelaying (hdepth ▸ hzero)).of_agrees hagrees
  · exact ⟨hagrees, hdepth, hf.referring.trans ho.referring, hrefusals, hanticipations⟩
  · exact Engine.stock_le (Nat.le_refl _) (Nat.le_refl _)

theorem yields_waiting (he : e.Sound R) (hm : (R.stock e).Sits m) (hwaits : m.expansion = none)
    (hdelayed : e.immediate = false) : e.Yields R [.modifier m] e := by
  refine ⟨he, .refl e, fun n hn => ?_, fun hfinal => ?_⟩
  · rw [List.mem_singleton.mp hn]
    exact (Stock.sits_iff hwaits).mp hm
  · rw [hfinal.immediate] at hdelayed
    cases hdelayed

theorem ensures_expandRead (hw : Walk.Lawful R walk)
    {state : m.definition.behaviour.lifecycle.State} (he : e.Sound R)
    (hm : (R.stock e).Sits m) (hwaits : m.expansion = none)
    (hstate : m.definition.behaviour.Rests state)
    (hvalues : e.IsFinal → ∀ a ∈ m.arguments, a.value.isSome = true) :
    Ensures noFault (expandRead walk m state) e fun r e' => e.Yields R [.modifier r.1] e' := by
  rw [ensures_expandRead_iff]
  refine ⟨fun hdelayed => ?_, fun _ => ensures_finishModifier hw true he hm hwaits hstate hvalues⟩
  simp only [Bool.and_eq_true, Bool.not_eq_true'] at hdelayed
  exact yields_waiting he hm hwaits hdelayed.1

theorem ensures_walkContent (hw : Walk.Lawful R walk)
    (he : (e.inBody m.definition.delaysContent).Sound R)
    (hm : ∀ n ∈ m.content, (R.stock e).Keeps n) :
    Ensures noFault (walkContent walk m) e fun content e' =>
      (e.inBody m.definition.delaysContent).Yields R content
        (e'.inBody m.definition.delaysContent) := by
  rw [ensures_walkContent_iff]
  refine ⟨fun _ => .nil he, fun _ => (hw _ m.content he hm).mono ?_⟩
  intro answer later hyields
  obtain ⟨content, complete⟩ := answer
  have hclosed : ∀ losses, (e.inBody m.definition.delaysContent).Yields R content
      (Engine.inBody { later with
        delayDepth := later.delayDepth - m.definition.delaysContent.toNat
        losses := losses } m.definition.delaysContent) := by
    intro losses
    have hsame : (e.inBody m.definition.delaysContent).Yields R content
        { later with losses := losses } :=
      hyields.later ⟨hyields.sound.stores, hyields.sound.tight⟩
        ⟨.refl _, rfl, rfl, Nat.le_refl _, Nat.le_refl _⟩
    exact hsame.leave
  exact ⟨fun _ => hclosed _, fun _ => hclosed _⟩

theorem ensures_expandGenerated (hw : Walk.Lawful R walk) (he : e.Sound R)
    (hm : (R.stock e).Keeps (.modifier m)) :
    Ensures noFault (expandGenerated walk m) e fun r e' => e.Yields R [.modifier r.1] e' := by
  rw [ensures_expandGenerated_iff]
  refine ⟨fun hsome => ?_, fun hnone => ?_⟩
  · refine ⟨he, .refl e, fun n hn => ?_, fun _ _ n hn => ?_⟩
    · rw [List.mem_singleton.mp hn]
      exact hm
    · rw [List.mem_singleton.mp hn]
      cases hm with
      | leaf hleaf => cases hleaf
      | waiting hwaits =>
        rw [hwaits] at hsome
        cases hsome
      | expanded hexpanded hnodes => exact .expanded hexpanded hnodes
  · have hwaits : m.expansion = none := by simpa using hnone
    have hsits : (R.stock e).Sits m := (Stock.sits_iff hwaits).mpr hm
    obtain ⟨s, hs, -⟩ := he.stores.macros
    refine (ensures_expandArguments m.arguments e (allows_of_macros hs)).mono ?_
    intro arguments e₁ hanswer
    obtain ⟨⟨hreports, -⟩, -, hvalues⟩ := hanswer
    have he₁ : e₁.Sound R := hreports.sound he
    have hsits₁ : (R.stock e₁).Sits { m with arguments := arguments } :=
      ⟨hreports.follows.le.fits _ hsits.fits, hsits.placed,
        fun n hn => hreports.follows.le.keeps n (hsits.content n hn)⟩
    have hlater : ∀ {m' : Modifier} {e' : Engine}, e₁.Yields R [.modifier m'] e' →
        e.Yields R [.modifier m'] e' := fun h => .after hreports.follows h
    refine ⟨fun hdelayed => hlater ?_, fun _ => ?_⟩
    · simp only [Bool.and_eq_true, Bool.not_eq_true'] at hdelayed
      exact yields_waiting he₁ hsits₁ hwaits hdelayed.1
    · refine (ensures_beforeContent _ he₁ hsits₁).mono ?_
      intro state opened ho
      have hle := Engine.stock_le (R := R) (Nat.le_of_eq ho.refusals.symm)
        (Nat.le_of_eq ho.anticipations.symm)
      refine (ensures_walkContent hw ho.sound fun n hn => hle.keeps n (hsits₁.content n hn)).mono ?_
      intro content closed hyields
      refine (ensures_afterContent he₁ ho hyields.sound hyields.follows).mono ?_
      intro state outside hanswer
      obtain ⟨houtside, hfollows, hkeeps, hrests⟩ := hanswer
      have hout : (R.stock outside).Sits { m with arguments := arguments, content := content } :=
        ⟨hfollows.le.fits _ hsits₁.fits, hsits.placed,
          fun n hn => hkeeps.keeps n (hyields.keeps n hn)⟩
      refine Ensures.mono ?_ fun r e' h => hlater (Engine.Yields.after hfollows h)
      refine ensures_finishModifier hw false houtside hout hwaits hrests fun hfinal => ?_
      exact hvalues (hreports.follows.isFinal_back he (hfollows.isFinal_back he₁ hfinal))

end Content

/-! ### Walks -/

section Walks

variable {R : Regime} {walk : Walk} {e : Engine}

theorem ensures_processNode (hw : Walk.Lawful R walk) (he : e.Sound R) {node : Node}
    (hn : (R.stock e).Keeps node) :
    Ensures noFault (processNode walk node) e fun r e' => e.Yields R [r.1] e' := by
  cases node with
  | paragraph span content =>
    rw [ensures_processNode_paragraph]
    refine (hw e content he (((R.stock e).paragraph span content).mp hn)).mono ?_
    exact fun _ _ hyields => hyields.paragraph span
  | modifier m => exact ensures_processNode_modifier.mpr (ensures_expandGenerated hw he hn)
  | text span content => exact .leaf he rfl
  | escaped span content => exact .leaf he rfl
  | preformatted span contentSpan text => exact .leaf he rfl

theorem lawful_processEach (hw : Walk.Lawful R walk) : Walk.Lawful R (processEach walk) := by
  intro e nodes
  induction nodes generalizing e with
  | nil => exact fun he _ => .nil he
  | cons node rest ih =>
    intro he hnodes
    rw [ensures_processEach_cons]
    refine (ensures_processNode hw he (hnodes node List.mem_cons_self)).mono ?_
    intro r e' hnode
    have hrest : ∀ n ∈ rest, (R.stock e').Keeps n :=
      fun n hn => hnode.follows.le.keeps n (hnodes n (List.mem_cons_of_mem _ hn))
    exact (ih e' hnode.sound hrest).mono fun _ _ hyields => hnode.append hyields

/-- **Every walk closes what it opens, and leaves nothing waiting if its visits are final
and nothing is refused**, however deep it may go. -/
theorem lawful_process (levels : Nat) : Walk.Lawful R (process levels) := by
  induction levels with
  | zero =>
    intro e nodes he hnodes
    have hle : (R.stock e).Le (R.stock { e with refusals := e.refusals + 1 }) :=
      Engine.stock_le (Nat.le_succ _) (Nat.le_refl _)
    simp only [process, Expand.refuse, ensures_bind, ensures_modify, ensures_pure]
    refine ⟨⟨he.stores.mono hle, he.tight⟩, ⟨.refl _, rfl, rfl, Nat.le_succ _, Nat.le_refl _⟩,
      fun n hn => hle.keeps n (hnodes n hn), fun _ hsame => ?_⟩
    exact absurd hsame (Nat.succ_ne_self _)
  | succ levels ih => exact lawful_processEach ih

end Walks

end MacroMarkup
