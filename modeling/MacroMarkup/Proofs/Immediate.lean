import MacroMarkup.Proofs.Lives
import MacroMarkup.Proofs.Placement
import MacroMarkup.Proofs.Speculation
import MacroMarkup.Proofs.Valued

/-!
# What immediate visits see

A definition is laid on its stack right before its body is entered, and the depth counts that
body.  So wherever the depth is zero no definition is being read, every name is bound or not, and
the arguments of a modifier have values before any point of its life looks at them.

* `Regime.timely`: definitions read their bodies for later, and nothing is asked of expansions.
* `Context.ComesTo`: the places that parses come to.
* `Context.DelaysAtMost`: of the definitions being read there is at most one with given arguments.
* `Modifier.Registers`: a definition is made of the values of its arguments.
* `Speaks.tells`: **no message is about an argument without a value.**
* `immediate_visits_see_values`: **immediate visits see values**, in every parse from a balanced
  context.
-/

namespace MacroMarkup

/-! ### A regime -/

/-- Definitions are ordinary and read their bodies for later; expansions may be anything. -/
def Regime.timely : Regime where
  strict := False
  delaying := True
  delaying_of_strict := False.elim
  Admits d := d.Ordinary True
  custom := .custom
  unknown := .unknown
  delays _ _ kind hd := hd.delays kind

theorem Stock.ordinary_le_timely (e : Engine) :
    (Stock.ordinary True).Le (Regime.timely.stock e) where
  fits _ hd := ⟨hd.1, fun n hn => (hd.2 n hn).mono fun _ _ => ⟨False.elim, fun h => h.1.elim⟩⟩
  keeps _ hn := Node.Kept.mono hn fun _ _ => ⟨False.elim, fun h => h.1.elim⟩

theorem Context.timely_start {cx : Context} {s : MacroState} (hcx : cx.Stores (.ordinary True))
    (hs : cx.macros = .ok s) (hbalanced : s.isBalanced = true) :
    (Engine.start cx).Sound .timely := by
  refine ⟨hcx.mono (Stock.ordinary_le_timely _), fun _ _ => ⟨s, hs, fun kind => ?_⟩⟩
  simp only [MacroState.isBalanced, Bool.and_eq_true, List.isEmpty_iff] at hbalanced
  cases kind with
  | block => exact hbalanced.1.1.1.2
  | inline => exact hbalanced.1.1.2

/-- A parse that starts timely leaves a balanced context in which modifiers are ordinary, so the
next one starts timely. -/
theorem parse_stays_timely {cx : Context} {s : MacroState} (hcx : cx.Stores (.ordinary True))
    (hs : cx.macros = .ok s) (hbalanced : s.isBalanced = true) (source : String) :
    ∃ d s', cx.parse source = .ok d ∧ d.context.Stores (.ordinary True) ∧
      d.context.macros = .ok s' ∧ s'.isBalanced = true := by
  obtain ⟨d, hd, hstores⟩ := stores_ordinary_parse hcx source
  obtain ⟨read, e, hread, hyields, hcontext, -⟩ :=
    ensures_read (Context.timely_start hcx hs hbalanced) source []
  obtain rfl : d = read := Except.ok.inj (hd.symm.trans hread)
  obtain ⟨s', hs', hopen⟩ := hyields.follows.agrees s hs
  have hblockDelayed : s'.blockDelayed = s.blockDelayed := hopen.delayed .block
  have hinlineDelayed : s'.inlineDelayed = s.inlineDelayed := hopen.delayed .inline
  have hblockFrames : s'.blockFrames = s.blockFrames := hopen.frames .block
  have hinlineFrames : s'.inlineFrames = s.inlineFrames := hopen.frames .inline
  have hsame : s'.isBalanced = s.isBalanced := by
    simp only [MacroState.isBalanced, hblockDelayed, hinlineDelayed, hblockFrames, hinlineFrames,
      hopen.insideModule]
  rw [← hcontext] at hs'
  exact ⟨d, s', hd, hstores, hs', hsame.trans hbalanced⟩

/-! ### Places -/

/-- The places that parses which start in the context come to: where they read, where they walk
and meet nodes, the points of lives, and behind remarks.  A definition being read passes its second
point while it still lies on its stack. -/
inductive Context.ComesTo (cx : Context) : Engine → Prop
  | reads {r : Reader} : cx.Reads r → cx.ComesTo r.engine
  | walks {v : Visit} : cx.Walks v → cx.ComesTo v.engine
  | meets {v : Visit} {levels : Nat} {node : Node} {e : Engine} :
      cx.Walks v → v.Meets levels node e → cx.ComesTo e
  | passes {point : Lifecycle.Point} {m : Modifier} {e : Engine} : cx.Passes point m e →
      (point = .afterContent → ∀ kind, m.definition.behaviour ≠ .define kind) → cx.ComesTo e
  | remarks {e e' : Engine} : cx.ComesTo e → e.Reports e' → cx.ComesTo e'

section Places

variable {R : Regime} {cx : Context} {e : Engine}

/-- Wherever the depth is zero no definition is being read. -/
theorem Context.ComesTo.nothingDelayed (h : cx.ComesTo e) (hcx : (Engine.start cx).Sound R)
    (hdelaying : R.delaying) (hzero : e.delayDepth = 0) : e.context.NothingDelayed := by
  induction h with
  | reads hreads => exact (hreads.sound hcx).tight hdelaying hzero
  | walks hwalks => exact (hwalks.sound hcx).sound.tight hdelaying hzero
  | meets hwalks hmet => exact (hmet.sound (hwalks.sound hcx)).1.tight hdelaying hzero
  | passes hpasses hother => exact (hpasses.settled hcx hdelaying hzero).2 hother
  | remarks _ hreports ih =>
    obtain ⟨⟨emitted, rfl⟩, -⟩ := hreports
    exact ih hzero

theorem Context.NothingDelayed.resolve_ne_deferred (h : cx.NothingDelayed) {name : String}
    {resolution : Resolution} {after : Context}
    (hrun : Step.resolve name cx = .ok (resolution, after)) : resolution ≠ .deferred := by
  have hresolves : Ensures anyFault (Step.resolve name) cx fun r _ => r ≠ .deferred :=
    ensures_resolution (fun _ _ => trivial) fun s hs => resolution_ne_deferred h hs name
  exact hresolves.of_ok hrun

end Places

/-! ### The second point of a definition -/

/-- One definition is being read, and `frame` lies on the stack of its kind. -/
def Context.OnlyDelays (cx : Context) (kind : MacroKind) (frame : DelayedFrame) : Prop :=
  ∃ s, cx.macros = .ok s ∧ s.delayed kind = [frame] ∧ ∀ other, other ≠ kind → s.delayed other = []

theorem Context.OnlyDelays.of_agrees {cx cx' : Context} {kind : MacroKind} {frame : DelayedFrame}
    (h : cx.OnlyDelays kind frame) (hagrees : cx.Agrees cx') : cx'.OnlyDelays kind frame := by
  obtain ⟨s, hs, hframe, hnone⟩ := h
  obtain ⟨s', hs', hopen⟩ := hagrees s hs
  exact ⟨s', hs', (hopen.delayed kind).trans hframe,
    fun other hother => (hopen.delayed other).trans (hnone other hother)⟩

/-- Of the definitions being read there is at most the one with these arguments. -/
def Context.DelaysAtMost (cx : Context) (kind : MacroKind) (arguments : List Argument) : Prop :=
  cx.NothingDelayed ∨ ∃ name others, arguments = name :: others ∧
    cx.OnlyDelays kind ⟨(Signature.ofArguments name others).slotName,
      (Signature.ofArguments name others).parameters⟩

section Closing

variable {R : Regime} {cx : Context} {m : Modifier} {kind : MacroKind} {e : Engine}

theorem delaysAtMost_define {immediate : Bool} (hnone : cx.NothingDelayed) :
    Ensures anyFault ((defineLifecycle kind).beforeContent m immediate) cx fun _ opened =>
      opened.DelaysAtMost kind m.arguments := by
  obtain ⟨s, hs, hempty⟩ := hnone
  simp only [defineLifecycle]
  split
  · exact .inl ⟨s, hs, hempty⟩
  split
  · rename_i name others harguments
    rw [ensures_bind, ensures_modifyMacros hs]
    refine .inr ⟨name, others, harguments, _, rfl, ?_, fun other hother => ?_⟩
    · rw [MacroState.delayed_setDelayed, hempty kind]
    · rw [MacroState.delayed_setDelayed_of_ne hother, hempty other]
  · exact .inl ⟨s, hs, hempty⟩

theorem delaysAtMost_of_define {b : Behaviour} (hb : b = .define kind) {immediate : Bool}
    (hnone : cx.NothingDelayed) :
    Ensures anyFault (b.lifecycle.beforeContent m immediate) cx fun _ opened =>
      opened.DelaysAtMost kind m.arguments := by
  subst hb
  exact delaysAtMost_define hnone

/-- At the second point of a definition at depth zero its own frame lies on the stack, and no
other. -/
theorem Context.Closes.delaysAtMost {state : m.definition.behaviour.lifecycle.State}
    (h : cx.Closes m state e) (hcx : (Engine.start cx).Sound R) (hdelaying : R.delaying)
    (hkind : m.definition.behaviour = .define kind) (hzero : e.delayDepth = 0) :
    e.context.DelaysAtMost kind m.arguments := by
  obtain ⟨begun, opened, hover⟩ := h.lasts hcx
  obtain ⟨span, content, hrun⟩ := hover.begins
  have hnone : begun.context.NothingDelayed :=
    hover.sound.tight hdelaying (hover.delayDepth.symm.trans hzero)
  have hdelays : Ensures anyFault
      (Expand.reporting (m.definition.behaviour.lifecycle.beforeContent
        { m with span := span, content := content } begun.immediate)) begun
      fun _ opened => opened.context.DelaysAtMost kind m.arguments :=
    ensures_reporting.mpr (delaysAtMost_of_define hkind hnone)
  -- the content leaves open what the first point opened
  have hagrees : opened.context.Agrees e.context := hover.yields.follows.agrees
  rcases hdelays.of_ok hrun with hnothing | ⟨name, others, harguments, honly⟩
  · exact .inl (hnothing.of_agrees hagrees)
  · exact .inr ⟨name, others, harguments, honly.of_agrees hagrees⟩

end Closing

/-! ### What is registered -/

/-- A definition was registered under the value of the first argument, and its parameters are
values of the others, in their order. -/
def Modifier.Registers (m : Modifier) (kind : MacroKind) (cx cx' : Context) : Prop :=
  ∃ name others given parameters slotName body,
    m.arguments = name :: others ∧ name.value = some given ∧
    parameters.map some <+: others.map (·.value) ∧
    cx' = { cx with configuration :=
      cx.configuration.set (.custom kind given parameters slotName body) }.configurationChanged

theorem Signature.parameters_ofArguments {name : Argument} {others : List Argument}
    (hvalues : ∀ a ∈ others, a.value.isSome = true) :
    (ofArguments name others).parameters.map some <+: others.map (·.value) := by
  have hmap : ∀ {l : List Argument}, l ⊆ others →
      (l.map (·.text)).map some = l.map (·.value) := by
    intro l hl
    rw [List.map_map]
    refine List.map_congr_left fun a ha => ?_
    obtain ⟨text, htext⟩ := Option.isSome_iff_exists.mp (hvalues a (hl ha))
    simp [Argument.text, htext]
  simp only [ofArguments]
  split
  · exact ⟨[], by rw [List.append_nil, hmap (List.Subset.refl _)]⟩
  · rw [hmap (List.dropLast_sublist _).subset]
    exact (List.dropLast_prefix _).map _

section Making

variable {kind : MacroKind} {cx : Context} {m : Modifier} {state : Option Signature}
  {immediate : Bool}

theorem ensures_prepare_define_keeps :
    Ensures anyFault ((defineLifecycle kind).prepare m state immediate) cx fun r between =>
      between = cx ∧ ∀ made, r.1 = some made → ∃ signature, state = some signature ∧
        made.name = signature.name ∧ made.parameters = signature.parameters := by
  have hsame : ∀ made, state = some made → ∃ signature, state = some signature ∧
      made.name = signature.name ∧ made.parameters = signature.parameters :=
    fun made hmade => ⟨made, hmade, rfl, rfl⟩
  simp only [defineLifecycle]
  split
  · exact ⟨rfl, hsame⟩
  cases state with
  | none => exact ⟨rfl, fun _ h => by cases h⟩
  | some signature =>
    have hdone : ∀ (body : Option (List Node)) (made : Signature),
        some { signature with pending := [], body := body } = some made →
        ∃ signature', some signature = some signature' ∧ made.name = signature'.name ∧
          made.parameters = signature'.parameters := by
      intro body made hmade
      cases hmade
      exact ⟨signature, rfl, rfl, rfl⟩
    simp only
    split
    · exact ⟨rfl, hdone _⟩
    · rw [ensures_bind, ensures_get]
      cases kind with
      | block => exact ⟨rfl, hdone _⟩
      | inline => exact ⟨rfl, hdone _⟩

/-- **A definition that is made has its name and its parameters from values.** -/
theorem registers_define (hquotes : Signature.Quotes m.arguments state)
    (hvalues : immediate = true → ∀ a ∈ m.arguments, a.value.isSome = true) :
    Ensures anyFault ((defineLifecycle kind).prepare m state immediate) cx fun r between =>
      Ensures anyFault ((defineLifecycle kind).expand m r.1 immediate) between fun _ decided =>
        decided = cx ∨ m.Registers kind cx decided := by
  refine ensures_prepare_define_keeps.mono ?_
  rintro ⟨prepared, messages⟩ between ⟨rfl, hkeeps⟩
  cases immediate with
  | false => exact .inl rfl
  | true =>
    cases prepared with
    | none => exact .inl rfl
    | some made =>
      obtain ⟨signature, hsignature, hname, hparameters⟩ := hkeeps made rfl
      obtain ⟨name, others, harguments, rfl⟩ := hquotes signature hsignature
      simp only [defineLifecycle, Bool.not_true, Bool.false_eq_true, if_false, ensures_ite]
      refine ⟨fun _ => .inr ?_, fun _ => .inl rfl⟩
      have hall := hvalues rfl
      rw [harguments] at hall
      obtain ⟨hfirst, hothers⟩ := List.forall_mem_cons.mp hall
      obtain ⟨given, hgiven⟩ := Option.isSome_iff_exists.mp hfirst
      have hmade : made.name.getD "" = given := by
        rw [hname]
        exact congrArg (Option.getD · "") hgiven
      rw [hmade]
      refine ⟨name, others, given, made.parameters, made.slotName, _, harguments, hgiven, ?_, rfl⟩
      rw [hparameters]
      exact Signature.parameters_ofArguments hothers

theorem registers_of_define {b : Behaviour} (hb : b = .define kind) {state : b.lifecycle.State}
    (hquotes : b.Quotes m.arguments state)
    (hvalues : immediate = true → ∀ a ∈ m.arguments, a.value.isSome = true) :
    Ensures anyFault (b.lifecycle.prepare m state immediate) cx fun r between =>
      Ensures anyFault (b.lifecycle.expand m r.1 immediate) between fun _ decided =>
        decided = cx ∨ m.Registers kind cx decided := by
  subst hb
  exact registers_define hquotes hvalues

end Making

/-! ### What is reported -/

section Messages

variable {R : Regime} {cx : Context} {m : Modifier} {e e' : Engine}

theorem Modifier.LastsOver.quotes {begun opened : Engine}
    {state : m.definition.behaviour.lifecycle.State}
    (h : m.LastsOver R state begun opened e) : m.definition.behaviour.Quotes m.arguments state := by
  obtain ⟨span, content, hrun⟩ := h.begins
  exact (quotes_beforeContent (m := { m with span := span, content := content })).of_ok hrun

theorem Context.Finishes.quotes {state : m.definition.behaviour.lifecycle.State}
    (h : cx.Finishes m state e) (hcx : (Engine.start cx).Sound R) :
    m.definition.behaviour.Quotes m.arguments state := by
  obtain ⟨earlier, closed, hcloses, hrun, -⟩ := h
  obtain ⟨begun, opened, hover⟩ := hcloses.lasts hcx
  exact (quotes_afterContent hover.quotes).of_ok hrun

theorem Modifier.Lasts.values_of_immediate (h : m.Lasts R e) (hdelaying : R.delaying)
    (himmediate : e.immediate = true) : ∀ a ∈ m.arguments, a.value.isSome = true :=
  (h.isFinal hdelaying (by simpa [Engine.immediate] using himmediate)).2

/-- Before its content a modifier is not reported for want of a value. -/
theorem Context.Begins.tells {state : m.definition.behaviour.lifecycle.State}
    (h : cx.Begins m e) (hcx : (Engine.start cx).Sound .timely)
    (hrun : Expand.reporting (m.definition.behaviour.lifecycle.beforeContent m e.immediate) e
      = .ok (state, e')) : e.Tells (· ≠ .unresolvedArgument) e' := by
  have hlasts := h.lasts hcx
  obtain ⟨s, hs, -⟩ := hlasts.sound.stores.macros
  have htells : Ensures anyFault
      (Expand.reporting (m.definition.behaviour.lifecycle.beforeContent m e.immediate)) e
      fun _ e' => e.Tells (· ≠ .unresolvedArgument) e' := by
    rw [ensures_reporting]
    refine (noneUnresolved_beforeContent hs (hlasts.values_of_immediate trivial)).mono ?_
    exact fun r context hr => Engine.tells_emit hr
  exact htells.of_ok hrun

/-- Nor is it when it is decided what it stands for. -/
theorem Context.Finishes.tells {state prepared : m.definition.behaviour.lifecycle.State}
    (h : cx.Finishes m state e) (hcx : (Engine.start cx).Sound .timely)
    (hrun : Expand.reporting (m.definition.behaviour.lifecycle.prepare m state e.immediate) e
      = .ok (prepared, e')) : e.Tells (· ≠ .unresolvedArgument) e' := by
  have hlasts := (h.lasts hcx).1
  have hquotes := h.quotes hcx
  obtain ⟨s, hs, -⟩ := hlasts.sound.stores.macros
  obtain ⟨earlier, closed, -, -, halone⟩ := h
  have hahead : e.immediate = false → m.definition.behaviour.GoesAhead True := by
    intro hlater
    rw [hlater] at halone
    exact hlasts.sits.fits.1.ahead (by simpa using halone)
  have htells : Ensures anyFault
      (Expand.reporting (m.definition.behaviour.lifecycle.prepare m state e.immediate)) e
      fun _ e' => e.Tells (· ≠ .unresolvedArgument) e' := by
    rw [ensures_reporting]
    refine (noneUnresolved_prepare hs hlasts.sits.placed hquotes hahead
      (hlasts.values_of_immediate trivial)).mono ?_
    exact fun r context hr => Engine.tells_emit hr
  exact htells.of_ok hrun

/-- A definition that is made takes its name and its parameters from values. -/
theorem Context.Finishes.registers {kind : MacroKind} {between : Engine}
    {state prepared : m.definition.behaviour.lifecycle.State}
    {decided : Outcome × m.definition.behaviour.lifecycle.State}
    (h : cx.Finishes m state e) (hcx : (Engine.start cx).Sound .timely)
    (hkind : m.definition.behaviour = .define kind)
    (hprepare : Expand.reporting (m.definition.behaviour.lifecycle.prepare m state e.immediate) e
      = .ok (prepared, between))
    (hexpand : Expand.inContext (m.definition.behaviour.lifecycle.expand m prepared e.immediate)
      between = .ok (decided, e')) :
    e'.context = e.context ∨ m.Registers kind e.context e'.context := by
  have hmakes : Ensures anyFault
      (Expand.reporting (m.definition.behaviour.lifecycle.prepare m state e.immediate)) e
      fun prepared between => Ensures anyFault
        (Expand.inContext (m.definition.behaviour.lifecycle.expand m prepared e.immediate)) between
        fun _ e' => e'.context = e.context ∨ m.Registers kind e.context e'.context := by
    rw [ensures_reporting]
    refine (registers_of_define hkind (h.quotes hcx)
      ((h.lasts hcx).1.values_of_immediate trivial)).mono fun r context hr => ?_
    rw [ensures_inContext]
    exact hr
  exact (hmakes.of_ok hprepare).of_ok hexpand

theorem Engine.Reports.resolves (h : e.Reports e') : e.Tells (· ≠ .unresolvedArgument) e' := by
  refine h.tells.mono fun p hp => ?_
  rintro rfl
  rcases hp with hsyntactic | ⟨-, name, h⟩
  · cases hsyntactic
  · cases h

theorem tells_expandArguments {arguments values : List Argument}
    (hrun : expandArguments arguments e = .ok (values, e')) :
    e.Tells (· ≠ .unresolvedArgument) e' := by
  have hevaluates := @ensures_expandArguments anyFault arguments e fun _ _ => trivial
  obtain ⟨⟨hreports, -⟩, -⟩ := hevaluates.of_ok hrun
  exact hreports.resolves

/-- **Nothing that a parse says is about an argument without a value.** -/
theorem Context.Speaks.tells {source : String} {trail : List Processing}
    (h : cx.Speaks source trail e e') (hcx : (Engine.start cx).Sound .timely) :
    e.Tells (· ≠ .unresolvedArgument) e' := by
  cases h with
  | notes hreads hsyntactic =>
    refine Engine.tells_emit (noneUnresolved_one ?_)
    rintro rfl
    cases hsyntactic
  | evaluates hreads hrun => exact tells_expandArguments hrun
  | opens hreads hhead hopened => exact (Begins.read hreads.reads hhead).tells hcx hopened
  | prepares hreads hopens hcloses hrun =>
    obtain ⟨r'', hgets, hspan, hafter, halone⟩ := hcloses
    have hfinishes : cx.Finishes _ _ _ :=
      ⟨_, _, .read hreads.reads hopens hgets hspan, hafter, halone⟩
    exact hfinishes.tells hcx hrun
  | limits outside _ _ _ _ _ _ => exact Engine.tells_emit (noneUnresolved_one (by simp))
  | evaluatesIn _ _ _ hrun => exact tells_expandArguments hrun
  | opensIn hwalks hmet hwaits harguments halone hopened =>
    exact (Begins.generated hwalks.walks hmet hwaits harguments halone).tells hcx hopened
  | preparesIn hwalks hmet hopens hcontent hafter hrun =>
    exact (finishes_generated hwalks.walks hmet hopens hcontent hafter hcx).tells hcx hrun

theorem Engine.Adds.about {P : Problem → Prop} {message : Message} {earlier : List Message}
    (h : e.Adds message earlier e') (htells : e.Tells P e') : message.About P := by
  obtain ⟨later, older, hemitted, rfl⟩ := h
  obtain ⟨messages, habout, hmessages⟩ := htells
  have hsame : messages ++ e.emitted = (later ++ message :: older) ++ e.emitted := by
    rw [← hmessages, hemitted, List.append_assoc, List.cons_append]
  refine habout message ?_
  rw [List.append_cancel_right hsame]
  exact List.mem_append_right _ List.mem_cons_self

theorem Message.origin_along (message : Message) (trail : List Processing) :
    (message.along trail).origin = message.origin := by
  induction trail with
  | nil => rfl
  | cons x trail ih => exact (origin_referred _ _).trans ih

/-- A problem with the severity and the code of an argument without a value is that. -/
theorem Problem.eq_unresolvedArgument {p : Problem}
    (hseverity : p.severity = unresolvedArgument.severity)
    (hcode : p.code = unresolvedArgument.code) : p = .unresolvedArgument := by
  cases p <;> simp_all [severity, code]

/-- No link of a chain that a parse utters is about an argument without a value. -/
theorem Context.Utters.resolves {source : String} {P : Nat → Prop} {message : Message}
    {earlier : List Message} (h : cx.Utters source P message earlier)
    (hcx : (Engine.start cx).Sound .timely) :
    ∀ link ∈ message.links, ¬ (link.severity = Problem.unresolvedArgument.severity ∧
      link.code = Problem.unresolvedArgument.code) := by
  obtain ⟨trail, e, e', fresh, hspeaks, hadds, hfresh, -, rfl⟩ := h
  obtain ⟨q, place, hq, horigin⟩ := hadds.about (hspeaks.tells hcx)
  obtain ⟨p, span, rfl, -⟩ := hfresh
  -- the link that started the chain is the one that the message is about
  have hsame : p.message span = q.message place := (Message.origin_along _ trail).symm.trans horigin
  have hlinks : ∀ link ∈ ((p.message span).along trail).links,
      link.severity = q.severity ∧ link.code = q.code := by
    refine Message.forall_links_along (List.forall_mem_singleton.mpr ?_) fun _ _ _ h => h
    exact ⟨congrArg Message.severity hsame, congrArg Message.code hsame⟩
  rintro link hlink ⟨hseverity, hcode⟩
  obtain ⟨hseverity', hcode'⟩ := hlinks link hlink
  exact hq (Problem.eq_unresolvedArgument (hseverity'.symm.trans hseverity)
    (hcode'.symm.trans hcode))

end Messages

/-! ### Parses -/

/-- **Immediate visits see values.**  In every parse from a balanced context in which modifiers are
ordinary, no definition is being read wherever the depth is zero, and there no name is answered to
wait for one; where a definition itself closes, its own frame is all that is left to take off.  At
each point of the life of a modifier at which visits are immediate, all its arguments have values.
So a definition that is made takes its name and its parameters from values, and no message, nor
what it repeats, is about an argument that has none.  The context that is left behind is such a
context again. -/
theorem immediate_visits_see_values {cx : Context} {s : MacroState}
    (hcx : cx.Stores (.ordinary True)) (hs : cx.macros = .ok s) (hbalanced : s.isBalanced = true) :
    (∀ e, cx.ComesTo e → e.delayDepth = 0 → e.context.NothingDelayed ∧
      ∀ name resolution after, Step.resolve name e.context = .ok (resolution, after) →
        resolution ≠ .deferred) ∧
    (∀ (m : Modifier) (state : m.definition.behaviour.lifecycle.State) (kind : MacroKind)
      (e : Engine), cx.Closes m state e → m.definition.behaviour = .define kind →
      e.delayDepth = 0 → e.context.DelaysAtMost kind m.arguments) ∧
    (∀ point m e, cx.Passes point m e → e.immediate = true →
      ∀ a ∈ m.arguments, a.value.isSome = true) ∧
    (∀ (m : Modifier) (state prepared : m.definition.behaviour.lifecycle.State) (kind : MacroKind)
      (e between e' : Engine) (decided : Outcome × m.definition.behaviour.lifecycle.State),
      cx.Finishes m state e → m.definition.behaviour = .define kind →
      Expand.reporting (m.definition.behaviour.lifecycle.prepare m state e.immediate) e
        = .ok (prepared, between) →
      Expand.inContext (m.definition.behaviour.lifecycle.expand m prepared e.immediate) between
        = .ok (decided, e') →
      e'.context = e.context ∨ m.Registers kind e.context e'.context) ∧
    ∀ source, ∃ d s', cx.parse source = .ok d ∧
      (d.context.Stores (.ordinary True) ∧ d.context.macros = .ok s' ∧ s'.isBalanced = true) ∧
      ∀ message ∈ d.messages, ∀ link ∈ message.links,
        ¬ (link.severity = Problem.unresolvedArgument.severity ∧
          link.code = Problem.unresolvedArgument.code) := by
  have hstart : (Engine.start cx).Sound .timely := Context.timely_start hcx hs hbalanced
  refine ⟨fun e he hzero => ?_, fun m state kind e hcloses hkind hzero => ?_,
    fun point m e hpasses himmediate => ?_, ?_, fun source => ?_⟩
  · have hnone := he.nothingDelayed hstart trivial hzero
    exact ⟨hnone, fun _ _ _ => hnone.resolve_ne_deferred⟩
  · exact hcloses.delaysAtMost hstart trivial hkind hzero
  · have hzero : e.delayDepth = 0 := by simpa [Engine.immediate] using himmediate
    exact (hpasses.settled hstart trivial hzero).1
  · exact fun m state prepared kind e between e' decided hfinishes hkind hprepare hexpand =>
      hfinishes.registers hstart hkind hprepare hexpand
  · obtain ⟨d, s', hd, hleaves⟩ := parse_stays_timely hcx hs hbalanced source
    have hlocated : cx.Located fun _ => True := cx.located_of_forall fun _ => trivial
    obtain ⟨hutters, -⟩ := parse_utters (fun _ _ => trivial) hlocated hd
    refine ⟨d, s', hd, hleaves, fun message hmessage => ?_⟩
    obtain ⟨earlier, later, hsplit⟩ := List.append_of_mem hmessage
    exact (hutters earlier message later hsplit).resolves hstart

/-- The definition that the body of another one holds, whose name is a parameter of that one, waits
until the name is given; then it is made from values, and the variable that is not bound is warned
about where it is passed. -/
theorem immediate_visits_see_values_nested :
    let source := "[-define-block p:x]\n[-define-block $(x):y][/$ y]\n[.p:q;]\n[.q:$(z)a;]"
    ∃ cx d, Context.start Builtin.configuration .empty = .ok cx ∧ cx.parse source = .ok d ∧
      d.messages.map (fun m => (m.severity, m.code, m.links.map Message.range))
        = [(.warning, 5, [(61, 4)])] ∧
      (∀ e, cx.ComesTo e → e.delayDepth = 0 → e.context.NothingDelayed) ∧
      (∀ point m e, cx.Passes point m e → e.immediate = true →
        ∀ a ∈ m.arguments, a.value.isSome = true) ∧
      ∀ message ∈ d.messages, ∀ link ∈ message.links,
        ¬ (link.severity = Problem.unresolvedArgument.severity ∧
          link.code = Problem.unresolvedArgument.code) := by
  intro source
  obtain ⟨cx, hcx⟩ : ∃ cx, Context.start Builtin.configuration .empty = .ok cx := ⟨_, rfl⟩
  obtain ⟨hstores, hmacros⟩ := Builtin.ordinary_start hcx
  have hmessages : ((Context.start Builtin.configuration .empty).bind
      fun cx => cx.parse source).toOption.map
        (·.messages.map fun m => (m.severity, m.code, m.links.map Message.range))
          = some [(.warning, 5, [(61, 4)])] := by
    decide +kernel
  obtain ⟨hdepth, -, hvisits, -, hparse⟩ := immediate_visits_see_values hstores hmacros rfl
  obtain ⟨d, -, hd, -, hclean⟩ := hparse source
  rw [hcx, Except.bind, hd] at hmessages
  exact ⟨cx, d, hcx, hd, Option.some.inj hmessages, fun e he hzero => (hdepth e he hzero).1,
    hvisits, hclean⟩

end MacroMarkup
