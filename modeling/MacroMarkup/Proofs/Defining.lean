import MacroMarkup.Proofs.Ahead
import MacroMarkup.Proofs.Balance
import MacroMarkup.Proofs.Lookup

/-!
# What reading a definition changes

A definition is read with its body, in which anything may stand.  The body is read for later,
so nothing that stands in it has an effect, and behind it one name is bound.

* `Stock.ordinary`: the stock of contexts in which modifiers are ordinary.
  `Builtin.ordinary_start`: fresh ones over the modifiers that come with the language.
* `Context.DiffersAt`: two contexts differ at most in what one name is bound to.
* `ensures_expand_define`: what is bound when a definition is made.
* `definition_binds_name`: **reading a definition changes what its name is bound to, and nothing
  else.**
-/

namespace MacroMarkup

open Parse

/-- Modifiers that wait are ordinary and placed, also those in bodies of definitions. -/
def Stock.ordinary (plain : Prop) : Stock :=
  .kept (fun _ => True) (·.Ordinary plain) .custom .unknown

theorem Stock.ordinary_le (plain : Prop) (e : Engine) :
    (Stock.ordinary plain).Le ((Regime.ordinary plain).stock e) where
  fits _ hd := ⟨hd.1, fun n hn => (hd.2 n hn).mono fun _ _ => ⟨fun h => h.elim, fun h => h.1.elim⟩⟩
  keeps _ hn := Node.Kept.mono hn fun _ _ => ⟨fun h => h.elim, fun h => h.1.elim⟩

theorem Regime.ordinary_le (plain : Prop) (e : Engine) :
    ((Regime.ordinary plain).stock e).Le (Stock.ordinary plain) where
  fits _ hd := ⟨hd.1, fun n hn => (hd.2 n hn).mono fun _ _ => trivial⟩
  keeps _ hn := Node.Kept.mono hn fun _ _ => trivial

/-- The definition is ordinary even if plain modifiers are not tried ahead of time. -/
def Definition.isOrdinary (d : Definition) : Bool :=
  match d.behaviour with
  | .define _ => d.delaysContent
  | .slot _ => true
  | .reference => true
  | _ => !d.alwaysExpands

theorem Definition.ordinary_of_isOrdinary {plain : Prop} {d : Definition}
    (h : d.isOrdinary = true) : d.Ordinary plain := by
  obtain ⟨stamp, name, kind, slot, delaysContent, alwaysExpands, behaviour⟩ := d
  cases behaviour with
  | define kind => exact ⟨fun _ _ => h, fun _ => .define kind⟩
  | slot kind => exact ⟨nofun, fun _ => .slot kind⟩
  | reference => exact ⟨nofun, fun _ => .reference⟩
  | _ =>
    have hnever : alwaysExpands = false := by simpa [isOrdinary] using h
    exact ⟨nofun, fun halways => absurd (hnever.symm.trans halways) nofun⟩

theorem Builtin.ordinary {plain : Prop} {d : Definition} (hd : d ∈ Builtin.definitions) :
    d.Ordinary plain := by
  have hall : ∀ d ∈ definitions, d.isOrdinary = true := by decide
  exact Definition.ordinary_of_isOrdinary (hall d hd)

theorem Definition.Ordinary.restamped {plain : Prop} {d : Definition} (h : d.Ordinary plain)
    {stamp : Nat} : Definition.Ordinary plain { d with stamp := stamp } := ⟨h.delays, h.ahead⟩

theorem Builtin.ordinary_start {plain : Prop} {limit : Nat} {bindings : Dict String}
    {cx : Context}
    (h : Context.start { Builtin.configuration with depthLimit := limit } bindings = .ok cx) :
    cx.Stores (.ordinary plain) ∧ cx.macros = .ok .initial :=
  Builtin.stores_start
    (Builtin.all_configuration (Builtin.registered fun _ hd _ => (Builtin.ordinary hd).restamped))
    h

theorem stores_ordinary_parse {plain : Prop} {cx : Context} (hcx : cx.Stores (.ordinary plain))
    (source : String) :
    ∃ d, cx.parse source = .ok d ∧ d.context.Stores (.ordinary plain) := by
  have he : (Engine.start cx).Sound (.ordinary plain) :=
    ⟨hcx.mono (Stock.ordinary_le plain _), fun h => h.elim⟩
  obtain ⟨d, e, hd, hyields, hcontext, -⟩ := ensures_read he source []
  refine ⟨d, hd, ?_⟩
  rw [hcontext]
  exact hyields.sound.stores.mono (Regime.ordinary_le plain e)

/-- The contexts differ at most in what `name` is bound to among the modifiers of a kind, and
in how often the configuration was changed. -/
structure Context.DiffersAt (kind : ModifierKind) (name : String) (cx cx' : Context) : Prop where
  bindings : cx'.bindings = cx.bindings
  /-- Definitions being read, invocations being processed, kept notations and modules. -/
  store : cx'.store = cx.store
  interpolators : cx'.configuration.interpolators = cx.configuration.interpolators
  initializers : cx'.configuration.initializers = cx.configuration.initializers
  depthLimit : cx'.configuration.depthLimit = cx.configuration.depthLimit
  kinds : ∀ other, other ≠ kind →
    cx'.configuration.modifiers other = cx.configuration.modifiers other
  names : ∀ other, other ≠ name →
    (cx'.configuration.modifiers kind).get? other = (cx.configuration.modifiers kind).get? other

namespace Context

variable {kind : ModifierKind} {name : String} {cx cx' cx'' : Context}

theorem Same.differsAt (h : cx.Same cx') : cx.DiffersAt kind name cx' := by
  obtain ⟨_, rfl⟩ := h
  exact ⟨rfl, rfl, rfl, rfl, rfl, fun _ _ => rfl, fun _ _ => rfl⟩

theorem DiffersAt.trans (h : cx.DiffersAt kind name cx') (g : cx'.DiffersAt kind name cx'') :
    cx.DiffersAt kind name cx'' where
  bindings := g.bindings.trans h.bindings
  store := g.store.trans h.store
  interpolators := g.interpolators.trans h.interpolators
  initializers := g.initializers.trans h.initializers
  depthLimit := g.depthLimit.trans h.depthLimit
  kinds other hother := (g.kinds other hother).trans (h.kinds other hother)
  names other hother := (g.names other hother).trans (h.names other hother)

theorem differsAt_set (cx : Context) (d : Definition) :
    cx.DiffersAt d.kind d.name
      { cx with configuration := cx.configuration.set d }.configurationChanged := by
  obtain ⟨stamp, name, kind, slot, delaysContent, alwaysExpands, behaviour⟩ := d
  refine ⟨rfl, rfl, ?_, ?_, ?_, fun other hother => ?_, fun other hother => ?_⟩
  · cases kind <;> rfl
  · cases kind <;> rfl
  · cases kind <;> rfl
  · cases kind <;> cases other <;> first | rfl | exact absurd rfl hother
  · rw [configurationChanged, Configuration.get?_set, if_neg fun h => hother h.2.symm]

end Context

/-- The name that a definition gives, which is its first argument. -/
def Modifier.definedName (m : Modifier) : String :=
  match m.arguments with
  | name :: _ => name.text
  | [] => ""

/-- What is wrong with a definition itself: its arguments, its name, or the shape of its body. -/
def Problem.OfDefinition (p : Problem) : Prop :=
  p.Hasty ∨ (∃ name, p = .nameTaken name) ∨ p = .invalidInlineBody

/-- What is reported when a definition is read: what is wrong with how it and its body are
written, with an argument in its head, or with the definition itself. -/
def Problem.OnDefinition (deep : Prop) (p : Problem) : Prop :=
  p.Early deep ∨ (∃ name, p = .undefinedVariable name) ∨ p.OfDefinition

structure Signature.Fits (given : String) (signature : Signature) : Prop where
  name : signature.name.getD "" = given
  pending : ∀ message ∈ signature.pending, message.About Problem.OfDefinition

theorem Signature.fits_ofArguments {m : Modifier} {name : Argument} {others : List Argument}
    (h : m.arguments = name :: others) :
    (Signature.ofArguments name others).Fits m.definedName := by
  have hinvalid : ∀ span,
      ((Problem.invalidArgument none).message span).About Problem.OfDefinition :=
    fun span => Message.about_message (.inl (.inr rfl)) span
  have hslot : ∀ message ∈ (slotOf others).2, message.About Problem.OfDefinition := by
    intro message hmessage
    simp only [slotOf] at hmessage
    split at hmessage
    · cases hmessage
    · split at hmessage
      · cases hmessage
      · rw [List.mem_singleton.mp hmessage]
        exact hinvalid _
  refine ⟨by rw [Modifier.definedName, h]; rfl, fun message hmessage => ?_⟩
  rcases List.mem_append.mp hmessage with hmessage | hmessage
  · exact hslot message hmessage
  · obtain ⟨argument, -, rfl⟩ := List.mem_map.mp hmessage
    exact hinvalid _

def Signature.Reads (given : String) (state : Option Signature) : Prop :=
  ∀ signature, state = some signature → signature.Fits given

def Signature.Quotes (arguments : List Argument) (state : Option Signature) : Prop :=
  ∀ signature, state = some signature → ∃ name others, arguments = name :: others ∧
    signature = Signature.ofArguments name others

theorem Signature.Quotes.reads {m : Modifier} {state : Option Signature}
    (h : Signature.Quotes m.arguments state) : Signature.Reads m.definedName state := by
  intro signature hsignature
  obtain ⟨name, others, harguments, rfl⟩ := h signature hsignature
  exact Signature.fits_ofArguments harguments

/-- The body of an inline definition is wrong by its shape only. -/
theorem about_flattenInline : ∀ (nodes : List Node) (afterParagraph : Bool),
    ∀ message ∈ (flattenInline afterParagraph nodes).2, message.About Problem.OfDefinition := by
  have hinvalid : ∀ span, (Problem.invalidInlineBody.message span).About Problem.OfDefinition :=
    fun span => Message.about_message (.inr (.inr rfl)) span
  intro nodes
  induction nodes with
  | nil => exact fun _ => List.forall_mem_nil _
  | cons node rest ih =>
    intro afterParagraph
    -- a node that is wrong comes before what is wrong with the rest
    have hcons : ∀ span after, ∀ message ∈
        Problem.invalidInlineBody.message span :: (flattenInline after rest).2,
        message.About Problem.OfDefinition :=
      fun span after => List.forall_mem_cons.mpr ⟨hinvalid span, ih after⟩
    cases node with
    | paragraph span content =>
      cases afterParagraph with
      | true => exact hcons span true
      | false => exact ih true
    | modifier m =>
      rw [flattenInline]
      split
      · exact ih false
      · exact hcons _ _
    | text _ _ => exact hcons _ _
    | escaped _ _ => exact hcons _ _
    | preformatted _ _ _ => exact hcons _ _

section Making

variable {kind : MacroKind} {cx : Context} {s : MacroState} {m : Modifier}
  {state : Option Signature}

theorem ensures_beforeContent_define {immediate : Bool} :
    Ensures anyFault ((defineLifecycle kind).beforeContent m immediate) cx fun r _ =>
      Signature.Quotes m.arguments r.1 := by
  simp only [defineLifecycle]
  split
  · exact fun _ h => by cases h
  · split
    · rename_i name others harguments
      rw [ensures_bind]
      refine ensures_of_forall fun _ _ signature h => ?_
      cases h
      exact ⟨name, others, harguments, rfl⟩
    · exact fun _ h => by cases h

theorem ensures_afterContent_define (hstate : Signature.Quotes m.arguments state) :
    Ensures anyFault ((defineLifecycle kind).afterContent state) cx fun r _ =>
      Signature.Quotes m.arguments r := by
  cases state with
  | none => exact hstate
  | some signature =>
    simp only [defineLifecycle, ensures_bind]
    refine ensures_of_forall fun macros _ => ?_
    split
    · exact trivial
    · simp only [ensures_ite, ensures_bind]
      exact ⟨fun _ => trivial, fun _ => ensures_of_forall fun _ _ => hstate⟩

theorem ensures_prepare_define (hstate : Signature.Reads m.definedName state) :
    Ensures anyFault ((defineLifecycle kind).prepare m state true) cx fun r between =>
      between = cx ∧ Signature.Reads m.definedName r.1 ∧
        ∀ message ∈ r.2, message.About Problem.OfDefinition := by
  simp only [defineLifecycle, Bool.not_true, Bool.false_eq_true, if_false]
  cases state with
  | none => exact ⟨rfl, (fun _ h => by cases h), List.forall_mem_nil _⟩
  | some signature =>
    have hfits : signature.Fits m.definedName := hstate signature rfl
    have hsame : ∀ body, Signature.Reads m.definedName
        (some { signature with body := body, pending := [] }) := fun _ _ h => by
      cases h
      exact ⟨hfits.name, List.forall_mem_nil _⟩
    simp only
    split
    · refine ⟨rfl, hsame _, fun message hmessage => ?_⟩
      rcases List.mem_append.mp hmessage with hmessage | hmessage
      · exact hfits.pending message hmessage
      · rw [List.mem_singleton.mp hmessage]
        exact Message.about_message (.inl (.inr rfl)) _
    · rw [ensures_bind, ensures_get]
      -- the name may be taken
      have htaken : ∀ (taken : Bool) (span : Span), ∀ message ∈ signature.pending ++
          (if taken = true then [(Problem.nameTaken (signature.name.getD "")).message span]
            else []),
          message.About Problem.OfDefinition := by
        intro taken span message hmessage
        rcases List.mem_append.mp hmessage with hmessage | hmessage
        · exact hfits.pending message hmessage
        · split at hmessage
          · rw [List.mem_singleton.mp hmessage]
            exact Message.about_message (.inr (.inl ⟨_, rfl⟩)) span
          · cases hmessage
      cases kind with
      | block => exact ⟨rfl, hsame _, htaken _ _⟩
      | inline =>
        refine ⟨rfl, hsame _, fun message hmessage => ?_⟩
        rcases List.mem_append.mp hmessage with hmessage | hmessage
        · exact htaken _ _ message hmessage
        · exact about_flattenInline _ _ message hmessage

/-- Making a definition binds the name that it gives, if there is one, and leaves nothing to
be processed. -/
theorem ensures_expand_define (hstate : Signature.Reads m.definedName state) :
    Ensures anyFault ((defineLifecycle kind).expand m state true) cx fun d decided =>
      d.1 = .replace [] ∧ cx.DiffersAt kind.modifierKind m.definedName decided := by
  simp only [defineLifecycle, Bool.not_true, Bool.false_eq_true, if_false]
  cases state with
  | none => exact ⟨rfl, (Context.Same.refl cx).differsAt⟩
  | some signature =>
    rw [← (hstate signature rfl).name]
    simp only [ensures_ite]
    refine ⟨fun _ => ?_, fun _ => ⟨rfl, (Context.Same.refl cx).differsAt⟩⟩
    exact ⟨rfl, cx.differsAt_set (Definition.custom kind (signature.name.getD "") _ _ _)⟩

end Making

def Behaviour.Reads (given : String) : (b : Behaviour) → b.lifecycle.State → Prop
  | .define _ => Signature.Reads given
  | _ => fun _ => True

def Behaviour.Quotes (arguments : List Argument) : (b : Behaviour) → b.lifecycle.State → Prop
  | .define _ => Signature.Quotes arguments
  | _ => fun _ => True

theorem Behaviour.Quotes.reads {b : Behaviour} {m : Modifier} {state : b.lifecycle.State}
    (h : b.Quotes m.arguments state) : b.Reads m.definedName state := by
  cases b with
  | define kind => exact Signature.Quotes.reads h
  | _ => exact trivial

section Reading

variable {walk : Walk} {e : Engine} {m : Modifier} {kind : MacroKind}

theorem quotes_beforeContent {immediate : Bool} :
    Ensures anyFault
      (Expand.reporting (m.definition.behaviour.lifecycle.beforeContent m immediate)) e
      fun state _ => m.definition.behaviour.Quotes m.arguments state := by
  rw [ensures_reporting]
  cases m.definition.behaviour with
  | define kind => exact ensures_beforeContent_define
  | _ => exact ensures_of_forall fun _ _ => trivial

theorem quotes_afterContent {state : m.definition.behaviour.lifecycle.State}
    (hstate : m.definition.behaviour.Quotes m.arguments state) :
    Ensures anyFault (Expand.inContext (m.definition.behaviour.lifecycle.afterContent state)) e
      fun state _ => m.definition.behaviour.Quotes m.arguments state := by
  rw [ensures_inContext]
  generalize m.definition.behaviour = b at state hstate ⊢
  cases b with
  | define kind => exact ensures_afterContent_define hstate
  | _ => exact ensures_of_forall fun _ _ => trivial

theorem ensures_expandRead_define {state : m.definition.behaviour.lifecycle.State}
    (hkind : m.definition.behaviour = .define kind) (himmediate : e.immediate = true)
    (hstate : m.definition.behaviour.Reads m.definedName state) :
    Ensures anyFault (expandRead walk m state) e fun r e' =>
      r.1.definition = m.definition ∧ r.1.arguments = m.arguments ∧
        e.context.DiffersAt kind.modifierKind m.definedName e'.context ∧
        e.Tells Problem.OfDefinition e' := by
  obtain ⟨span, head, definition, arguments, content, expansion⟩ := m
  obtain ⟨stamp, name, place, slot, delaysContent, alwaysExpands, behaviour⟩ := definition
  cases hkind
  refine ensures_expandRead_now himmediate (ensures_finishModifier_iff.mpr ?_)
  rw [himmediate, ensures_reporting]
  refine (ensures_prepare_define hstate).mono ?_
  intro answer between hanswer
  obtain ⟨state, messages⟩ := answer
  obtain ⟨rfl, hreads, habout⟩ := hanswer
  refine ensures_inContext.mpr ((ensures_expand_define hreads).mono ?_)
  intro answer decided hanswer
  obtain ⟨outcome, state⟩ := answer
  obtain ⟨rfl, hdiffers⟩ := hanswer
  refine ensures_processNodes_nil.mpr ⟨fun hfails => absurd hfails Bool.false_ne_true, fun _ => ?_⟩
  exact ⟨rfl, rfl, hdiffers, Engine.tells_emit (e := e) habout⟩

theorem ensures_expandRead_definition {state : m.definition.behaviour.lifecycle.State} :
    Ensures anyFault (expandRead walk m state) e fun r _ => r.1.definition = m.definition := by
  refine ensures_expandRead_iff.mpr ⟨fun _ => rfl, fun _ => ensures_finishModifier_iff.mpr ?_⟩
  refine ensures_of_forall fun prepared e₁ => ensures_of_forall fun decided e₂ => ?_
  obtain ⟨outcome, state⟩ := decided
  cases outcome with
  | defer => exact rfl
  | keep => exact ensures_of_forall fun _ _ => rfl
  | replace nodes => exact ensures_of_forall fun _ _ => ⟨fun _ => rfl, fun _ => rfl⟩

/-- A definition does the same before its content at every visit. -/
theorem beforeContent_define {b : Behaviour} (h : b = .define kind) (m : Modifier)
    (immediate : Bool) :
    b.lifecycle.beforeContent m immediate = b.lifecycle.beforeContent m false := by
  cases h
  rfl

theorem sound_inBody_define {deep : Prop} {e opened : Engine} {m : Modifier}
    (hdelays : m.definition.delaysContent = true)
    (hopened : (opened.inBody m.definition.delaysContent).Sound (.ordinary deep))
    (hframes : opened.context.frames = e.context.frames)
    (hshallow : deep ∨ e.context.NoFrames) :
    (World.ahead deep).Sound (opened.inBody m.definition.delaysContent) := by
  refine ⟨hopened, ?_, hshallow.imp_right fun hnone kind => ?_⟩
  · simp [Engine.immediate, Engine.inBody, hdelays]
  · exact (congrFun hframes kind).trans (hnone kind)

/-- What is reported while a definition is read: in its head, before its body, in it, and when the
definition is made. -/
theorem tells_onDefinition {deep : Prop} {e e₁ opened later outside e' : Engine}
    (hhead : e.Reports e₁) (hopens : e₁.Tells Problem.Hasty opened)
    (hbody : opened.Tells (Problem.Early deep) later) (hleaves : outside.emitted = later.emitted)
    (hmakes : outside.Tells Problem.OfDefinition e') :
    e.Tells (Problem.OnDefinition deep) e' := by
  have hhead' : e.Tells (Problem.OnDefinition deep) e₁ :=
    hhead.tells.mono fun p hp => hp.elim (fun h => .inl (.inl h)) fun h => .inr (.inl h.2)
  have hopens' : e₁.Tells (Problem.OnDefinition deep) opened :=
    hopens.mono fun p hp => .inr (.inr (.inl hp))
  have hbody' : opened.Tells (Problem.OnDefinition deep) later := hbody.mono fun p hp => .inl hp
  have hleaves' : later.Tells (Problem.OnDefinition deep) outside := .of_same hleaves
  have hmakes' : outside.Tells (Problem.OnDefinition deep) e' :=
    hmakes.mono fun p hp => .inr (.inr hp)
  exact hhead'.trans (hopens'.trans (hbody'.trans (hleaves'.trans hmakes')))

/-- A definition was opened: what is known where its body starts. -/
structure Engine.OpensDefinition (deep : Prop) (e : Engine) (m : Modifier)
    (state : m.definition.behaviour.lifecycle.State) (opened : Engine) : Prop where
  opens : e.Opens (.ordinary deep) m.definition state opened
  tells : e.Tells Problem.Hasty opened
  quotes : m.definition.behaviour.Quotes m.arguments state
  body : (World.ahead deep).Sound (opened.inBody m.definition.delaysContent)
  returns : ∀ later : Engine, opened.context.Same later.context →
    Ensures anyFault (Expand.inContext (m.definition.behaviour.lifecycle.afterContent state)) later
      fun _ outside => outside.emitted = later.emitted ∧ e.context.Same outside.context

theorem ensures_opensDefinition {deep : Prop} (he : e.Sound (.ordinary deep))
    (hm : ((Regime.ordinary deep).stock e).Sits m) (hkind : m.definition.behaviour = .define kind)
    (hdelays : m.definition.delaysContent = true) (hshallow : deep ∨ e.context.NoFrames) :
    Ensures anyFault
      (Expand.reporting (m.definition.behaviour.lifecycle.beforeContent m e.immediate)) e
      fun state opened => e.OpensDefinition deep m state opened := by
  obtain ⟨s, hs, -⟩ := he.stores.macros
  refine (((ensures_beforeContent e.immediate he hm).any.and
    (ensures_beforeContent_returns hs (beforeContent_define hkind _ _))).and
    quotes_beforeContent).mono ?_
  intro state opened hanswer
  obtain ⟨⟨ho, htells, hframes, -, hreturns⟩, hquotes⟩ := hanswer
  exact ⟨ho, htells, hquotes, sound_inBody_define hdelays ho.sound hframes hshallow, hreturns⟩

/-- Behind the body the context is as before, and what was reported in the body is kept. -/
theorem Engine.OpensDefinition.closes {deep : Prop} {opened later : Engine}
    {state : m.definition.behaviour.lifecycle.State} {content : List Node} {span : Span}
    (h : e.OpensDefinition deep m state opened) (he : e.Sound (.ordinary deep))
    (hfits : ((Regime.ordinary deep).stock e).Fits m.definition)
    (hyields : (opened.inBody m.definition.delaysContent).Yields (.ordinary deep) content later)
    (hsame : opened.context.Same later.context) (hspan : span.start ≤ m.head.stop) :
    Ensures anyFault (Expand.inContext (m.definition.behaviour.lifecycle.afterContent state))
      { later with delayDepth := later.delayDepth - m.definition.delaysContent.toNat }
      fun state' outside => e.Follows outside ∧ outside.emitted = later.emitted ∧
        e.context.Same outside.context ∧
        m.definition.behaviour.Quotes m.arguments state' :=
  (((Regime.closes he hfits h.opens hyields hspan).any.and (h.returns _ hsame)).and
    (quotes_afterContent h.quotes)).mono
      fun _ _ hanswer => ⟨hanswer.1.1.2.1, hanswer.1.2.1, hanswer.1.2.2, hanswer.2⟩

variable {fuel : Nat} {place : ModifierKind} {r : Reader}

theorem ensures_readModifier_define {deep : Prop} (hr : r.engine.context.Stores (.ordinary deep))
    (hshallow : deep ∨ r.engine.context.NoFrames) (hzero : r.engine.delayDepth = 0)
    (hnext : r.cursor.peek place.opening.text = true) (hfuel : 8 * r.left ≤ fuel) :
    Ensures anyFault (readModifier fuel place) r fun read r' =>
      ∀ kind, read.1.definition.behaviour = .define kind →
        r.engine.context.DiffersAt kind.modifierKind read.1.definedName r'.engine.context ∧
          r.engine.Tells (Problem.OnDefinition deep) r'.engine := by
  cases fuel with
  | zero => exact trivial
  | succ fuel =>
    have he : r.engine.Sound (.ordinary deep) :=
      ⟨hr.mono (Stock.ordinary_le deep _), fun h => h.elim⟩
    rw [ensures_readModifier_iff]
    refine (ensures_readHead he.stores.readable).any.mono ?_
    intro head r₁ hanswer
    obtain ⟨h₁, hmoves, hstop, hmade⟩ := hanswer
    by_cases hdefine : ∃ kind, head.modifier.definition.behaviour = .define kind
    · obtain ⟨kind, hkind⟩ := hdefine
      have he₁ : r₁.engine.Sound (.ordinary deep) := h₁.reports.sound he
      have himmediate : r₁.engine.immediate = true := by
        rw [h₁.reports.follows.immediate, Engine.immediate, hzero]
        rfl
      have hfits := h₁.reports.follows.le.fits _ hmade.fits
      have hsits : ((Regime.ordinary deep).stock r₁.engine).Sits head.modifier :=
        ⟨hfits, hmade.whole ▸ hmade.placed, fun n hn => by rw [hmade.content] at hn; cases hn⟩
      refine (ensures_opensDefinition he₁ hsits hkind (hmade.fits.1.delays kind hkind)
        (h₁.reports.context.symm ▸ hshallow)).mono ?_
      intro state opened ho
      have hlt := hmoves hnext
      refine ((constructs (.ahead deep) fuel).body place head
        { r₁ with engine := opened.inBody head.modifier.definition.delaysContent } ho.body
        (.inr (by simp only [Reader.left] at hlt hfuel ⊢; omega))).any.mono ?_
      intro answer r₂ hanswer
      obtain ⟨content, continues⟩ := answer
      obtain ⟨⟨hpasses, ⟨hyields, hidles, -⟩, -⟩, -, -⟩ := hanswer
      have hstart : head.modifier.head.start ≤ r₂.cursor.position := by
        rw [hmade.starts]
        exact Nat.le_trans h₁.position_le hpasses.position_le
      refine ensures_wholeSpan hstart fun span hspan _ => ?_
      refine (ho.closes he₁ hfits hyields hidles.same (hspan ▸ hmade.placed)).mono ?_
      intro state outside hanswer
      obtain ⟨hfollows, hemitted, hsame, hquotes⟩ := hanswer
      refine (ensures_expandRead_define
        (m := { head.modifier with span := span, content := content }) hkind
        (hfollows.immediate.trans himmediate) hquotes.reads).mono ?_
      intro read e' hanswer kind' hkind'
      obtain ⟨hdefinition, harguments, hdiffers, hmade'⟩ := hanswer
      have hsamekind : kind' = kind := by
        rw [hdefinition, hkind] at hkind'
        exact (Behaviour.define.inj hkind').symm
      have hname : read.1.definedName = head.modifier.definedName := by
        simp only [Modifier.definedName, harguments]
      rw [hsamekind, hname, ← h₁.reports.context]
      exact ⟨hsame.differsAt.trans hdiffers,
        tells_onDefinition h₁.reports ho.tells hidles.tells hemitted hmade'⟩
    · -- what is no definition does not become one
      refine ensures_of_forall fun state opened => ?_
      refine ensures_of_forall fun read r₂ => ensures_of_forall fun span r₃ => ?_
      refine ensures_of_forall fun state' outside => ?_
      refine (ensures_expandRead_definition (m := { head.modifier with
        span := span, content := read.1 })).mono ?_
      intro expanded e' hsame kind hkind
      exact absurd ⟨kind, hsame ▸ hkind⟩ hdefine

end Reading

/-- **Reading a definition has no side effects.**  In a context in which modifiers are ordinary,
where no definition is being read, a definition with any body is read without fault, and behind
it at most the name that it gives is bound to something else. -/
theorem definition_binds_name {fuel : Nat} {place : ModifierKind} {r : Reader}
    (hr : r.engine.context.Stores (.ordinary True)) (hzero : r.engine.delayDepth = 0)
    (hnext : r.cursor.peek place.opening.text = true) (hfuel : 8 * r.left ≤ fuel) :
    ∃ m continues r', readModifier fuel place r = .ok ((m, continues), r') ∧
      ∀ kind, m.definition.behaviour = .define kind →
        r.engine.context.DiffersAt kind.modifierKind m.definedName r'.engine.context := by
  have he : r.engine.Sound (.ordinary True) :=
    ⟨hr.mono (Stock.ordinary_le True _), fun h => h.elim⟩
  have hreads := (constructs (Regime.ordinary True).world fuel).modifier place r he hnext
    (.inr hfuel)
  have hdiffers := ensures_readModifier_define hr (.inl trivial) hzero hnext hfuel
  obtain ⟨⟨m, continues⟩, r', hrun, -, h⟩ := (hreads.and hdiffers).exists_ok
  exact ⟨m, continues, r', hrun, fun kind hkind => (h kind hkind).1⟩

/-- A definition whose body binds a variable, keeps and changes definitions, and opens a
module. -/
theorem definition_binds_name_box :
    let source := "[-define-block p]\n:--\n[-var x:1]\n[-push-notation]\n" ++
      "[-define-block q]y\n[.module m][.use m][-pop-notation]\n--:"
    ∃ cx m continues r', Context.start Builtin.configuration .empty = .ok cx ∧
      cx.Stores (.ordinary True) ∧
      readModifier 900 .system (Reader.start cx source []) = .ok ((m, continues), r') ∧
      m.definition.behaviour = .define .block ∧ m.definedName = "p" ∧
      cx.DiffersAt .block "p" r'.engine.context := by
  intro source
  obtain ⟨cx, hcx⟩ : ∃ cx, Context.start Builtin.configuration .empty = .ok cx := ⟨_, rfl⟩
  have hstores : cx.Stores (.ordinary True) := (Builtin.ordinary_start hcx).1
  have hcursor : (Cursor.ofString source []).peek "[-" = true ∧
      8 * (Cursor.ofString source []).rest.length ≤ 900 := by
    decide +kernel
  let r : Reader := Reader.start cx source []
  obtain ⟨m, continues, r', hrun, hdiffers⟩ : ∃ m continues r',
      readModifier 900 .system r = .ok ((m, continues), r') ∧
        ∀ kind, m.definition.behaviour = .define kind →
          cx.DiffersAt kind.modifierKind m.definedName r'.engine.context :=
    definition_binds_name hstores rfl hcursor.1 hcursor.2
  have hread : ((Context.start Builtin.configuration .empty).bind fun cx =>
      readModifier 900 .system (Reader.start cx source [])).toOption.map (fun p =>
        (p.1.1.definedName, match p.1.1.definition.behaviour with
          | .define kind => some kind
          | _ => none)) = some ("p", some .block) := by
    decide +kernel
  rw [hcx, Except.bind, hrun] at hread
  have hfacts := Option.some.inj hread
  have hname : m.definedName = "p" := congrArg (·.1) hfacts
  have hkind : m.definition.behaviour = .define .block := by
    have h : (match m.definition.behaviour with
      | .define kind => some kind
      | _ => none) = some .block := congrArg (·.2) hfacts
    split at h
    · rename_i heq
      rw [heq, Option.some.inj h]
    · cases h
  refine ⟨cx, m, continues, r', hcx, hstores, hrun, hkind, hname, ?_⟩
  rw [← hname]
  exact hdiffers .block hkind

end MacroMarkup
