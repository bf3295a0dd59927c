import MacroMarkup.Proofs.Places

/-!
# The lives of modifiers

Each modifier that a parse comes to passes the points of its life one after another, whether it
is read from the source or met in generated content.  It begins when its arguments have been
evaluated, it closes when its content lies behind, and it finishes unless it is left alone; what
it stands for is then processed.  What a regime asks for lasts from each point to the next.

* `Context.Begins`, `Context.Closes`, `Context.Finishes`: the lives of modifiers in all parses that
  start in a context.
* `Lifecycle.Point`, `Context.Passes`: the points of these lives, each at its engine.
* `Modifier.LastsOver`: what a regime asks for of a modifier over its content.
* `Begins.lasts`, `Closes.lasts`, `Finishes.lasts`: **what a regime asks for lasts.**
* `Passes.settled`: **at each point where the depth is zero the arguments have values, and no
  definition is being read** but the one that passes it.
-/

namespace MacroMarkup

open Parse

/-! ### The points -/

namespace Context

/-- The modifier is right before the first point of its life: its arguments have been evaluated,
and it was read from the source or is not left alone. -/
inductive Begins (cx : Context) : Modifier → Engine → Prop
  | read {r r' : Reader} {kind : ModifierKind} {head : Head} :
      cx.Reads r → readHead kind r = .ok (head, r') → cx.Begins head.modifier r'.engine
  | generated {v : Visit} {levels : Nat} {m : Modifier} {arguments : List Argument}
      {e e' : Engine} :
      cx.Walks v → v.Meets levels (.modifier m) e → m.expansion = none →
      expandArguments m.arguments e = .ok (arguments, e') →
      (!e'.immediate && !m.definition.alwaysExpands) = false →
      cx.Begins { m with arguments := arguments } e'

inductive Closes (cx : Context) :
    (m : Modifier) → m.definition.behaviour.lifecycle.State → Engine → Prop
  | read {m : Modifier} {r r' r'' : Reader} {span : Span} {content : List Node}
      {state : m.definition.behaviour.lifecycle.State} :
      cx.Reads r → m.OpensAt r state r' → r'.Gets content r'' → span.start ≤ m.head.stop →
      cx.Closes { m with span := span, content := content } state
        { r''.engine with
          delayDepth := r''.engine.delayDepth - m.definition.delaysContent.toNat }
  | generated {v : Visit} {levels : Nat} {m : Modifier} {arguments : List Argument}
      {content : List Node} {e opened closed : Engine}
      {state : m.definition.behaviour.lifecycle.State} :
      cx.Walks v → v.Meets levels (.modifier m) e → m.Opens e arguments state opened →
      walkContent (process levels) { m with arguments := arguments } opened
        = .ok (content, closed) →
      cx.Closes { m with arguments := arguments, content := content } state closed

/-- The modifier is behind the second point of its life, and it is not left alone. -/
def Finishes (cx : Context) (m : Modifier) (state : m.definition.behaviour.lifecycle.State)
    (e : Engine) : Prop :=
  ∃ earlier closed, cx.Closes m earlier closed ∧
    Expand.inContext (m.definition.behaviour.lifecycle.afterContent earlier) closed
      = .ok (state, e) ∧
    (!e.immediate && !m.definition.alwaysExpands) = false

end Context

inductive Lifecycle.Point where
  | beforeContent
  | afterContent
  | prepare
  | expand
  | beforeProcessing
  | afterProcessing

/-- The parse is right before a point of the life of a modifier. -/
inductive Context.Passes (cx : Context) : Lifecycle.Point → Modifier → Engine → Prop
  | beforeContent {m : Modifier} {e : Engine} : cx.Begins m e → cx.Passes .beforeContent m e
  | afterContent {m : Modifier} {e : Engine} {state : m.definition.behaviour.lifecycle.State} :
      cx.Closes m state e → cx.Passes .afterContent m e
  | prepare {m : Modifier} {e : Engine} {state : m.definition.behaviour.lifecycle.State} :
      cx.Finishes m state e → cx.Passes .prepare m e
  | expand {m : Modifier} {e between : Engine}
      {state prepared : m.definition.behaviour.lifecycle.State} :
      cx.Finishes m state e →
      Expand.reporting (m.definition.behaviour.lifecycle.prepare m state e.immediate) e
        = .ok (prepared, between) →
      cx.Passes .expand m between
  | beforeProcessing {m : Modifier} {e : Engine} {x : Processing}
      {state : m.definition.behaviour.lifecycle.State} :
      cx.Finishes m state e → m.Decides state e x → cx.Passes .beforeProcessing m x.engine
  | afterProcessing {m : Modifier} {e inside later : Engine} {x : Processing} {levels : Nat}
      {answer : List Node × Bool} {state : m.definition.behaviour.lifecycle.State} :
      cx.Finishes m state e → m.Decides state e x → x.Starts inside →
      process levels x.nodes inside = .ok (answer, later) →
      cx.Passes .afterProcessing m { later with referring := x.engine.referring }

/-! ### What lasts -/

/-- What a regime asks for of a modifier over its content: it began at `begun`, its content was
opened at `opened` and lies behind it at `e`. -/
structure Modifier.LastsOver (R : Regime) (m : Modifier)
    (state : m.definition.behaviour.lifecycle.State) (begun opened e : Engine) : Prop where
  sound : begun.Sound R
  fits : (R.stock begun).Fits m.definition
  placed : m.span.start ≤ m.head.stop
  waits : m.expansion = none
  values : begun.IsFinal → ∀ a ∈ m.arguments, a.value.isSome = true
  /-- The first point was passed, before the content and the end of the modifier were known. -/
  begins : ∃ span content, Expand.reporting (m.definition.behaviour.lifecycle.beforeContent
    { m with span := span, content := content } begun.immediate) begun = .ok (state, opened)
  opens : begun.Opens R m.definition state opened
  yields : (opened.inBody m.definition.delaysContent).Yields R m.content
    (e.inBody m.definition.delaysContent)

theorem Modifier.eta (m : Modifier) :
    Modifier.mk m.span m.head m.definition m.arguments m.content m.expansion = m := by
  cases m
  rfl

section Lives

variable {R : Regime} {cx : Context} {m : Modifier} {e begun opened : Engine}
  {state : m.definition.behaviour.lifecycle.State}

/-- Where the depth is zero, visits are final and all arguments have values. -/
theorem Modifier.Lasts.isFinal (h : m.Lasts R e) (hdelaying : R.delaying)
    (hzero : e.delayDepth = 0) : e.IsFinal ∧ ∀ a ∈ m.arguments, a.value.isSome = true := by
  have hfinal : e.IsFinal := ⟨hzero, h.sound.tight hdelaying hzero⟩
  exact ⟨hfinal, h.values hfinal⟩

theorem Context.Begins.lasts (h : cx.Begins m e) (hcx : (Engine.start cx).Sound R) :
    m.Lasts R e := by
  cases h with
  | read hreads hhead => exact .of_readHead hhead (hreads.sound hcx)
  | generated hwalks hmet hwaits harguments halone =>
    obtain ⟨he, hkeeps⟩ := hmet.sound (hwalks.sound hcx)
    exact .of_expandArguments harguments hwaits he hkeeps

theorem Context.Closes.lasts (h : cx.Closes m state e) (hcx : (Engine.start cx).Sound R) :
    ∃ begun opened, m.LastsOver R state begun opened e := by
  cases h with
  | @read m r r' r'' span content state hreads hopens hgets hspan =>
    obtain ⟨kind, head, r₁, opened, hhead, rfl, hopened, rfl⟩ := hopens
    have hlasts := (Context.Begins.read hreads hhead).lasts hcx
    have ho := hlasts.opens hopened
    have hyields := hgets.yields (W := R.world) ho.sound
    have hsame := congrArg (fun m => Expand.reporting
      (head.modifier.definition.behaviour.lifecycle.beforeContent m r₁.engine.immediate) r₁.engine)
      head.modifier.eta
    exact ⟨r₁.engine, opened, hlasts.sound, hlasts.sits.fits, hspan, hlasts.waits, hlasts.values,
      ⟨_, _, hsame.trans hopened⟩, ho, hyields.leave⟩
  | @generated v levels m arguments content e₀ opened closed state hwalks hmet hopens hcontent =>
    obtain ⟨hwaits, e₁, harguments, halone, hopened⟩ := hopens
    have hlasts := (Context.Begins.generated hwalks hmet hwaits harguments halone).lasts hcx
    have ho := hlasts.opens hopened
    have hyields := ho.walks (m := { m with arguments := arguments }) hlasts.sits hcontent
    exact ⟨e₁, opened, hlasts.sound, hlasts.sits.fits, hlasts.sits.placed, hwaits, hlasts.values,
      ⟨m.span, m.content, hopened⟩, ho, hyields⟩

theorem Modifier.LastsOver.delayDepth (h : m.LastsOver R state begun opened e) :
    e.delayDepth = begun.delayDepth := by
  have hsame := h.yields.follows.delayDepth
  have hopened := h.opens.delayDepth
  simp only [Engine.inBody] at hsame
  omega

theorem Modifier.LastsOver.closed {state' : m.definition.behaviour.lifecycle.State} {e' : Engine}
    (h : m.LastsOver R state begun opened e)
    (hrun : Expand.inContext (m.definition.behaviour.lifecycle.afterContent state) e
      = .ok (state', e')) :
    m.Lasts R e' ∧ m.definition.behaviour.Rests state' := by
  obtain ⟨hsound, hfollows, hle, hrests⟩ :=
    (ensures_afterContent h.sound h.opens h.yields.sound h.yields.follows).of_ok hrun
  refine ⟨⟨hsound, ⟨hfollows.le.fits _ h.fits, h.placed, fun n hn => ?_⟩, h.waits, ?_⟩, hrests⟩
  · exact hle.keeps n (h.yields.keeps n hn)
  · exact fun hfinal => h.values (hfollows.isFinal_back h.sound hfinal)

/-- If no definition was being read where the modifier began, none is being read behind its
content, unless the modifier is one. -/
theorem Modifier.LastsOver.nothingDelayed (h : m.LastsOver R state begun opened e)
    (hbegun : begun.context.NothingDelayed)
    (hother : ∀ kind, m.definition.behaviour ≠ .define kind) : e.context.NothingDelayed := by
  obtain ⟨span, content, hrun⟩ := h.begins
  have hopens := opensNothing hother (R.stock begun) begun.context
    { m with span := span, content := content } begun.immediate h.sound.stores hbegun
  have hopened : Ensures anyFault
      (Expand.reporting (m.definition.behaviour.lifecycle.beforeContent
        { m with span := span, content := content } begun.immediate)) begun
      fun _ opened => opened.context.NothingDelayed := ensures_reporting.mpr hopens
  exact (hopened.of_ok hrun).of_agrees h.yields.follows.agrees

theorem Context.Finishes.lasts (h : cx.Finishes m state e) (hcx : (Engine.start cx).Sound R) :
    m.Lasts R e ∧ m.definition.behaviour.Rests state := by
  obtain ⟨earlier, closed, hcloses, hrun, -⟩ := h
  obtain ⟨begun, opened, hover⟩ := hcloses.lasts hcx
  exact hover.closed hrun

/-- In generated content a modifier that was opened is not left alone behind its content. -/
theorem Context.finishes_generated {v : Visit} {levels : Nat} {e₀ opened closed : Engine}
    {arguments : List Argument} {content : List Node}
    {state state' : m.definition.behaviour.lifecycle.State}
    (hwalks : cx.Walks v) (hmet : v.Meets levels (.modifier m) e₀)
    (hopens : m.Opens e₀ arguments state opened)
    (hcontent : walkContent (process levels) { m with arguments := arguments } opened
      = .ok (content, closed))
    (hafter : Expand.inContext (m.definition.behaviour.lifecycle.afterContent state) closed
      = .ok (state', e)) (hcx : (Engine.start cx).Sound R) :
    cx.Finishes { m with arguments := arguments, content := content } state' e := by
  refine ⟨state, closed, .generated hwalks hmet hopens hcontent, hafter, ?_⟩
  obtain ⟨hwaits, e₁, harguments, halone, hopened⟩ := hopens
  have hlasts := (Begins.generated hwalks hmet hwaits harguments halone).lasts hcx
  have ho : e₁.Opens R m.definition state opened := hlasts.opens hopened
  have hyields := ho.walks (m := { m with arguments := arguments }) hlasts.sits hcontent
  obtain ⟨context, -, rfl⟩ := ok_of_inContext hafter
  have hsame := hyields.follows.delayDepth
  simp only [Engine.inBody, ho.delayDepth] at hsame
  have himmediate : closed.immediate = e₁.immediate := by
    rw [Engine.immediate, Engine.immediate, Nat.add_right_cancel hsame]
  exact himmediate ▸ halone

theorem Modifier.Lasts.prepares {prepared : m.definition.behaviour.lifecycle.State}
    {between : Engine} (h : m.Lasts R e) (hstate : m.definition.behaviour.Rests state)
    (hrun : Expand.reporting (m.definition.behaviour.lifecycle.prepare m state e.immediate) e
      = .ok (prepared, between)) :
    between.delayDepth = e.delayDepth ∧ e.context.Agrees between.context := by
  have hprepared : Ensures noFault
      (Expand.reporting (m.definition.behaviour.lifecycle.prepare m state e.immediate)) e
      fun _ between => between.delayDepth = e.delayDepth ∧
        e.context.Agrees between.context := by
    rw [ensures_reporting]
    refine (keepsDecision h.sits.fits e.context m state e.immediate h.sound.stores h.sits
      hstate).mono fun answer context hanswer => ?_
    exact ⟨rfl, hanswer.2.1⟩
  exact hprepared.of_ok hrun

end Lives

/-! ### Where the depth is zero -/

section Points

variable {R : Regime} {cx : Context} {m : Modifier} {e : Engine} {point : Lifecycle.Point}

/-- **Where the depth is zero the arguments of a modifier have values at each point of its life, and
no definition is being read** but the one that is at its second point. -/
theorem Context.Passes.settled (h : cx.Passes point m e) (hcx : (Engine.start cx).Sound R)
    (hdelaying : R.delaying) (hzero : e.delayDepth = 0) :
    (∀ a ∈ m.arguments, a.value.isSome = true) ∧
      ((point = .afterContent → ∀ kind, m.definition.behaviour ≠ .define kind) →
        e.context.NothingDelayed) := by
  -- it is enough to go back to an earlier point at the same depth
  have hback : ∀ {earlier : Engine}, m.Lasts R earlier → e.delayDepth = earlier.delayDepth →
      earlier.IsFinal ∧ ∀ a ∈ m.arguments, a.value.isSome = true :=
    fun hlasts hsame => hlasts.isFinal hdelaying (hsame.symm.trans hzero)
  cases h with
  | beforeContent hbegins =>
    obtain ⟨hfinal, hvalues⟩ := hback (hbegins.lasts hcx) rfl
    exact ⟨hvalues, fun _ => hfinal.2⟩
  | afterContent hcloses =>
    obtain ⟨begun, opened, hover⟩ := hcloses.lasts hcx
    have hbegun : begun.delayDepth = 0 := hover.delayDepth.symm.trans hzero
    have hnone := hover.sound.tight hdelaying hbegun
    exact ⟨hover.values ⟨hbegun, hnone⟩, fun hother => hover.nothingDelayed hnone (hother rfl)⟩
  | prepare hfinishes =>
    obtain ⟨hfinal, hvalues⟩ := hback (hfinishes.lasts hcx).1 rfl
    exact ⟨hvalues, fun _ => hfinal.2⟩
  | expand hfinishes hprepare =>
    obtain ⟨hlasts, hrests⟩ := hfinishes.lasts hcx
    obtain ⟨hsame, hagrees⟩ := hlasts.prepares hrests hprepare
    obtain ⟨hfinal, hvalues⟩ := hback hlasts hsame
    exact ⟨hvalues, fun _ => hfinal.2.of_agrees hagrees⟩
  | beforeProcessing hfinishes hdecides =>
    obtain ⟨hlasts, hrests⟩ := hfinishes.lasts hcx
    have hstands := hdecides.stands hlasts.sound hlasts.sits hrests
    obtain ⟨hfinal, hvalues⟩ := hback hlasts hstands.delayDepth
    exact ⟨hvalues, fun _ => hfinal.2.of_agrees hstands.agrees⟩
  | @afterProcessing _ e₀ inside later x levels answer state hfinishes hdecides hstarts hwalk =>
    obtain ⟨hlasts, hrests⟩ := hfinishes.lasts hcx
    have hstands := hdecides.stands hlasts.sound hlasts.sits hrests
    have hvisit : Visit.Sound R ⟨levels, x.nodes, inside⟩ := hstands.walk hstarts hlasts.sound
    have hyields := (lawful_process levels inside x.nodes hvisit.sound hvisit.keeps).of_ok hwalk
    obtain ⟨-, -, context, -, rfl⟩ := hstarts
    have hdepth : later.delayDepth = e₀.delayDepth :=
      hyields.follows.delayDepth.trans hstands.delayDepth
    exact ⟨(hback hlasts hdepth).2, fun _ => hyields.sound.tight hdelaying hzero⟩

end Points

end MacroMarkup
