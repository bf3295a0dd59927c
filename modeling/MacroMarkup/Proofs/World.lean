import MacroMarkup.Proofs.Heads
import MacroMarkup.Proofs.Upkeep
import MacroMarkup.Proofs.Walk

/-!
# Worlds

Reading a source goes on in the same way whatever is known of the engine that acts on what
was read.  A `World` is what is known of it: the faults that it may meet, what holds at every
point, and what is left behind by a stretch of reading that ends with nodes.  What reading
does is proved once, for every world.

* `World.anything`: nothing is known, and every fault may be met.
* `Upkeep.world`: what all lifecycles keep of a context is kept while a source is read.
* `Regime.world`: the context is in stock, and no fault is met.
-/

namespace MacroMarkup

structure World where
  /-- The faults that may be met. -/
  allows : Fault → Prop
  /-- What holds at every point. -/
  Sound : Engine → Prop
  /-- The definitions that a modifier may have at a point. -/
  Fits : Engine → Definition → Prop
  /-- What holds between two points, between which nodes were read. -/
  Yields : Engine → List Node → Engine → Prop
  readable : ∀ {e}, Sound e → e.context.Readable allows (Fits e)
  fits : ∀ {e e' d}, e.Reports e' → Fits e d → Fits e' d
  sound : ∀ {e nodes e'}, Yields e nodes e' → Sound e'
  leaves : ∀ {e nodes}, Sound e → (∀ n ∈ nodes, n.isLeaf = true) → Yields e nodes e
  earlier : ∀ {e e' e'' nodes}, e.Reports e' → Yields e' nodes e'' → Yields e nodes e''
  later : ∀ {e e' e'' nodes}, Yields e nodes e' → e'.Reports e'' → Yields e nodes e''
  append : ∀ {e e' e'' nodes nodes'}, Yields e nodes e' → Yields e' nodes' e'' →
    Yields e (nodes ++ nodes') e''
  /-- Leaves may come and go. -/
  same : ∀ {e e' nodes nodes'}, Yields e nodes e' → compounds nodes' = compounds nodes →
    Yields e nodes' e'
  paragraph : ∀ {e e' nodes} (span : Span), Yields e nodes e' →
    Yields e [.paragraph span nodes] e'
  /-- A modifier is opened behind its head, and closed behind its body. -/
  modifier : ∀ {e : Engine} {m : Modifier}, Sound e → Fits e m.definition →
    m.span.start ≤ m.head.stop → m.content = [] → m.expansion = none →
    (e.IsFinal → ∀ a ∈ m.arguments, a.value.isSome = true) →
    Ensures allows
      (Expand.reporting (m.definition.behaviour.lifecycle.beforeContent m e.immediate)) e
      fun state opened => Sound (opened.inBody m.definition.delaysContent) ∧
        ∀ (content : List Node) (later : Engine) (span : Span),
          Yields (opened.inBody m.definition.delaysContent) content later →
          span.start ≤ m.head.stop →
          Ensures allows
            (Expand.inContext (m.definition.behaviour.lifecycle.afterContent state))
            { later with delayDepth := later.delayDepth - m.definition.delaysContent.toNat }
            fun state outside => Ensures allows
              (expandRead (process outside.levels) { m with span := span, content := content }
                state) outside
              fun r e' => Yields e [.modifier r.1] e'

namespace World

theorem reports (W : World) {e e' : Engine} (h : e.Reports e') (he : W.Sound e) : W.Sound e' :=
  W.sound (W.later (W.leaves he (List.forall_mem_nil _)) h)

def anything : World where
  allows := anyFault
  Sound _ := True
  Fits _ _ := True
  Yields _ _ _ := True
  readable _ := ⟨fun _ _ _ _ _ => ⟨fun _ => trivial, trivial⟩, fun _ _ => trivial,
    fun _ _ _ _ => ⟨fun _ => trivial, fun _ => trivial⟩, fun _ _ => trivial⟩
  fits _ _ := trivial
  sound _ := trivial
  leaves _ _ := trivial
  earlier _ _ := trivial
  later _ _ := trivial
  append _ _ := trivial
  same _ _ := trivial
  paragraph _ _ := trivial
  modifier _ _ _ _ _ _ := ensures_of_forall fun _ _ => ⟨trivial, fun _ _ _ _ _ =>
    ensures_of_forall fun _ _ => ensures_of_forall fun _ _ => trivial⟩

end World

/-- What all lifecycles keep of a context is kept while a source is read, if the names of its
configuration may be looked for. -/
def Upkeep.world (U : Upkeep) {rests : (b : Behaviour) → b.lifecycle.State → Context → Prop}
    (hlife : ∀ b : Behaviour, b.lifecycle.Upholds U (rests b))
    (hreadable : ∀ {cx : Context}, U.Holds cx → cx.Readable U.allows fun _ => True) : World where
  allows := U.allows
  Sound e := U.Holds e.context
  Fits _ _ := True
  Yields e _ e' := e.Upholds U e'
  readable he := hreadable he
  fits _ _ := trivial
  sound h := h.holds
  leaves he _ := .refl he
  earlier h hyields := by
    obtain ⟨⟨emitted, rfl⟩, -⟩ := h
    exact ⟨hyields.keeps, hyields.referring⟩
  later hyields h := hyields.trans (h.upholds hyields.holds)
  append h h' := h.trans h'
  same h _ := h
  paragraph _ h := h
  modifier {e m} he _ _ _ _ _ := by
    have hm := hlife m.definition.behaviour
    refine (upholds_reporting (hm.beforeContent m e.immediate _ he)).mono ?_
    intro state opened hanswer
    obtain ⟨hopened, hstate⟩ := hanswer
    refine ⟨hopened.holds, fun content later span hlater _ => ?_⟩
    refine (upholds_inContext (e := { later with
      delayDepth := later.delayDepth - m.definition.delaysContent.toNat })
      (hm.afterContent state _ hlater.holds (hm.stays hstate hlater.keeps))).mono ?_
    intro state' outside hanswer
    obtain ⟨houtside, hstate'⟩ := hanswer
    refine (upholds_expandRead hlife (upholds_process hlife _)
      (m := { m with span := span, content := content }) hstate' houtside.holds).mono ?_
    intro _ e' h
    have hread : opened.Upholds U e' := ⟨U.trans hlater.keeps (U.trans houtside.keeps h.keeps),
      h.referring.trans (houtside.referring.trans hlater.referring)⟩
    exact hopened.trans hread

/-- A modifier that was opened is closed behind its content, and may be expanded then. -/
theorem Regime.closes {R : Regime} {e opened later : Engine} {m : Modifier}
    {state : m.definition.behaviour.lifecycle.State} {content : List Node} {span : Span}
    (he : e.Sound R) (hfits : (R.stock e).Fits m.definition)
    (ho : e.Opens R m.definition state opened)
    (hyields : (opened.inBody m.definition.delaysContent).Yields R content later)
    (hspan : span.start ≤ m.head.stop) :
    Ensures noFault (Expand.inContext (m.definition.behaviour.lifecycle.afterContent state))
      { later with delayDepth := later.delayDepth - m.definition.delaysContent.toNat }
      fun state outside => outside.Sound R ∧ e.Follows outside ∧
        (R.stock outside).Sits { m with span := span, content := content } ∧
        m.definition.behaviour.Rests state := by
  have hleave := hyields.leave
  refine (ensures_afterContent he ho hleave.sound hleave.follows).mono ?_
  intro state outside hanswer
  obtain ⟨houtside, hfollows, hlater, hrests⟩ := hanswer
  refine ⟨houtside, hfollows, ⟨hfollows.le.fits _ hfits, hspan, fun n hn => ?_⟩, hrests⟩
  exact hlater.keeps n (hyields.keeps n hn)

/-- A modifier that was read lives its whole life without fault, and closes what it opens. -/
theorem Regime.lives {R : Regime} {e : Engine} {m : Modifier} (he : e.Sound R)
    (hfits : (R.stock e).Fits m.definition) (hplaced : m.span.start ≤ m.head.stop)
    (hcontent : m.content = []) (hwaits : m.expansion = none)
    (hvalues : e.IsFinal → ∀ a ∈ m.arguments, a.value.isSome = true) :
    Ensures noFault
      (Expand.reporting (m.definition.behaviour.lifecycle.beforeContent m e.immediate)) e
      fun state opened => (opened.inBody m.definition.delaysContent).Sound R ∧
        ∀ (content : List Node) (later : Engine) (span : Span),
          (opened.inBody m.definition.delaysContent).Yields R content later →
          span.start ≤ m.head.stop →
          Ensures noFault
            (Expand.inContext (m.definition.behaviour.lifecycle.afterContent state))
            { later with delayDepth := later.delayDepth - m.definition.delaysContent.toNat }
            fun state outside => Ensures noFault
              (expandRead (process outside.levels) { m with span := span, content := content }
                state) outside
              fun r e' => e.Yields R [.modifier r.1] e' := by
  have hsits : (R.stock e).Sits m := by
    refine ⟨hfits, hplaced, fun n hn => ?_⟩
    rw [hcontent] at hn
    cases hn
  refine (ensures_beforeContent e.immediate he hsits).mono ?_
  intro state opened ho
  refine ⟨ho.sound, fun content later span hyields hspan => ?_⟩
  refine (Regime.closes he hfits ho hyields hspan).mono ?_
  intro state outside hanswer
  obtain ⟨houtside, hfollows, hsits', hrests⟩ := hanswer
  refine (ensures_expandRead (lawful_process _) houtside hsits' hwaits hrests fun hfinal => ?_).mono
    fun r e' h => h.after hfollows
  exact hvalues (hfollows.isFinal_back he hfinal)

def Regime.world (R : Regime) : World where
  allows := noFault
  Sound e := e.Sound R
  Fits e d := (R.stock e).Fits d
  Yields e nodes e' := e.Yields R nodes e'
  readable h := h.stores.readable
  fits h hd := h.follows.le.fits _ hd
  sound h := h.sound
  leaves := .leaves
  earlier h hyields := hyields.after h.follows
  later hyields h := hyields.later (h.sound hyields.sound) h.follows
  append h h' := h.append h'
  same h hsame := h.same hsame
  paragraph span h := h.paragraph span
  modifier := Regime.lives

end MacroMarkup
