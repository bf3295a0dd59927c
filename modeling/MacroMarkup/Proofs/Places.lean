import MacroMarkup.Proofs.Balance
import MacroMarkup.Proofs.Nesting

/-!
# The places of a parse

A parse comes to many places: it reads constructs, one inside another, and walks over what
modifiers stand for, which asks for further walks.  What a regime asks for holds at all of
them if it holds at the start.

* `Reader.Gets`: nodes were read by one of the constructs.
* `Modifier.OpensAt`, `Modifier.ClosesAt`: a modifier that was read, at its body and behind it.
* `Context.Reads`, `Context.Walks`: the places where a parse reads, and its walks.
* `Modifier.Lasts`: what a regime asks for of a modifier.
* `Processing.Stands`: what it keeps where it is decided what a modifier stands for.
* `Reads.sound`, `Walks.sound`: **what a regime asks for holds at all places of a parse.**
-/

namespace MacroMarkup

open Parse

/-! ### The places -/

/-- A construct was read between the two readers, and ended with these nodes. -/
inductive Reader.Gets (r : Reader) : List Node → Reader → Prop
  | modifier {fuel : Nat} {kind : ModifierKind} {m : Modifier} {continues : Bool} {r' : Reader} :
      r.cursor.peek kind.opening.text = true →
      readModifier fuel kind r = .ok ((m, continues), r') → r.Gets [.modifier m] r'
  | inlineBody {fuel : Nat} {d : Definition} {nodes : List Node} {continues : Bool}
      {r' : Reader} :
      readInlineBody fuel d [] r = .ok ((nodes, continues), r') → r.Gets nodes r'
  | paragraph {fuel : Nat} {nodes : List Node} {r' : Reader} :
      readParagraph fuel [] r = .ok (nodes, r') → r.Gets nodes r'
  | block {fuel : Nat} {nodes : List Node} {r' : Reader} :
      readBlock fuel r = .ok (nodes, r') → r.Gets nodes r'
  | group {fuel : Nat} {nodes : List Node} {r' : Reader} :
      readGroup fuel [] r = .ok (nodes, r') → r.Gets nodes r'
  | body {fuel : Nat} {kind : ModifierKind} {head : Head} {nodes : List Node} {continues : Bool}
      {r' : Reader} :
      readBody fuel kind head r = .ok ((nodes, continues), r') → r.Gets nodes r'

/-- The head of a modifier was read from `r` on, and the point before its body is passed; the
body is read from `r'` on. -/
def Modifier.OpensAt (m : Modifier) (r : Reader) (state : m.definition.behaviour.lifecycle.State)
    (r' : Reader) : Prop :=
  ∃ kind head r₁ opened, readHead kind r = .ok (head, r₁) ∧ head.modifier = m ∧
    Expand.reporting (m.definition.behaviour.lifecycle.beforeContent m r₁.engine.immediate)
      r₁.engine = .ok (state, opened) ∧
    r' = { r₁ with engine := opened.inBody m.definition.delaysContent }

/-- The body of a modifier was read too, and the point behind it is passed; it is not left
alone. -/
def Modifier.ClosesAt (m : Modifier) (r : Reader) (state : m.definition.behaviour.lifecycle.State)
    (span : Span) (content : List Node) (state' : m.definition.behaviour.lifecycle.State)
    (e : Engine) : Prop :=
  ∃ r', r.Gets content r' ∧ span.start ≤ m.head.stop ∧
    Expand.inContext (m.definition.behaviour.lifecycle.afterContent state)
      { r'.engine with delayDepth := r'.engine.delayDepth - m.definition.delaysContent.toNat }
      = .ok (state', e) ∧
    (!e.immediate && !m.definition.alwaysExpands) = false

namespace Context

inductive Reads (cx : Context) : Reader → Prop
  | start (source : String) (inspectors : List Inspector) :
      cx.Reads (.start cx source inspectors)
  /-- Behind marks and text. -/
  | scan {r r' : Reader} : cx.Reads r → r.Scans r' → cx.Reads r'
  /-- In a group, and behind it. -/
  | grouped {r : Reader} (openGroups : Nat) : cx.Reads r →
      cx.Reads { r with openGroups := openGroups }
  /-- Behind a construct. -/
  | behind {r r' : Reader} {nodes : List Node} : cx.Reads r → r.Gets nodes r' → cx.Reads r'
  /-- At the body of a modifier. -/
  | body {m : Modifier} {r r' : Reader} {state : m.definition.behaviour.lifecycle.State} :
      cx.Reads r → m.OpensAt r state r' → cx.Reads r'

inductive Walks (cx : Context) : Visit → Prop
  /-- Over what a modifier that was read stands for. -/
  | read {m : Modifier} {r r' : Reader} {state state' : m.definition.behaviour.lifecycle.State}
      {span : Span} {content : List Node} {e inside : Engine} {P : Processing} :
      cx.Reads r → m.OpensAt r state r' → m.ClosesAt r' state span content state' e →
      Modifier.Decides { m with span := span, content := content } state' e P →
      P.Starts inside → cx.Walks ⟨e.levels, P.nodes, inside⟩
  /-- What a walk asks for. -/
  | asked {v w : Visit} {entered : List Processing} : cx.Walks v → v.Asks entered w → cx.Walks w

end Context

/-! ### What holds at the places -/

theorem Context.Readable.any {allows : Fault → Prop} {F : Definition → Prop} {cx : Context}
    (h : cx.Readable allows F) : cx.Readable anyFault F where
  registered kind := (h.registered kind).mono fun _ hd => ⟨fun _ => trivial, hd.2⟩
  unknown := h.unknown
  marked := h.marked.mono fun _ _ => ⟨fun _ => trivial, fun _ => trivial⟩
  macros _ _ := trivial

/-- The same world, which puts up with any fault. -/
def World.tolerant (W : World) : World where
  allows := anyFault
  Sound := W.Sound
  Fits := W.Fits
  Yields := W.Yields
  readable he := (W.readable he).any
  fits := W.fits
  sound := W.sound
  leaves := W.leaves
  earlier := W.earlier
  later := W.later
  append := W.append
  same := W.same
  paragraph := W.paragraph
  modifier he hfits hplaced hcontent hwaits hvalues := by
    refine (W.modifier he hfits hplaced hcontent hwaits hvalues).any.mono ?_
    intro state opened hanswer
    obtain ⟨hopened, hclose⟩ := hanswer
    refine ⟨hopened, fun content later span hlater hspan => ?_⟩
    exact (hclose content later span hlater hspan).any.mono fun _ _ h => h.any

/-- **What reading a construct leaves behind**, in any world. -/
theorem Reader.Gets.yields {W : World} {r r' : Reader} {nodes : List Node}
    (h : r.Gets nodes r') (he : W.Sound r.engine) : W.Yields r.engine nodes r'.engine := by
  have laws : ∀ fuel, Constructs W.tolerant fuel := constructs W.tolerant
  have tolerates : ∀ {p : Prop}, W.tolerant.allows .outOfFuel ∨ p := .inl trivial
  cases h with
  | modifier hpeek hrun =>
    exact (((laws _).modifier _ r he hpeek tolerates).of_ok hrun).1.yields
  | inlineBody hrun => exact (((laws _).inlineBody _ [] r he tolerates).of_ok hrun).1.yields.yields
  | paragraph hrun => exact (((laws _).paragraph [] r he tolerates).of_ok hrun).1.yields.yields
  | block hrun => exact (((laws _).block r he tolerates).of_ok hrun).1.yields
  | group hrun => exact (((laws _).group [] r he tolerates).of_ok hrun).1.yields.yields
  | body hrun => exact (((laws _).body _ _ r he tolerates).of_ok hrun).1.yields

structure Visit.Sound (R : Regime) (v : Visit) : Prop where
  sound : v.engine.Sound R
  keeps : ∀ n ∈ v.nodes, (R.stock v.engine).Keeps n

/-- What a regime asks for of a modifier at a point of its life: it sits in a sound engine and
waits, and if visits are final its arguments have values. -/
structure Modifier.Lasts (R : Regime) (m : Modifier) (e : Engine) : Prop where
  sound : e.Sound R
  sits : (R.stock e).Sits m
  waits : m.expansion = none
  values : e.IsFinal → ∀ a ∈ m.arguments, a.value.isSome = true

section Places

variable {R : Regime} {e : Engine} {m : Modifier}

theorem Visit.Meets.sound {v : Visit} {levels : Nat} {node : Node} (h : v.Meets levels node e)
    (hv : v.Sound R) : e.Sound R ∧ (R.stock e).Keeps node := by
  obtain ⟨-, before, after, walked, hnodes, hbefore⟩ := h
  have hkeeps : ∀ n ∈ before ++ node :: after, (R.stock v.engine).Keeps n := hnodes ▸ hv.keeps
  have hyields := (lawful_processEach (lawful_process levels) v.engine before hv.sound
    fun n hn => hkeeps n (List.mem_append_left _ hn)).of_ok hbefore
  refine ⟨hyields.sound, hyields.follows.le.keeps node (hkeeps node ?_)⟩
  exact List.mem_append_right _ List.mem_cons_self

theorem Modifier.Lasts.of_readHead {r r' : Reader} {kind : ModifierKind} {head : Head}
    (hrun : readHead kind r = .ok (head, r')) (he : r.engine.Sound R) :
    head.modifier.Lasts R r'.engine := by
  obtain ⟨hscans, -, -, hmade⟩ := (ensures_readHead he.stores.readable).of_ok hrun
  refine ⟨hscans.reports.sound he, ⟨?_, hmade.whole ▸ hmade.placed, fun n hn => ?_⟩, hmade.waits,
    fun hfinal => hmade.values (hscans.reports.isFinal_back hfinal)⟩
  · exact hscans.reports.follows.le.fits _ hmade.fits
  · rw [hmade.content] at hn
    cases hn

theorem Modifier.Lasts.of_expandArguments {arguments : List Argument} {e' : Engine}
    (hrun : expandArguments m.arguments e = .ok (arguments, e')) (hwaits : m.expansion = none)
    (he : e.Sound R) (hm : (R.stock e).Keeps (.modifier m)) :
    Modifier.Lasts R { m with arguments := arguments } e' := by
  obtain ⟨⟨hreports, -⟩, -, hvalues⟩ := (@ensures_expandArguments anyFault m.arguments e
    fun _ _ => trivial).of_ok hrun
  have hsits : (R.stock e).Sits m := (Stock.sits_iff hwaits).mpr hm
  refine ⟨hreports.sound he, ⟨?_, hsits.placed, fun n hn => ?_⟩, hwaits,
    fun hfinal => hvalues (hreports.isFinal_back hfinal)⟩
  · exact hreports.follows.le.fits _ hsits.fits
  · exact hreports.follows.le.keeps n (hsits.content n hn)

theorem Modifier.Lasts.opens {state : m.definition.behaviour.lifecycle.State} {opened : Engine}
    (h : m.Lasts R e) (hrun : Expand.reporting
      (m.definition.behaviour.lifecycle.beforeContent m e.immediate) e = .ok (state, opened)) :
    e.Opens R m.definition state opened :=
  (ensures_beforeContent _ h.sound h.sits).of_ok hrun

theorem Engine.Opens.keeps {state : m.definition.behaviour.lifecycle.State} {opened : Engine}
    (h : e.Opens R m.definition state opened) (hm : (R.stock e).Sits m) :
    ∀ n ∈ m.content, (R.stock opened).Keeps n := by
  have hle := Engine.stock_le (R := R) (Nat.le_of_eq h.refusals.symm)
    (Nat.le_of_eq h.anticipations.symm)
  exact fun n hn => hle.keeps n (hm.content n hn)

theorem Engine.Opens.walks {state : m.definition.behaviour.lifecycle.State} {levels : Nat}
    {content : List Node} {opened closed : Engine}
    (h : e.Opens R m.definition state opened) (hm : (R.stock e).Sits m)
    (hrun : walkContent (process levels) m opened = .ok (content, closed)) :
    (opened.inBody m.definition.delaysContent).Yields R content
      (closed.inBody m.definition.delaysContent) :=
  (ensures_walkContent (lawful_process levels) h.sound (h.keeps hm)).of_ok hrun

theorem Modifier.Opens.lasts {arguments : List Argument}
    {state : m.definition.behaviour.lifecycle.State} {opened : Engine}
    (h : m.Opens e arguments state opened) (he : e.Sound R)
    (hm : (R.stock e).Keeps (.modifier m)) :
    ∃ e' : Engine, Modifier.Lasts R { m with arguments := arguments } e' ∧
      e'.Opens R m.definition state opened := by
  obtain ⟨hwaits, e', harguments, -, hopened⟩ := h
  have hlasts := Modifier.Lasts.of_expandArguments harguments hwaits he hm
  exact ⟨e', hlasts, hlasts.opens hopened⟩

/-- What a regime keeps where it was decided at `e` what a modifier stands for. -/
structure Processing.Stands (R : Regime) (e : Engine) (P : Processing) : Prop where
  delayDepth : P.engine.delayDepth = e.delayDepth
  le : (R.stock e).Le (R.stock P.engine)
  agrees : e.context.Agrees P.engine.context
  nodes : ∀ n ∈ P.nodes, (R.stock e).Keeps n
  processing : P.modifier.definition.behaviour.lifecycle.KeepsProcessing (R.stock e) P.modifier
    P.state P.engine.context

theorem Modifier.Decides.stands {state : m.definition.behaviour.lifecycle.State} {P : Processing}
    (h : m.Decides state e P) (he : e.Sound R) (hm : (R.stock e).Sits m)
    (hstate : m.definition.behaviour.Rests state) : P.Stands R e := by
  cases h with
  | @intro prepared decided outcome between later hprepare hexpand hdefer =>
    have hprepared : Ensures noFault
        (Expand.reporting (m.definition.behaviour.lifecycle.prepare m state e.immediate)) e
        fun prepared between => Ensures noFault (Expand.inContext
          (m.definition.behaviour.lifecycle.expand m prepared e.immediate)) between
          fun d later => Processing.Stands R e ⟨m, d.2, d.1.nodes m, later⟩ := by
      rw [ensures_reporting]
      refine (ensures_decision he hm hstate).mono fun answer between hanswer => ?_
      rw [ensures_inContext]
      refine hanswer.mono fun d cx hd => ?_
      obtain ⟨⟨-, hagrees, hnodes, hprocessing⟩, -⟩ := hd
      exact ⟨rfl, Engine.stock_le (Nat.le_refl _) (Nat.le_refl _), hagrees, hnodes, hprocessing⟩
    exact (hprepared.of_ok hprepare).of_ok hexpand

theorem Processing.Stands.walk {P : Processing} {levels : Nat} {inside : Engine}
    (h : P.Stands R e) (hstarts : P.Starts inside) (he : e.Sound R) :
    Visit.Sound R ⟨levels, P.nodes, inside⟩ := by
  obtain ⟨-, state', context, hbefore, rfl⟩ := hstarts
  obtain ⟨hinside, hnone, -⟩ := h.processing.of_ok hbefore
  refine ⟨⟨hinside.mono h.le, fun hdelaying hzero => hnone ?_⟩,
    fun n hn => h.le.keeps n (h.nodes n hn)⟩
  exact (he.tight hdelaying (h.delayDepth ▸ hzero)).of_agrees h.agrees

/-- What a walk asks for is again such a walk. -/
theorem Visit.Asks.sound {v w : Visit} {entered : List Processing} (h : v.Asks entered w)
    (hv : v.Sound R) : w.Sound R := by
  cases h with
  | paragraph hmet =>
    obtain ⟨he, hkeeps⟩ := hmet.sound hv
    exact ⟨he, ((R.stock _).paragraph _ _).mp hkeeps⟩
  | @content levels m e arguments state opened hmet hopens _ =>
    obtain ⟨he, hkeeps⟩ := hmet.sound hv
    obtain ⟨e', hlasts, ho⟩ := hopens.lasts he hkeeps
    exact ⟨ho.sound, ho.keeps (m := { m with arguments := arguments }) hlasts.sits⟩
  | @replacement levels m e P inside hmet hprocesses hstarts =>
    obtain ⟨he, hkeeps⟩ := hmet.sound hv
    obtain ⟨arguments, state, opened, content, closed, state', later, hopens, hcontent, hafter,
      hdecides⟩ := hprocesses
    obtain ⟨e', hlasts, ho⟩ := hopens.lasts he hkeeps
    have hyields := ho.walks (m := { m with arguments := arguments }) hlasts.sits hcontent
    obtain ⟨hlater, hfollows, hkept, hrests⟩ :=
      (ensures_afterContent hlasts.sound ho hyields.sound hyields.follows).of_ok hafter
    have hsits : (R.stock later).Sits { m with arguments := arguments, content := content } :=
      ⟨hfollows.le.fits _ hlasts.sits.fits, hlasts.sits.placed,
        fun n hn => hkept.keeps n (hyields.keeps n hn)⟩
    exact (hdecides.stands hlater hsits hrests).walk hstarts hlater

theorem Modifier.OpensAt.lasts {r r' : Reader} {state : m.definition.behaviour.lifecycle.State}
    (h : m.OpensAt r state r') (he : r.engine.Sound R) :
    ∃ e' opened : Engine, m.Lasts R e' ∧ e'.Opens R m.definition state opened ∧
      r'.engine = opened.inBody m.definition.delaysContent := by
  obtain ⟨kind, head, r₁, opened, hhead, rfl, hopened, rfl⟩ := h
  have hlasts := Modifier.Lasts.of_readHead hhead he
  exact ⟨r₁.engine, opened, hlasts, hlasts.opens hopened, rfl⟩

/-- **What a regime asks for holds wherever a parse reads**, if it holds at the start. -/
theorem Context.Reads.sound {cx : Context} {r : Reader} (h : cx.Reads r)
    (hcx : (Engine.start cx).Sound R) : r.engine.Sound R := by
  induction h with
  | start source inspectors => exact hcx
  | scan _ hscans ih => exact hscans.reports.sound ih
  | grouped _ _ ih => exact ih
  | behind _ hgets ih => exact (hgets.yields (W := R.world) ih).sound
  | body _ hopens ih =>
    obtain ⟨e', opened, -, ho, hbody⟩ := hopens.lasts ih
    rw [hbody]
    exact ho.sound

/-- **What a regime asks for holds at all walks of a parse**, if it holds at the start. -/
theorem Context.Walks.sound {cx : Context} {v : Visit} (h : cx.Walks v)
    (hcx : (Engine.start cx).Sound R) : v.Sound R := by
  induction h with
  | read hreads hopens hcloses hdecides hstarts =>
    obtain ⟨e', opened, hlasts, ho, hbody⟩ := hopens.lasts (hreads.sound hcx)
    obtain ⟨r'', hgets, hspan, hafter, -⟩ := hcloses
    have hyields := hgets.yields (W := R.world) (hbody ▸ ho.sound)
    rw [hbody] at hyields
    obtain ⟨he, hfollows, hkept, hrests⟩ :=
      (Regime.closes hlasts.sound hlasts.sits.fits ho hyields hspan).of_ok hafter
    exact (hdecides.stands he hkept hrests).walk hstarts he
  | asked _ hasks ih => exact hasks.sound ih

end Places

end MacroMarkup
