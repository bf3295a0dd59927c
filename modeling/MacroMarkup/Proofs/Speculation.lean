import MacroMarkup.Proofs.Defining
import MacroMarkup.Proofs.Steady

/-!
# What speculative visits report

A modifier in a body that is read for later is visited when the body is read, and again
whenever the body is walked for later; such visits are to be silent, as the modifier is
visited once more when the body is used.  They are, but for two problems: a definition without
arguments and a slot whose name is empty are reported at every visit.

* `Builtin.idle_start`: fresh contexts over the modifiers that come with the language.
* `reported_beforeContent`, `reported_prepare`: what the points of a lifecycle report at a visit
  that is not immediate.
* `walked_once`: a visit that is final is the last one that does anything.
* `speculative_visits_report`: **what is reported for a body that is read for later, and that it
  is all reported once when the body is used.**
-/

namespace MacroMarkup

open Parse

/-- In a fresh context over the modifiers that come with the language, they are ordinary and
no invocation is being processed. -/
theorem Builtin.idle_start {plain : Prop} {limit : Nat} {bindings : Dict String}
    {cx : Context}
    (hcx : Context.start { Builtin.configuration with depthLimit := limit } bindings = .ok cx) :
    cx.Stores (.ordinary plain) ∧ cx.NoFrames := by
  obtain ⟨hstores, hmacros⟩ := Builtin.ordinary_start hcx
  refine ⟨hstores, fun kind => ?_⟩
  rw [Context.frames_of_macros hmacros]
  cases kind <;> rfl

/-- A parse keeps modifiers ordinary, and leaves no invocation open. -/
theorem Context.NoFrames.parse {plain : Prop} {cx : Context} (hcx : cx.Stores (.ordinary plain))
    (hnone : cx.NoFrames) (source : String) :
    ∃ d, cx.parse source = .ok d ∧ d.context.Stores (.ordinary plain) ∧ d.context.NoFrames := by
  have he : (Engine.start cx).Sound (.ordinary plain) :=
    ⟨hcx.mono (Stock.ordinary_le plain _), fun h => h.elim⟩
  obtain ⟨d, e, hd, hyields, hcontext, -⟩ := ensures_read he source []
  obtain ⟨s, hs, -⟩ := hcx.macros
  obtain ⟨s', hs', hopen⟩ := hyields.follows.agrees s hs
  refine ⟨d, hd, ?_, fun kind => ?_⟩
  · rw [hcontext]
    exact hyields.sound.stores.mono (Regime.ordinary_le plain e)
  · have hframes := hnone kind
    rw [Context.frames_of_macros hs] at hframes
    rw [hcontext, Context.frames_of_macros hs', hopen.frames kind, hframes]

section Visits

variable {plain : Prop} {cx : Context} {m : Modifier}

/-- Before its content, at a visit that is not immediate, a modifier reports just this. -/
theorem reported_beforeContent (hcx : cx.Stores (.ordinary plain))
    {r : m.definition.behaviour.lifecycle.State × List Message} {inside : Context}
    (hrun : m.definition.behaviour.lifecycle.beforeContent m false cx = .ok (r, inside)) :
    r.2 = m.definition.behaviour.opensWith m := by
  obtain ⟨s, hs, -⟩ := hcx.macros
  exact ((returns m.definition.behaviour cx s m hs).of_ok hrun).1

theorem reported_prepare (hcx : cx.Stores (.ordinary plain))
    (hahead : m.definition.behaviour.GoesAhead plain) (hplaced : m.span.start ≤ m.head.stop)
    {state : m.definition.behaviour.lifecycle.State}
    {r : m.definition.behaviour.lifecycle.State × List Message} {between : Context}
    (hrun : m.definition.behaviour.lifecycle.prepare m state false cx = .ok (r, between)) :
    r.2 = m.definition.behaviour.triedWith m := by
  obtain ⟨s, hs, -⟩ := hcx.macros
  exact ((idles hahead cx s m state hs hplaced).of_ok hrun).2.1

/-- **What was walked in final visits is done**: if nothing was refused, another walk over what
became of the nodes changes nothing and reports nothing, unless it is refused itself. -/
theorem walked_once {e : Engine} {nodes : List Node} (hcx : e.context.Stores (.ordinary plain))
    (hfinal : e.IsFinal) (hnodes : ∀ n ∈ nodes, (Stock.ordinary plain).Keeps n) (levels : Nat) :
    ∃ walked complete e', process levels nodes e = .ok ((walked, complete), e') ∧
      (e'.refusals = e.refusals → ∀ (again : Nat) (later : Engine), ∃ complete' later',
        process again walked later = .ok ((walked, complete'), later') ∧
          later'.context = later.context ∧ later'.emitted = later.emitted) := by
  have he : e.Sound (.ordinary plain) :=
    ⟨hcx.mono (Stock.ordinary_le plain e), fun h => h.elim⟩
  obtain ⟨⟨walked, complete⟩, e', hrun, hyields⟩ := (lawful_process levels e nodes he
    fun n hn => (Stock.ordinary_le plain e).keeps n (hnodes n hn)).exists_ok
  refine ⟨walked, complete, e', hrun, fun hsame again later => ?_⟩
  obtain ⟨⟨nodes', complete'⟩, later', hrun', rfl, hrefuses⟩ :=
    (steady_process again later walked (hyields.settled hfinal hsame)).exists_ok
  refine ⟨complete', later', hrun', ?_, ?_⟩
  · rw [hrefuses.same]
  · rw [hrefuses.same]

end Visits

/-- What is reported for a body that is read for later, at the points where the context is
`cx`. -/
structure Context.ReportsLate (cx : Context) : Prop where
  beforeContent : ∀ (m : Modifier) (r : m.definition.behaviour.lifecycle.State × List Message)
    (inside : Context),
      m.definition.behaviour.lifecycle.beforeContent m false cx = .ok (r, inside) →
      r.2 = m.definition.behaviour.opensWith m
  prepare : ∀ (m : Modifier) (state : m.definition.behaviour.lifecycle.State)
    (r : m.definition.behaviour.lifecycle.State × List Message) (between : Context),
    m.definition.behaviour.GoesAhead False → m.span.start ≤ m.head.stop →
      m.definition.behaviour.lifecycle.prepare m state false cx = .ok (r, between) →
        r.2 = m.definition.behaviour.triedWith m
  /-- A body is walked for later, whatever invocations are being processed. -/
  walks : ∀ (e : Engine) (levels : Nat) (nodes : List Node), e.context = cx →
    e.immediate = false → (∀ n ∈ nodes, (Stock.ordinary False).Keeps n) →
      ∃ answer e', process levels nodes e = .ok (answer, e') ∧ e.Tells Problem.Hasty e'
  /-- A body that was walked when it is used is not visited again. -/
  once : ∀ (e : Engine) (levels : Nat) (nodes : List Node), e.context = cx → e.IsFinal →
    (∀ n ∈ nodes, (Stock.ordinary False).Keeps n) →
      ∃ walked complete e', process levels nodes e = .ok ((walked, complete), e') ∧
        (e'.refusals = e.refusals → ∀ (again : Nat) (later : Engine), ∃ complete' later',
          process again walked later = .ok ((walked, complete'), later') ∧
            later'.context = later.context ∧ later'.emitted = later.emitted)
  /-- What stands in a body is read for later. -/
  reads : cx.NoFrames → ∀ (r : Reader) (fuel : Nat) (place : ModifierKind) (head : Head),
    r.engine.context = cx → r.engine.immediate = false → 8 * r.left + 4 ≤ fuel →
      ∃ answer r', readBody fuel place head r = .ok (answer, r') ∧
        r.engine.Tells (fun p => p.isSyntactic = true ∨ p.Hasty) r'.engine
  /-- A definition is read with its body. -/
  defines : cx.NoFrames → ∀ (r : Reader) (fuel : Nat) (place : ModifierKind),
    r.engine.context = cx → r.engine.immediate = true →
      r.cursor.peek place.opening.text = true → 8 * r.left ≤ fuel →
        ∃ m continues r', readModifier fuel place r = .ok ((m, continues), r') ∧
          ∀ kind, m.definition.behaviour = .define kind →
            r.engine.Tells (fun p => (p.isSyntactic = true ∨ p.Hasty) ∨
              (∃ name, p = .undefinedVariable name) ∨ p.OfDefinition) r'.engine

theorem reportsLate {cx : Context} (hcx : cx.Stores (.ordinary False)) : cx.ReportsLate := by
  have hearly : ∀ p : Problem, p.Early False → p.isSyntactic = true ∨ p.Hasty :=
    fun p hp => hp.imp_right fun h => h.resolve_right fun hdeep => hdeep.1
  have hsound : ∀ e : Engine, e.context = cx → e.Sound (.ordinary False) := by
    rintro e rfl
    exact ⟨hcx.mono (Stock.ordinary_le False e), fun h => h.elim⟩
  refine {
    beforeContent := fun m r inside => reported_beforeContent hcx
    prepare := fun m state r between hahead hplaced => reported_prepare hcx hahead hplaced
    walks := fun e levels nodes he hlater hnodes => ?_
    once := ?_
    reads := fun hnone r fuel place head hr hlater hfuel => ?_
    defines := ?_ }
  · have hkept : ∀ n ∈ nodes, ((Regime.ordinary False).stock e).Keeps n :=
      fun n hn => (Stock.ordinary_le False e).keeps n (hnodes n hn)
    obtain ⟨answer, e', hrun, -, hidles⟩ := ((lawful_process levels e nodes (hsound e he) hkept).and
      (idle_process False levels e nodes (hsound e he) hlater hkept)).exists_ok
    exact ⟨answer, e', hrun, hidles.tells⟩
  · rintro e levels nodes rfl hfinal hnodes
    exact walked_once hcx hfinal hnodes levels
  · have hbody : (World.ahead False).Sound r.engine :=
      ⟨hsound r.engine hr, hlater, .inr (hr ▸ hnone)⟩
    obtain ⟨answer, r', hrun, ⟨-, ⟨-, hidles, -⟩, -⟩, -⟩ :=
      ((constructs (.ahead False) fuel).body place head r hbody (.inr hfuel)).exists_ok
    exact ⟨answer, r', hrun, hidles.tells.mono hearly⟩
  · rintro hnone r fuel place rfl himmediate hnext hfuel
    have hzero : r.engine.delayDepth = 0 := by simpa [Engine.immediate] using himmediate
    have hreads := (constructs (Regime.ordinary False).world fuel).modifier place r
      (hsound r.engine rfl) hnext (.inr hfuel)
    have htells := ensures_readModifier_define hcx (.inr hnone) hzero hnext hfuel
    obtain ⟨⟨m, continues⟩, r', hrun, -, h⟩ := (hreads.and htells).exists_ok
    exact ⟨m, continues, r', hrun, fun kind hkind =>
      (h kind hkind).2.mono fun p hp => hp.imp_left (hearly p)⟩

/-- **What speculative visits report.**  Whatever documents were parsed before in a context over
the modifiers of the language, the points of a lifecycle are silent at a visit that is not
immediate, but for a definition without arguments and for a slot whose name is empty.  So a
definition that is read contributes what is wrong with how it and its body are written, what is
wrong with the definition itself, and these two problems for what stands in its body; a later
visit that is not immediate contributes the two again, and a final visit reports all that there
is to report, once. -/
theorem speculative_visits_report {limit : Nat} {bindings : Dict String} {cx : Context}
    (hcx : Context.start { Builtin.configuration with depthLimit := limit } bindings = .ok cx) :
    (cx.Stores (.ordinary False) ∧ cx.NoFrames) ∧
    (∀ (before : Context) (source : String), before.Stores (.ordinary False) → before.NoFrames →
      ∃ d, before.parse source = .ok d ∧ d.context.Stores (.ordinary False) ∧
        d.context.NoFrames) ∧
    ∀ reached : Context, reached.Stores (.ordinary False) → reached.ReportsLate :=
  ⟨Builtin.idle_start hcx, fun _ source hstores hnone => hnone.parse hstores source,
    fun _ => reportsLate⟩

/-- A definition that is never used, with a definition without arguments and a slot without a
name in its body: both are reported. -/
theorem speculative_visits_report_hasty :
    ∃ cx d, Context.start { Builtin.configuration with depthLimit := 16 } .empty = .ok cx ∧
      cx.Stores (.ordinary False) ∧ cx.NoFrames ∧ cx.ReportsLate ∧
      cx.parse "[-define-block p][-define-block][.slot:]" = .ok d ∧ d.context.ReportsLate ∧
      d.messages.map (·.code) = [4, 6] := by
  obtain ⟨cx, hcx⟩ : ∃ cx,
    Context.start { Builtin.configuration with depthLimit := 16 } .empty = .ok cx := ⟨_, rfl⟩
  obtain ⟨⟨hstores, hnone⟩, hparses, hreports⟩ := speculative_visits_report hcx
  obtain ⟨d, hd, hstores', -⟩ := hparses cx "[-define-block p][-define-block][.slot:]" hstores hnone
  have hcodes : ((Context.start { Builtin.configuration with depthLimit := 16 } .empty).bind
      fun cx => cx.parse "[-define-block p][-define-block][.slot:]").toOption.map
        (·.messages.map (·.code)) = some [4, 6] := by
    decide +kernel
  rw [hcx, Except.bind, hd] at hcodes
  exact ⟨cx, d, hcx, hstores, hnone, hreports cx hstores, hd, hreports d.context hstores',
    Option.some.inj hcodes⟩

end MacroMarkup
