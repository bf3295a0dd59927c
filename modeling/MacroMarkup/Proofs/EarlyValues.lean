import MacroMarkup.Proofs.Evaluation

/-!
# Arguments that are evaluated early

In a body that is read for later an argument is evaluated as far as it can be, and keeps what
it came to: its value, or the values of the interpolations in front of the first one that has
none yet.  These may stand inside one another, and the value of the inner one is the name that
the outer one looks up.  However often that happens, the visit at which the argument is needed
finds what it would have found without.

* `Context.BindsAs`: two contexts in which every name is bound to the same value.
* `Engine.IsSettled`: a visit at this place is immediate, and no definition is being read.
* `settled_argument`: there an argument has a value, and only unbound names are reported.
* `Argument.Rehearsed`: what is left of an argument behind early evaluations.
* `Rehearses`: what an early evaluation leaves runs as what was there before.
* `rehearses_argument`: the law of one early evaluation, by the cases of the evaluation.
* `rehearsed_argument_agrees`: the law of any number of them.
-/

namespace MacroMarkup

/-! ### Contexts that bind the same -/

/-- Every name is bound to the same value in both contexts: the variables are the same, and so
are the invocations that are being processed.  The definitions that are being read may
differ. -/
structure Context.BindsAs (cx cx' : Context) : Prop where
  bindings : ∀ name, cx.bindings.get? name = cx'.bindings.get? name
  frames : ∀ kind, cx.macros.map (·.frames kind) = cx'.macros.map (·.frames kind)

/-- A visit at this place is immediate, and no definition is being read. -/
structure Engine.IsSettled (e : Engine) : Prop where
  immediate : e.immediate = true
  delayed : ∀ s, e.context.macros = .ok s → ∀ kind, s.delayed kind = []

section Resolving

variable {cx cx' : Context} {s s' : MacroState} {name text : String}

theorem Context.BindsAs.binding? (h : cx.BindsAs cx') (hs : cx.macros = .ok s)
    (hs' : cx'.macros = .ok s') (name : String) : cx.binding? s name = cx'.binding? s' name := by
  have hframes : ∀ kind, s.frames kind = s'.frames kind := by
    intro kind
    have hkind : Except.ok (s.frames kind) = (Except.ok (s'.frames kind) : Except Fault _) := by
      simpa [hs, hs', Except.map] using h.frames kind
    exact Except.ok.inj hkind
  have hinline : s.inlineFrames = s'.inlineFrames := hframes .inline
  have hblock : s.blockFrames = s'.blockFrames := hframes .block
  simp only [Context.binding?, hinline, hblock, h.bindings name]

theorem Context.isPending_of_delayed (h : ∀ kind, s.delayed kind = []) (name : String) :
    Context.isPending s name = false := by
  have hblock : s.blockDelayed = [] := h .block
  have hinline : s.inlineDelayed = [] := h .inline
  simp [Context.isPending, hblock, hinline]

/-- A name that has a value while definitions are being read has it when none is. -/
theorem Context.BindsAs.resolve_value (h : cx.BindsAs cx')
    (hnone : ∀ s, cx'.macros = .ok s → ∀ kind, s.delayed kind = [])
    (hvalue : cx.resolve name = .ok (.value text)) : cx'.resolve name = .ok (.value text) := by
  cases hs : cx.macros with
  | error fault =>
    rw [Context.resolve, hs] at hvalue
    cases hvalue
  | ok s =>
    cases hs' : cx'.macros with
    | error fault =>
      have hkind := h.frames .block
      rw [hs, hs'] at hkind
      cases hkind
    | ok s' =>
      have hbound : cx.binding? s name = some text := by
        simp only [Context.resolve, hs, bind, Except.bind] at hvalue
        by_cases hpending : Context.isPending s name = true
        · rw [if_pos hpending] at hvalue
          cases hvalue
        · rw [if_neg hpending] at hvalue
          cases hfound : cx.binding? s name with
          | none =>
            rw [hfound] at hvalue
            cases hvalue
          | some found =>
            rw [hfound] at hvalue
            cases hvalue
            rfl
      have hready := Context.isPending_of_delayed (hnone s' hs') name
      rw [h.binding? hs hs'] at hbound
      simp only [Context.resolve, hs', bind, Except.bind, hready, hbound]
      rfl

end Resolving

/-! ### Direct evaluation -/

/-- Reports names that nothing is bound to, each at its place. -/
def Engine.reportUnbound (e : Engine) (unbound : List (Span × String)) : Engine :=
  e.emit (unbound.map fun u => (Problem.undefinedVariable u.2).message u.1)

@[simp] theorem Engine.reportUnbound_context (e : Engine) (unbound : List (Span × String)) :
    (e.reportUnbound unbound).context = e.context := rfl

theorem Engine.reportUnbound_append (e : Engine) (unbound more : List (Span × String)) :
    (e.reportUnbound unbound).reportUnbound more = e.reportUnbound (unbound ++ more) := by
  rw [reportUnbound, reportUnbound, reportUnbound, emit_emit, List.map_append]

theorem Engine.IsSettled.reportUnbound {e : Engine} (he : e.IsSettled)
    (unbound : List (Span × String)) : (e.reportUnbound unbound).IsSettled :=
  ⟨he.immediate, he.delayed⟩

section Direct

variable {s : MacroState}

mutual

/-- **Where it is needed an argument has a value**, and nothing is reported but names that
nothing is bound to. -/
theorem settled_argument : ∀ (a : Argument) (e : Engine), e.IsSettled →
    e.context.macros = .ok s →
    Ensures noFault (expandArgument a) e fun r e' =>
      r.2.isSome = true ∧ ∃ unbound, e' = e.reportUnbound unbound
  | ⟨span, content, some known⟩, e, _, _ => by
    rw [expandArgument, ensures_pure]
    exact ⟨rfl, [], rfl⟩
  | ⟨span, content, none⟩, e, he, hs => by
    rw [expandArgument, ensures_bind]
    refine (settled_entities content e he hs).mono ?_
    rintro ⟨content', value⟩ e' hanswer
    exact hanswer

theorem settled_entities : ∀ (content : List Entity) (e : Engine), e.IsSettled →
    e.context.macros = .ok s →
    Ensures noFault (expandEntities content) e fun r e' =>
      r.2.isSome = true ∧ ∃ unbound, e' = e.reportUnbound unbound
  | [], e, _, _ => by
    rw [expandEntities, ensures_pure]
    exact ⟨rfl, [], rfl⟩
  | entity :: rest, e, he, hs => by
    rw [expandEntities, ensures_bind]
    refine (settled_entity entity e he hs).mono ?_
    rintro ⟨entity', first⟩ e' ⟨hfirst, unbound, rfl⟩
    obtain ⟨text, rfl⟩ := Option.isSome_iff_exists.mp hfirst
    rw [ensures_bind]
    refine (settled_entities rest _ (he.reportUnbound unbound) hs).mono ?_
    rintro ⟨rest', others⟩ e'' ⟨hothers, more, rfl⟩
    exact ⟨Option.isSome_map.trans hothers, unbound ++ more, e.reportUnbound_append unbound more⟩

theorem settled_entity : ∀ (entity : Entity) (e : Engine), e.IsSettled →
    e.context.macros = .ok s →
    Ensures noFault (expandEntity entity) e fun r e' =>
      r.2.isSome = true ∧ ∃ unbound, e' = e.reportUnbound unbound
  | .text span content, e, _, _ => by
    rw [expandEntity, ensures_pure]
    exact ⟨rfl, [], rfl⟩
  | .escaped span content, e, _, _ => by
    rw [expandEntity, ensures_pure]
    exact ⟨rfl, [], rfl⟩
  | .interpolation span interpolator argument (some known), e, _, _ => by
    rw [expandEntity, ensures_pure]
    exact ⟨rfl, [], rfl⟩
  | .interpolation span interpolator argument none, e, he, hs => by
    rw [expandEntity, ensures_bind]
    refine (settled_argument argument e he hs).mono ?_
    rintro ⟨argument', inner⟩ e' ⟨hinner, unbound, rfl⟩
    obtain ⟨name, rfl⟩ := Option.isSome_iff_exists.mp hinner
    have he' : (e.reportUnbound unbound).IsSettled := he.reportUnbound unbound
    simp only [ensures_bind, ensures_immediate, he'.immediate, Bool.not_true, Bool.false_and,
      Bool.false_eq_true, if_false, ensures_inContext]
    rw [Engine.reportUnbound_context, ensures_resolve hs]
    cases hname : e.context.resolution s name with
    | value text => exact ⟨rfl, unbound, rfl⟩
    | undefined =>
      exact ⟨rfl, unbound ++ [(span, name)], e.reportUnbound_append unbound [(span, name)]⟩
    | deferred => exact absurd hname (resolution_ne_deferred ⟨s, hs, he.delayed s hs⟩ hs name)

end

end Direct

/-! ### One early evaluation -/

/-- What is left of an argument when it was evaluated any number of times in bodies that are
read for later, while every name was bound as in `cx`. -/
inductive Argument.Rehearsed (cx : Context) (a : Argument) : Argument → Prop
  | untouched : Rehearsed cx a a
  | again {b c : Argument} {value : Option String} {f f' : Engine} (prior : Rehearsed cx a b)
      (later : f.immediate = false) (binds : f.context.BindsAs cx)
      (run : expandArgument b f = .ok ((c, value), f')) : Rehearsed cx a c

/-- Behind an early evaluation that turned `x` into `y`, `y` evaluates at `e` as `x` does; and
if a value was found, then it is the one that is found at `e`, where nothing is reported. -/
structure Rehearses {α : Type} (run : α → Expand (α × Option String)) (e : Engine) (x y : α)
    (value : Option String) : Prop where
  same : run y e = run x e
  known : ∀ text, value = some text → run x e = .ok ((y, some text), e)

/-- An evaluation that did not come to a value left something that evaluates as before. -/
theorem Rehearses.of_none {α : Type} {run : α → Expand (α × Option String)} {e : Engine}
    {x y : α} (h : run y e = run x e) : Rehearses run e x y none :=
  ⟨h, fun _ htext => by cases htext⟩

/-- A value that is found early is the one that is found at `e`, and is kept. -/
theorem Rehearses.of_some {α : Type} {run : α → Expand (α × Option String)} {e : Engine}
    {x y : α} {text : String} (hx : run x e = .ok ((y, some text), e))
    (hy : run y e = .ok ((y, some text), e)) : Rehearses run e x y (some text) := by
  refine ⟨hy.trans hx.symm, fun text' htext => ?_⟩
  cases htext
  exact hx

theorem expandArgument_again {b c : Argument} {text : String} {f f' : Engine}
    (h : expandArgument b f = .ok ((c, some text), f')) (g : Engine) :
    expandArgument c g = .ok ((c, some text), g) := by
  obtain ⟨span, content, value⟩ := b
  cases value with
  | some value =>
    cases h
    rfl
  | none =>
    rw [expandArgument] at h
    obtain ⟨⟨content', value'⟩, f₁, -, hpure⟩ := ok_of_bind h
    cases hpure
    rfl

section Early

variable {e f : Engine}

theorem expandEntity_of_value {span : Span} {interpolator : Interpolator}
    {argument argument' : Argument} {name text : String} (he : e.IsSettled)
    (hargument : expandArgument argument e = .ok ((argument', some name), e))
    (hname : e.context.resolve name = .ok (.value text)) :
    expandEntity (.interpolation span interpolator argument none) e
      = .ok ((.interpolation span interpolator argument' (some text), some text), e) := by
  have hresolve : Expand.inContext (Step.resolve name) e = .ok (.value text, e) := by
    simp only [Expand.inContext, Step.resolve, hname, bind, Except.bind, pure, Except.pure]
  rw [expandEntity]
  refine (bind_of_ok hargument).trans ((bind_of_ok (x := Expand.immediate) rfl).trans ?_)
  show (if (!e.immediate && !interpolator.alwaysExpands) = true then _ else _ : Expand _) e = _
  rw [he.immediate, Bool.not_true, Bool.false_and, if_neg Bool.false_ne_true]
  exact bind_of_ok hresolve

mutual

/-- **What an early evaluation leaves of an argument runs as the argument did**, and the
evaluation itself goes unnoticed. -/
theorem rehearses_argument (he : e.IsSettled) (hlater : f.immediate = false)
    (hbinds : f.context.BindsAs e.context) : ∀ (a : Argument),
    Ensures anyFault (expandArgument a) f fun r f' =>
      f' = f ∧ Rehearses expandArgument e a r.1 r.2
  | ⟨span, content, some known⟩ => by
    rw [expandArgument, ensures_pure]
    exact ⟨rfl, .of_some rfl rfl⟩
  | ⟨span, content, none⟩ => by
    rw [expandArgument, ensures_bind]
    refine (rehearses_entities he hlater hbinds content).mono ?_
    rintro ⟨content', value⟩ f' ⟨hsame, hrun⟩
    subst f'
    refine ⟨rfl, ?_⟩
    cases value with
    | none =>
      apply Rehearses.of_none
      rw [expandArgument, expandArgument]
      exact bind_congr_left hrun.same
    | some text =>
      have hdirect : expandArgument ⟨span, content, none⟩ e
          = .ok ((⟨span, content', some text⟩, some text), e) := by
        rw [expandArgument]
        exact bind_of_ok (hrun.known text rfl)
      exact .of_some hdirect (expandArgument_again hdirect e)

theorem rehearses_entities (he : e.IsSettled) (hlater : f.immediate = false)
    (hbinds : f.context.BindsAs e.context) : ∀ (content : List Entity),
    Ensures anyFault (expandEntities content) f fun r f' =>
      f' = f ∧ Rehearses expandEntities e content r.1 r.2
  | [] => by
    rw [expandEntities, ensures_pure]
    exact ⟨rfl, .of_some rfl rfl⟩
  | entity :: rest => by
    rw [expandEntities, ensures_bind]
    refine (rehearses_entity he hlater hbinds entity).mono ?_
    rintro ⟨entity', first⟩ f₁ ⟨hsame, hfirst⟩
    subst f₁
    cases first with
    | none =>
      refine ⟨rfl, .of_none ?_⟩
      rw [expandEntities, expandEntities]
      exact bind_congr_left hfirst.same
    | some text =>
      have hthis : expandEntity entity e = .ok ((entity', some text), e) := hfirst.known text rfl
      rw [ensures_bind]
      refine (rehearses_entities he hlater hbinds rest).mono ?_
      rintro ⟨rest', others⟩ f₂ ⟨hsame, hothers⟩
      subst f₂
      refine ⟨rfl, ?_, fun whole hwhole => ?_⟩
      · show expandEntities (entity' :: rest') e = expandEntities (entity :: rest) e
        rw [expandEntities, expandEntities, bind_of_ok hthis,
          bind_of_ok (hfirst.same.trans hthis)]
        exact bind_congr_left hothers.same
      · rw [expandEntities, bind_of_ok hthis]
        cases others with
        | none => cases hwhole
        | some tail =>
          cases hwhole
          exact bind_of_ok (hothers.known tail rfl)

theorem rehearses_entity (he : e.IsSettled) (hlater : f.immediate = false)
    (hbinds : f.context.BindsAs e.context) : ∀ (entity : Entity),
    Ensures anyFault (expandEntity entity) f fun r f' =>
      f' = f ∧ Rehearses expandEntity e entity r.1 r.2
  | .text span content => by
    rw [expandEntity, ensures_pure]
    exact ⟨rfl, .of_some rfl rfl⟩
  | .escaped span content => by
    rw [expandEntity, ensures_pure]
    exact ⟨rfl, .of_some rfl rfl⟩
  | .interpolation span interpolator argument (some known) => by
    rw [expandEntity, ensures_pure]
    exact ⟨rfl, .of_some rfl rfl⟩
  | .interpolation span interpolator argument none => by
    rw [expandEntity, ensures_bind]
    refine (rehearses_argument he hlater hbinds argument).mono ?_
    rintro ⟨argument', inner⟩ f₁ ⟨hsame, hinner⟩
    subst f₁
    -- the argument inside may have its value even if the interpolation has none
    have hunresolved : Rehearses expandEntity e (.interpolation span interpolator argument none)
        (.interpolation span interpolator argument' none) none := by
      apply Rehearses.of_none
      rw [expandEntity, expandEntity]
      exact bind_congr_left hinner.same
    simp only [ensures_bind, ensures_immediate]
    cases inner with
    | none => exact ⟨rfl, hunresolved⟩
    | some name =>
      simp only [ensures_ite]
      refine ⟨fun _ => ⟨rfl, hunresolved⟩, fun _ => ?_⟩
      rw [ensures_bind, ensures_inContext]
      cases hname : f.context.resolve name with
      | error fault =>
        simp only [Ensures, Step.resolve, hname, bind, Except.bind]
        exact trivial
      | ok found =>
        rw [ensures_of_eq (Step.resolve_of_ok hname)]
        cases found with
        | value text =>
          have hdirect : expandEntity (.interpolation span interpolator argument none) e
              = .ok ((.interpolation span interpolator argument' (some text), some text), e) :=
            expandEntity_of_value he (hinner.known name rfl)
              (hbinds.resolve_value he.delayed hname)
          exact ⟨rfl, .of_some hdirect rfl⟩
        | undefined =>
          rw [hlater, if_neg Bool.false_ne_true]
          exact ⟨rfl, hunresolved⟩
        | deferred => exact ⟨rfl, hunresolved⟩

end

end Early

/-! ### All of them -/

/-- Any number of early evaluations leave an argument that evaluates as the untouched one. -/
theorem Argument.Rehearsed.expandArgument_eq {a a' : Argument} {e : Engine} (he : e.IsSettled)
    (h : a.Rehearsed e.context a') : expandArgument a' e = expandArgument a e := by
  induction h with
  | untouched => rfl
  | @again b c value f f' prior later binds run ih =>
    have hone := (rehearses_argument he later binds b).of_ok run
    exact hone.2.same.trans ih

/-- **Evaluating an argument early agrees with evaluating it directly.**  Let `a'` be what is
left of `a` behind any number of evaluations in bodies that are read for later, while every
name stayed bound as it is at `e`.  Where the argument is needed, the run of `a'` is that of
`a`: it has the same value and leaves the same messages.  Such a run ends with a value, and
reports only names that nothing is bound to.  The early evaluations report nothing; and once an
argument has a value, it keeps it and nothing is reported any more. -/
theorem rehearsed_argument_agrees {a a' : Argument} {e : Engine} (he : e.IsSettled)
    (h : a.Rehearsed e.context a') :
    expandArgument a' e = expandArgument a e ∧
    (∀ s, e.context.macros = .ok s → ∃ c text unbound,
      expandArgument a' e = .ok ((c, some text), e.reportUnbound unbound)) ∧
    (∀ c value f f', f.immediate = false → expandArgument a' f = .ok ((c, value), f') →
      f' = f) ∧
    ∀ c text f f', expandArgument a' f = .ok ((c, some text), f') →
      ∀ g, expandArgument c g = .ok ((c, some text), g) := by
  refine ⟨h.expandArgument_eq he, ?_, ?_, ?_⟩
  · intro s hs
    obtain ⟨⟨c, value⟩, e', hrun, hvalue, unbound, rfl⟩ := (settled_argument a' e he hs).exists_ok
    obtain ⟨text, rfl⟩ := Option.isSome_iff_exists.mp hvalue
    exact ⟨c, text, unbound, hrun⟩
  · intro c value f f' hlater hrun
    have hevaluates := (ensures_expandArgument a' f fun _ _ => trivial).any.of_ok hrun
    exact hevaluates.1.quiet hlater
  · intro c text f f' hrun g
    exact expandArgument_again hrun g

/-- In `$(a$(x))$(y)` the first interpolation gets its value while `y` is a parameter of a
definition that is being read.  Where the argument is needed, nothing is bound to `y`. -/
theorem rehearsed_argument_agrees_nested :
    let ask (span : Span) (inner : Argument) (value : Option String) : Entity :=
      .interpolation span Builtin.interpolator inner value
    let a : Argument := ⟨⟨0, 12⟩, [
      ask ⟨0, 8⟩ ⟨⟨2, 7⟩, [.text ⟨2, 3⟩ "a", ask ⟨3, 7⟩ ⟨⟨5, 6⟩, [.text ⟨5, 6⟩ "x"], none⟩ none],
        none⟩ none,
      ask ⟨8, 12⟩ ⟨⟨10, 11⟩, [.text ⟨10, 11⟩ "y"], none⟩ none], none⟩
    let a' : Argument := ⟨⟨0, 12⟩, [
      ask ⟨0, 8⟩ ⟨⟨2, 7⟩, [.text ⟨2, 3⟩ "a",
        ask ⟨3, 7⟩ ⟨⟨5, 6⟩, [.text ⟨5, 6⟩ "x"], some "x"⟩ (some "1")], some "a1"⟩ (some "v"),
      ask ⟨8, 12⟩ ⟨⟨10, 11⟩, [.text ⟨10, 11⟩ "y"], some "y"⟩ none], none⟩
    let cx : Context := ⟨Builtin.configuration, .ofList [("x", "1"), ("a1", "v")],
      { Store.vacant with macros := ⟨some .initial⟩ }, 0⟩
    let e : Engine := .start cx
    e.IsSettled ∧ a.Rehearsed e.context a' ∧ expandArgument a' e = expandArgument a e ∧
      ∃ c, expandArgument a e = .ok ((c, some "v"), e.reportUnbound [(⟨8, 12⟩, "y")]) ∧
        ∀ g, expandArgument c g = .ok ((c, some "v"), g) := by
  intro ask a a' cx e
  have he : e.IsSettled := by
    refine ⟨rfl, fun s hs kind => ?_⟩
    cases hs
    cases kind <;> rfl
  -- the body of a definition with the parameter `y` is read around the argument
  let f : Engine :=
    { Engine.start (cx.withMacros { MacroState.initial with blockDelayed := [⟨"", ["y"]⟩] }) with
      delayDepth := 1 }
  have hrehearsed : a.Rehearsed e.context a' := by
    have hbinds : f.context.BindsAs cx := by
      refine ⟨fun name => rfl, fun kind => ?_⟩
      cases kind <;> rfl
    have hrun : expandArgument a f = .ok ((a', none), f) := rfl
    exact .again .untouched rfl hbinds hrun
  obtain ⟨hsame, -, -, hkeeps⟩ := rehearsed_argument_agrees he hrehearsed
  have hdirect : ∃ c, expandArgument a e
      = .ok ((c, some "v"), e.reportUnbound [(⟨8, 12⟩, "y")]) := ⟨_, rfl⟩
  obtain ⟨c, hc⟩ := hdirect
  exact ⟨he, hrehearsed, hsame, c, hc, hkeeps c "v" e _ (hsame.trans hc)⟩

end MacroMarkup
