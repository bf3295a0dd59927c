import MacroMarkup.Proofs.Finality
import MacroMarkup.Proofs.Layout
import MacroMarkup.Proofs.Remarks
import MacroMarkup.Proofs.Stages

/-!
# What evaluating arguments does

Evaluating an argument looks up names and may report one that is bound to nothing.  It
changes nothing else, and at a final visit it finds a value.

* `Engine.IsFinal`: a visit at this place is final.
* `Engine.Reports`: the second engine differs from the first by messages only, about how the
  source is written or about variables.
* `Engine.Evaluates`: something was evaluated between the two.
* `ensures_expandArguments`: the law of evaluation.  Arguments stay as they were read.
-/

namespace MacroMarkup

namespace Engine

def IsFinal (e : Engine) : Prop := e.delayDepth = 0 ∧ e.context.NothingDelayed

theorem IsFinal.immediate {e : Engine} (h : e.IsFinal) : e.immediate = true := by
  simp [Engine.immediate, h.1]

/-- What may be reported while text is read and arguments are evaluated. -/
def Remarks (e : Engine) (p : Problem) : Prop :=
  p.isSyntactic = true ∨ e.immediate = true ∧ ∃ name, p = .undefinedVariable name

/-- The second engine differs from the first by messages only, and these are remarks. -/
structure Reports (e e' : Engine) : Prop where
  same : ∃ emitted, e' = { e with emitted := emitted }
  tells : e.Tells e.Remarks e'
  limits : e'.limitMessages = e.limitMessages

theorem Reports.refl (e : Engine) : e.Reports e := ⟨⟨e.emitted, rfl⟩, .refl e, rfl⟩

theorem Reports.trans {e e' e'' : Engine} (h : e.Reports e') (g : e'.Reports e'') :
    e.Reports e'' := by
  obtain ⟨⟨emitted, rfl⟩, htells, hlimits⟩ := h
  obtain ⟨⟨emitted', rfl⟩, htells', hlimits'⟩ := g
  exact ⟨⟨emitted', rfl⟩, htells.trans htells', hlimits'.trans hlimits⟩

theorem Remarks.reportsLimit_eq_false {e : Engine} {p : Problem} (hp : e.Remarks p) (span : Span) :
    (p.message span).reportsLimit = false := by
  rcases hp with hsyntactic | ⟨-, name, rfl⟩
  · cases p <;> first | rfl | cases hsyntactic
  · rfl

theorem reports_emit {e : Engine} {p : Problem} (hp : e.Remarks p) (span : Span) :
    e.Reports (e.emit [p.message span]) := by
  refine ⟨⟨_, rfl⟩, tells_emit fun m hm => ?_, ?_⟩
  · rw [List.mem_singleton.mp hm]
    exact Message.about_message hp span
  · rw [limitMessages_emit, List.filter_cons_of_neg (by simp [hp.reportsLimit_eq_false span])]
    exact List.append_nil _

theorem Reports.context {e e' : Engine} (h : e.Reports e') : e'.context = e.context := by
  obtain ⟨⟨emitted, rfl⟩, -⟩ := h
  rfl

theorem Reports.refusals {e e' : Engine} (h : e.Reports e') : e'.refusals = e.refusals := by
  obtain ⟨⟨emitted, rfl⟩, -⟩ := h
  rfl

theorem Reports.isFinal {e e' : Engine} (h : e.Reports e') (hfinal : e.IsFinal) : e'.IsFinal := by
  obtain ⟨⟨emitted, rfl⟩, -⟩ := h
  exact hfinal

theorem Reports.isFinal_back {e e' : Engine} (h : e.Reports e') (hfinal : e'.IsFinal) :
    e.IsFinal := by
  obtain ⟨⟨emitted, rfl⟩, -⟩ := h
  exact hfinal

/-- Something was evaluated: messages may have been added, but none at a visit that is not
immediate. -/
structure Evaluates (e e' : Engine) : Prop where
  reports : e.Reports e'
  quiet : e.immediate = false → e' = e

theorem Evaluates.refl (e : Engine) : e.Evaluates e := ⟨.refl e, fun _ => rfl⟩

theorem Evaluates.trans {e e' e'' : Engine} (h : e.Evaluates e') (g : e'.Evaluates e'') :
    e.Evaluates e'' := by
  refine ⟨h.reports.trans g.reports, fun hlater => ?_⟩
  have hsame := h.quiet hlater
  subst hsame
  exact g.quiet hlater

end Engine

theorem Engine.emit_nil (e : Engine) : e.emit [] = e := rfl

theorem emit_emit (e : Engine) (messages more : List Message) :
    (e.emit messages).emit more = e.emit (messages ++ more) := by
  simp [Engine.emit]

theorem resolution_ne_deferred {cx : Context} {s : MacroState} (h : cx.NothingDelayed)
    (hs : cx.macros = .ok s) (name : String) : cx.resolution s name ≠ .deferred := by
  have hblock : s.blockDelayed = [] := h.delayed_eq_nil hs .block
  have hinline : s.inlineDelayed = [] := h.delayed_eq_nil hs .inline
  simp only [Context.resolution, Context.isPending, hblock, hinline, List.append_nil,
    List.any_nil, Bool.false_eq_true, if_false]
  cases cx.binding? s name with
  | some text => exact fun h => by cases h
  | none => exact fun h => by cases h

theorem Step.resolve_of_ok {cx : Context} {name : String} {found : Resolution}
    (h : cx.resolve name = .ok found) :
    Step.resolve name cx = .ok (found, cx) := by
  simp only [Step.resolve, h, bind, Except.bind, pure, Except.pure]

/-- Looking up a name fails only where the state of the macros is missing. -/
theorem ensures_resolution {allows : Fault → Prop} {cx : Context} {name : String}
    {post : Resolution → Context → Prop}
    (hs : ∀ fault, cx.macros = .error fault → allows fault)
    (h : ∀ s, cx.macros = .ok s → post (cx.resolution s name) cx) :
    Ensures allows (Step.resolve name) cx post := by
  cases hmacros : cx.macros with
  | ok s => exact (ensures_resolve hmacros).mpr (h s hmacros)
  | error fault =>
    simp only [Ensures, Step.resolve, Context.resolve, hmacros, bind, Except.bind]
    exact hs fault hmacros

section Evaluation

variable {allows : Fault → Prop}

mutual

theorem ensures_expandArgument : ∀ (a : Argument) (e : Engine),
    (∀ fault, e.context.macros = .error fault → allows fault) →
    Ensures allows (expandArgument a) e fun r e' => e.Evaluates e' ∧ a.Stays r.1 ∧
      (e.IsFinal → r.1.value.isSome = true ∧ r.2.isSome = true)
  | ⟨span, content, some value⟩, e, _ => by
    rw [expandArgument, ensures_pure]
    exact ⟨.refl e, .refl _, fun _ => ⟨rfl, rfl⟩⟩
  | ⟨span, content, none⟩, e, hs => by
    rw [expandArgument, ensures_bind]
    refine (ensures_expandEntities content e hs).mono ?_
    intro answer e' hanswer
    obtain ⟨content', value⟩ := answer
    obtain ⟨hevaluates, hstays, hvalue⟩ := hanswer
    exact ⟨hevaluates, ⟨rfl, fun source h => Entity.Laid.stays h hstays, nofun⟩,
      fun hfinal => ⟨hvalue hfinal, hvalue hfinal⟩⟩

theorem ensures_expandEntities : ∀ (entities : List Entity) (e : Engine),
    (∀ fault, e.context.macros = .error fault → allows fault) →
    Ensures allows (expandEntities entities) e fun r e' => e.Evaluates e' ∧
      entities.Forall₂ Entity.Stays r.1 ∧ (e.IsFinal → r.2.isSome = true)
  | [], e, _ => by
    rw [expandEntities, ensures_pure]
    exact ⟨.refl e, .nil, fun _ => rfl⟩
  | entity :: rest, e, hs => by
    rw [expandEntities, ensures_bind]
    refine (ensures_expandEntity entity e hs).mono ?_
    intro answer e' hanswer
    obtain ⟨entity', value⟩ := answer
    obtain ⟨hevaluates, hstays, hvalue⟩ := hanswer
    cases value with
    | none => exact ⟨hevaluates, .cons hstays (List.forall₂_same.mpr fun x _ => .refl x),
        fun hfinal => hvalue hfinal⟩
    | some value =>
      rw [ensures_bind]
      refine (ensures_expandEntities rest e' (by rwa [hevaluates.reports.context])).mono ?_
      intro answer e'' hanswer
      obtain ⟨rest', others⟩ := answer
      obtain ⟨hevaluates', hrest, hothers⟩ := hanswer
      refine ⟨hevaluates.trans hevaluates', .cons hstays hrest, fun hfinal => ?_⟩
      rw [Option.isSome_map]
      exact hothers (hevaluates.reports.isFinal hfinal)

theorem ensures_expandEntity : ∀ (entity : Entity) (e : Engine),
    (∀ fault, e.context.macros = .error fault → allows fault) →
    Ensures allows (expandEntity entity) e fun r e' =>
      e.Evaluates e' ∧ entity.Stays r.1 ∧ (e.IsFinal → r.2.isSome = true)
  | .text span content, e, _ => by
    rw [expandEntity, ensures_pure]
    exact ⟨.refl e, .refl _, fun _ => rfl⟩
  | .escaped span content, e, _ => by
    rw [expandEntity, ensures_pure]
    exact ⟨.refl e, .refl _, fun _ => rfl⟩
  | .interpolation span interpolator argument (some value), e, _ => by
    rw [expandEntity, ensures_pure]
    exact ⟨.refl e, .refl _, fun _ => rfl⟩
  | .interpolation span interpolator argument none, e, hs => by
    rw [expandEntity, ensures_bind]
    refine (ensures_expandArgument argument e hs).mono ?_
    intro answer e' hanswer
    obtain ⟨argument', inner⟩ := answer
    obtain ⟨hevaluates, hstays, hinner⟩ := hanswer
    have hstays' : ∀ value, (Entity.interpolation span interpolator argument none).Stays
        (.interpolation span interpolator argument' value) := fun _ => .interpolation hstays
    simp only [ensures_bind, ensures_immediate]
    cases inner with
    | none => exact ⟨hevaluates, hstays' _, fun hfinal => (hinner hfinal).2⟩
    | some name =>
      simp only [ensures_ite]
      refine ⟨fun hwaits => ⟨hevaluates, hstays' _, fun hfinal => ?_⟩, fun _ => ?_⟩
      · rw [(hevaluates.reports.isFinal hfinal).immediate] at hwaits
        simp at hwaits
      · simp only [ensures_bind, ensures_inContext]
        refine ensures_resolution (by rwa [hevaluates.reports.context]) fun s hs' => ?_
        cases hname : e'.context.resolution s name with
        | value text => exact ⟨hevaluates, hstays' _, fun _ => rfl⟩
        | undefined =>
          simp only [ensures_ite]
          refine ⟨fun himmediate => ⟨hevaluates.trans ⟨Engine.reports_emit ?_ _, ?_⟩, hstays' _,
            fun _ => rfl⟩, fun hlater => ?_⟩
          · exact .inr ⟨himmediate, name, rfl⟩
          · exact fun hlater => absurd (himmediate.symm.trans hlater) nofun
          · exact ⟨hevaluates, hstays' _, fun hfinal =>
              absurd (hevaluates.reports.isFinal hfinal).immediate hlater⟩
        | deferred =>
          refine ⟨hevaluates, hstays' _, fun hfinal => absurd hname ?_⟩
          exact resolution_ne_deferred (hevaluates.reports.isFinal hfinal).2 hs' name

end

/-- **Evaluating arguments only reports**, and at a final visit finds all values.  It fails only
where the state of the macros is missing. -/
theorem ensures_expandArguments : ∀ (arguments : List Argument) (e : Engine),
    (∀ fault, e.context.macros = .error fault → allows fault) →
    Ensures allows (expandArguments arguments) e fun r e' => e.Evaluates e' ∧
      arguments.Forall₂ Argument.Stays r ∧ (e.IsFinal → ∀ a ∈ r, a.value.isSome = true) := by
  intro arguments
  induction arguments with
  | nil =>
    intro e _
    exact ⟨.refl e, .nil, fun _ a ha => by cases ha⟩
  | cons argument rest ih =>
    intro e hs
    rw [expandArguments, ensures_bind]
    refine (ensures_expandArgument argument e hs).mono ?_
    intro answer e' hanswer
    obtain ⟨argument', value⟩ := answer
    obtain ⟨hevaluates, hstays, hvalue⟩ := hanswer
    rw [ensures_bind]
    refine (ih e' (by rwa [hevaluates.reports.context])).mono ?_
    intro rest' e'' hanswer
    obtain ⟨hevaluates', hrest, hvalues⟩ := hanswer
    refine ⟨hevaluates.trans hevaluates', .cons hstays hrest, fun hfinal a ha => ?_⟩
    rcases List.mem_cons.mp ha with rfl | ha
    · exact (hvalue hfinal).1
    · exact hvalues (hevaluates.reports.isFinal hfinal) a ha

end Evaluation

end MacroMarkup
