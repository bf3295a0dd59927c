import MacroMarkup.Proofs.Bystanders
import MacroMarkup.Proofs.Scenes
import MacroMarkup.Proofs.Watching

/-!
# What a parse may change

Whatever lifecycles do to a context is made of four changes: a variable is bound, a definition is
registered, the registries are put back to others, and the state of the macros changes.  Each of
them leaves system modifiers, interpolators, initializers and the limit as they are, unbinds
nothing, and counts a revision if it touches the registries of blocks and inlines.

* `Upkeep.Elementary`: the four changes keep what is to be kept.
* `upholdsEach_elementary`: **then all lifecycles keep it.**
* `Context.Retains`: what no parse changes, and what it changes only with a new revision.
* `parse_retains`: **what holds between any two contexts that are seen during a parse.**
-/

namespace MacroMarkup

/-- What is to be kept is kept by every change that lifecycles are made of. -/
structure Upkeep.Elementary (U : Upkeep) : Prop where
  allows : ∀ fault, U.allows fault
  setVariable : ∀ {cx : Context} (name value : String), U.Holds cx →
    U.Keeps cx (cx.setVariable name value)
  withMacros : ∀ {cx : Context} (s : MacroState), U.Holds cx → U.Keeps cx (cx.withMacros s)
  register : ∀ {cx : Context} (kind : MacroKind) (d : Definition), d.kind = kind.modifierKind →
    U.Holds cx → U.Keeps cx { cx with configuration := cx.configuration.set d }.configurationChanged
  restore : ∀ {cx : Context} (r : Registries), U.Holds cx → U.Keeps cx (cx.restore r)

section Elementary

variable {U : Upkeep} (hU : U.Elementary)

theorem Upkeep.Elementary.registers (hU : U.Elementary) : U.Registers where
  allows := hU.allows
  setVariable := hU.setVariable
  withMacros hcx _ _ _ _ := hU.withMacros _ hcx
  register := hU.register

include hU

theorem Step.Upholds.modifyMacros {f : MacroState → MacroState} :
    Step.Upholds U (fun _ => True) (Step.modifyMacros f) :=
  .changing hU.registers fun _ _ hcx _ => hU.withMacros _ hcx

theorem Step.Upholds.restores {r : Registries} :
    Step.Upholds U (fun _ => True) (Step.restore r) :=
  .modify fun _ hcx => hU.restore r hcx

theorem Step.Upholds.finds {m : Modifier} {immediate : Bool} :
    Step.Upholds U (fun _ => True) (MacroMarkup.findModule m immediate) := by
  simp only [MacroMarkup.findModule]
  split
  · exact .pure trivial
  split
  · refine .bind (.looking hU.registers) fun s _ => ?_
    split
    · exact .pure trivial
    · exact .ite (fun _ => .pure trivial) fun _ => .pure trivial
  · exact .pure trivial

theorem elementary_pushNotation : pushNotationLifecycle.UpholdsEach U anyState where
  beforeContent _ _ := .pure trivial
  afterContent _ _ := .pure trivial
  prepare _ _ _ _ := .pure trivial
  expand _ _ _ _ := .get fun _ => .bind (.modifyMacros hU) fun _ _ => .pure trivial
  beforeProcessing _ _ _ := .pure trivial
  afterProcessing _ _ := .pure trivial

theorem elementary_popNotation : popNotationLifecycle.UpholdsEach U anyState where
  beforeContent _ _ := .pure trivial
  afterContent _ _ := .pure trivial
  prepare m state immediate _ := by
    refine .bind (.looking hU.registers) fun s _ => ?_
    split
    · exact .pure trivial
    · exact .bind (.modifyMacros hU) fun _ _ => .bind (.restores hU) fun _ _ => .pure trivial
  expand _ _ _ _ := .pure trivial
  beforeProcessing _ _ _ := .pure trivial
  afterProcessing _ _ := .pure trivial

theorem elementary_recordModule : moduleLifecycle.UpholdsEach U anyState where
  beforeContent m immediate := by
    have hopens : ∀ (name : String) (outer : Registries) (messages : List Message),
        Step.Upholds U (fun _ => True) (do
          Step.modifyMacros fun s => { s with insideModule := some name }
          return (some (name, outer), messages)) :=
      fun _ _ _ => .bind (.modifyMacros hU) fun _ _ => .pure trivial
    have hreports : ∀ messages : List Message,
        Step.Upholds U (fun _ => True) (pure messages : Step (List Message)) :=
      fun _ => .pure trivial
    simp only [moduleLifecycle]
    refine .ite (fun _ => .pure trivial) fun _ => ?_
    split
    · exact .pure trivial
    split
    · refine .ite (fun _ => .pure trivial) fun _ => .bind (.looking hU.registers) fun s _ => ?_
      refine .ite (fun _ => .pure trivial) fun _ => .get fun cx => ?_
      split
      · exact .bind (.restores hU) fun _ _ => .bind (hreports _) fun _ _ => hopens _ _ _
      · exact .bind (hreports _) fun _ _ => hopens _ _ _
    · exact .pure trivial
  afterContent state _ := by
    cases state with
    | none => exact .pure trivial
    | some module =>
      exact .get fun _ => .bind (.modifyMacros hU) fun _ _ => .bind (.restores hU) fun _ _ =>
        .pure trivial
  prepare _ _ _ _ := .pure trivial
  expand _ _ _ _ := .pure trivial
  beforeProcessing _ _ _ := .pure trivial
  afterProcessing _ _ := .pure trivial

theorem elementary_useInside : useInsideLifecycle.UpholdsEach U anyState where
  beforeContent m immediate := by
    refine .bind (.finds hU) fun found _ => ?_
    cases found with
    | error messages => exact .pure trivial
    | ok record => exact .get fun _ => .bind (.restores hU) fun _ _ => .pure trivial
  afterContent state _ := by
    cases state with
    | none => exact .pure trivial
    | some outer => exact .bind (.restores hU) fun _ _ => .pure trivial
  prepare _ _ _ _ := .pure trivial
  expand _ _ _ _ := .pure trivial
  beforeProcessing _ _ _ := .pure trivial
  afterProcessing _ _ := .pure trivial

theorem elementary_useFromHere : useFromHereLifecycle.UpholdsEach U anyState where
  beforeContent _ _ := .pure trivial
  afterContent _ _ := .pure trivial
  prepare m state immediate _ := by
    refine .bind (.finds hU) fun found _ => ?_
    cases found with
    | error messages => exact .pure trivial
    | ok record => exact .get fun _ => .pure trivial
  expand m state immediate _ := by
    cases state with
    | none => exact .pure trivial
    | some merged => exact .bind (.restores hU) fun _ _ => .pure trivial
  beforeProcessing _ _ _ := .pure trivial
  afterProcessing _ _ := .pure trivial

/-- **What every elementary change keeps is kept at each point of every lifecycle.** -/
theorem upholdsEach_elementary (b : Behaviour) : b.lifecycle.UpholdsEach U anyState := by
  cases b with
  | pushNotation => exact elementary_pushNotation hU
  | popNotation => exact elementary_popNotation hU
  | recordModule => exact elementary_recordModule hU
  | useInside => exact elementary_useInside hU
  | useFromHere => exact elementary_useFromHere hU
  | _ => exact upholdsEach_bystander hU.registers rfl

end Elementary

/-! ### What a context retains -/

/-- From the first context to the second, system modifiers, interpolators, initializers and the
limit are the same, what is bound stays bound, and the registries of blocks and inlines are the
same unless the revision went up. -/
structure Context.Retains (cx cx' : Context) : Prop where
  systems : cx'.configuration.systems = cx.configuration.systems
  interpolators : cx'.configuration.interpolators = cx.configuration.interpolators
  initializers : cx'.configuration.initializers = cx.configuration.initializers
  depthLimit : cx'.configuration.depthLimit = cx.configuration.depthLimit
  bound : ∀ name, cx.bindings.has name = true → cx'.bindings.has name = true
  revision : cx.revision ≤ cx'.revision
  registries : cx'.revision = cx.revision → cx'.registries = cx.registries

namespace Context.Retains

variable {cx cx' cx'' : Context}

theorem refl (cx : Context) : cx.Retains cx :=
  ⟨rfl, rfl, rfl, rfl, fun _ h => h, Nat.le_refl _, fun _ => rfl⟩

theorem trans (h : cx.Retains cx') (g : cx'.Retains cx'') : cx.Retains cx'' where
  systems := g.systems.trans h.systems
  interpolators := g.interpolators.trans h.interpolators
  initializers := g.initializers.trans h.initializers
  depthLimit := g.depthLimit.trans h.depthLimit
  bound name hbound := g.bound name (h.bound name hbound)
  revision := Nat.le_trans h.revision g.revision
  registries hsame := by
    -- nothing was counted on the way, so neither part changed the registries
    have hle := h.revision
    have gle := g.revision
    rw [g.registries (by omega), h.registries (by omega)]

theorem of_same (hconfiguration : cx'.configuration = cx.configuration)
    (hbindings : cx'.bindings = cx.bindings) (hrevision : cx'.revision = cx.revision) :
    cx.Retains cx' := by
  obtain ⟨configuration, bindings, store, revision⟩ := cx
  obtain ⟨_, _, store', _⟩ := cx'
  cases hconfiguration
  cases hbindings
  cases hrevision
  exact ⟨rfl, rfl, rfl, rfl, fun _ h => h, Nat.le_refl _, fun _ => rfl⟩

end Context.Retains

theorem Dict.has_set {α : Type} (d : Dict α) (key key' : String) (value : α)
    (h : d.has key' = true) : (d.set key value).has key' = true := by
  rw [has, get?_set]
  split
  · rfl
  · exact h

def Upkeep.retention : Upkeep where
  allows := anyFault
  Holds _ := True
  Keeps := Context.Retains
  refl _ := .refl _
  trans := .trans
  holds _ := trivial
  missing _ _ := trivial

theorem elementary_retention : Upkeep.retention.Elementary where
  allows _ := trivial
  setVariable {cx} name value _ :=
    ⟨rfl, rfl, rfl, rfl, fun key h => cx.bindings.has_set name key value h, Nat.le_refl _,
      fun _ => rfl⟩
  withMacros _ _ := .of_same rfl rfl rfl
  register {cx} kind d hd _ := by
    have hcounts : cx.revision + 1 ≠ cx.revision := Nat.succ_ne_self _
    obtain ⟨stamp, name, _, slot, delaysContent, alwaysExpands, behaviour⟩ := d
    cases hd
    cases kind <;>
      exact ⟨rfl, rfl, rfl, rfl, fun _ h => h, Nat.le_succ _, fun hsame => absurd hsame hcounts⟩
  restore {cx} r _ :=
    ⟨rfl, rfl, rfl, rfl, fun _ h => h, Nat.le_succ _, fun hsame =>
      absurd hsame (Nat.succ_ne_self cx.revision)⟩

/-- **Each point of a lifecycle retains what the context holds.** -/
theorem Scene.Step.retains {s s' : Scene} {names : List String} (h : s.Step names s') :
    s.context.Retains s'.context := by
  have hlife := upholdsEach_elementary elementary_retention
  cases h with
  | opens hrun => exact (((hlife _).beforeContent _ _ _ trivial).of_ok hrun).1
  | closes hrun => exact (((hlife _).afterContent _ trivial _ trivial).of_ok hrun).1
  | prepares hrun => exact (((hlife _).prepare _ _ _ trivial _ trivial).of_ok hrun).1
  | expands hrun => exact (((hlife _).expand _ _ _ trivial _ trivial).of_ok hrun).1
  | enters hrun => exact (((hlife _).beforeProcessing _ _ trivial _ trivial).of_ok hrun).1
  | leaves hrun => exact (((hlife _).afterProcessing _ trivial _ trivial).of_ok hrun).1
  | ends => exact .refl _

/-- Points of lifecycles one after another retain what the context holds. -/
theorem Scene.Goes.retains {s s' : Scene} {names : List String} (h : s.Goes names s') :
    s.context.Retains s'.context := by
  induction h with
  | stays => exact .refl _
  | step _ hstep ih => exact ih.trans hstep.retains

/-- **What a parse may change.**  Between any two contexts that are seen during a parse, the one
that it starts in, those that inspectors see and the one that it leaves behind, the system
modifiers, the interpolators, the initializers and the limit stay the same, and no variable comes
unbound.  Where the revision is the same, every look-up among block and inline modifiers finds the
same definition: no point of a lifecycle changes their registries without counting it, and the
same holds between any two places where a parse reads.  In a well-formed context the parse comes
to an end. -/
theorem parse_retains (cx : Context) (source : String) (inspectors : List Inspector) :
    (cx.Stores .placed → ∃ d, cx.read source inspectors = .ok d) ∧
    (∀ d, cx.read source inspectors = .ok d →
      cx.Retains d.context ∧
      (cx :: d.sightings.map (·.context) ++ [d.context]).Pairwise fun earlier later =>
        earlier.Retains later ∧ (later.revision = earlier.revision → ∀ kind name,
          (later.configuration.modifiers kind).get? name
            = (earlier.configuration.modifiers kind).get? name)) ∧
    (∀ s names s', Scene.Step s names s' → s.context.Retains s'.context) ∧
    ∀ alive inside r r', Reader.Onward alive r inside r' →
      r.engine.context.Retains r'.engine.context := by
  refine ⟨fun hcx => ?_, fun d hd => ?_, fun _ _ _ h => h.retains, fun _ _ _ _ h => ?_⟩
  · obtain ⟨d, -, hd, -⟩ := ensures_read hcx.lenient source inspectors
    exact ⟨d, hd⟩
  · have hpairs := read_upholds (U := .retention)
      (fun b => (upholdsEach_elementary elementary_retention b).upholds) trivial hd
    refine ⟨?_, hpairs.imp fun {earlier later} h => ⟨h, fun hsame kind name => ?_⟩⟩
    · exact (List.pairwise_cons.mp hpairs).1 _ (List.mem_append_right _ (List.mem_singleton_self _))
    · have hregistries := h.registries hsame
      cases kind with
      | block => exact congrArg (fun r => r.blocks.get? name) hregistries
      | inline => exact congrArg (fun r => r.inlines.get? name) hregistries
      | system => exact congrArg (fun r => Registry.get? r name) h.systems
  · obtain ⟨names, hgoes⟩ := h.goes
    exact hgoes.retains

/-- A source that defines a modifier and binds a variable, which an inspector sees in between. -/
theorem parse_retains_definition :
    let source := "[-define-block p][.slot]\n\n[-var x:y]\n\n[.p]z"
    ∃ cx d, Context.start Builtin.configuration .empty = .ok cx ∧ cx.Stores .placed ∧
      cx.read source [⟨26, 0⟩] = .ok d ∧ d.sightings.isEmpty = false ∧
      cx.bindings.has "x" = false ∧ d.context.bindings.has "x" = true ∧ cx.Retains d.context ∧
      (∀ s ∈ d.sightings, s.context.Retains d.context) ∧
      Scene.Step ⟨[], cx⟩ [] ⟨[⟨.plain, (), false⟩], cx⟩ ∧
      Reader.Onward [] (.start cx source []) [] (.start cx source []) ∧ cx.Retains cx := by
  intro source
  obtain ⟨cx, hcx⟩ : ∃ cx, Context.start Builtin.configuration .empty = .ok cx := ⟨_, rfl⟩
  have hstores : cx.Stores .placed := (Builtin.placed_start hcx).1
  obtain ⟨hends, hretains, hsteps, honward⟩ := parse_retains cx source [⟨26, 0⟩]
  obtain ⟨d, hd⟩ := hends hstores
  obtain ⟨hwhole, hpairs⟩ := hretains d hd
  have hrun : ((Context.start Builtin.configuration .empty).bind
      fun cx => (cx.read source [⟨26, 0⟩]).map fun d => (cx, d)).toOption.map (fun r =>
        (r.2.sightings.isEmpty, r.1.bindings.has "x", r.2.context.bindings.has "x"))
        = some (false, false, true) := by
    decide +kernel
  rw [hcx, Except.bind, hd] at hrun
  have hfacts := Option.some.inj hrun
  have hstep : Scene.Step ⟨[], cx⟩ [] ⟨[⟨.plain, (), false⟩], cx⟩ :=
    @Scene.Step.opens [] cx cx .plain (.ofHead (.plain "p" .block .normal) ⟨0, 0⟩ []) true () [] rfl
  refine ⟨cx, d, hcx, hstores, hd, congrArg (·.1) hfacts, congrArg (·.2.1) hfacts,
    congrArg (·.2.2) hfacts, hwhole, fun s hs => ?_, hstep, .here,
    (hsteps _ _ _ hstep).trans (honward _ _ _ _ (@Reader.Onward.here [] (.start cx source [])))⟩
  obtain ⟨-, -, hbehind⟩ := List.pairwise_append.mp hpairs
  exact (hbehind s.context (List.mem_cons_of_mem _ (List.mem_map_of_mem hs)) _
    (List.mem_singleton_self _)).1

end MacroMarkup
