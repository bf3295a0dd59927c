import MacroMarkup.Proofs.Bystanders
import MacroMarkup.Proofs.Fresh

/-!
# Where names come from

A document cannot make up a definition: what is registered at some point was registered before
it was read, or its name is in the history of the configuration.  The history only grows, and
no document touches interpolators.  So what holds of all names that were ever registered holds
of every name that is looked for, whatever is kept, recorded and put back on the way.

* `Configuration.Recalls`: a definition whose name is known or in the history.
* `Context.Traced`: all that a context keeps is such.
* `Upkeep.history`, `upholds_history`: **every lifecycle keeps a context traced.**
* `Context.traced_start`: a fresh context is.
-/

namespace MacroMarkup

/-- The name of the definition has `P`, or a definition was registered under it. -/
def Configuration.Recalls (P : String → Prop) (c : Configuration) (d : Definition) : Prop :=
  P d.name ∨ d.name ∈ c.history

def Configuration.Grows (c c' : Configuration) : Prop :=
  c.history <:+ c'.history ∧ c'.interpolators = c.interpolators

section

variable {P : String → Prop} {c c' : Configuration}

theorem Configuration.Recalls.mono {d : Definition} (h : c.Recalls P d) (hc : c.Grows c') :
    c'.Recalls P d := h.imp_right fun hmem => hc.1.subset hmem

/-- Nothing that was registered goes back to another name. -/
theorem Configuration.Recalls.holds {d : Definition} (h : c.Recalls P d)
    (hall : ∀ name ∈ c.history, P name) : P d.name := h.elim id (hall d.name)

theorem Configuration.Grows.refl (c : Configuration) : c.Grows c := ⟨List.suffix_refl _, rfl⟩

theorem Configuration.Grows.trans {c'' : Configuration} (h : c.Grows c') (g : c'.Grows c'') :
    c.Grows c'' := ⟨h.1.trans g.1, g.2.trans h.2⟩

theorem Configuration.grows_set (c : Configuration) (d : Definition) : c.Grows (c.set d) := by
  obtain ⟨stamp, name, kind, slot, delaysContent, alwaysExpands, behaviour⟩ := d
  cases kind <;> exact ⟨List.suffix_cons _ _, rfl⟩

theorem Configuration.history_set (c : Configuration) (d : Definition) :
    (c.set d).history = d.name :: c.history := by
  obtain ⟨stamp, name, kind, slot, delaysContent, alwaysExpands, behaviour⟩ := d
  cases kind <;> rfl

end

/-- Whatever the context keeps has a name that has `P` or is in the history of its
configuration. -/
structure Context.Traced (P : String → Prop) (cx : Context) : Prop where
  registries : cx.registries.All (cx.configuration.Recalls P)
  systems : cx.configuration.systems.All (cx.configuration.Recalls P)
  notations : ∀ s, cx.macros = .ok s → ∀ r ∈ s.notations, r.All (cx.configuration.Recalls P)
  modules : ∀ s, cx.macros = .ok s → ∀ entry ∈ s.modules.entries,
    entry.2.All (cx.configuration.Recalls P)

def Upkeep.history (P : String → Prop) : Upkeep where
  allows := anyFault
  Holds := Context.Traced P
  Keeps cx cx' := cx'.Traced P ∧ cx.configuration.Grows cx'.configuration
  refl h := ⟨h, .refl _⟩
  trans h h' := ⟨h'.1, h.2.trans h'.2⟩
  holds h := h.1
  missing _ _ := trivial

section Lifecycles

variable {P : String → Prop} {cx : Context}

/-- The registries that are put in place need a history no longer than that of the context. -/
theorem Context.Traced.restore {r : Registries} (h : cx.Traced P)
    (hr : r.All (cx.configuration.Recalls P)) : (cx.restore r).Traced P :=
  ⟨hr, h.systems, h.notations, h.modules⟩

theorem Context.Traced.withMacros {s : MacroState} (h : cx.Traced P)
    (hnotations : ∀ r ∈ s.notations, r.All (cx.configuration.Recalls P))
    (hmodules : ∀ entry ∈ s.modules.entries, entry.2.All (cx.configuration.Recalls P)) :
    (cx.withMacros s).Traced P := by
  refine ⟨h.registries, h.systems, fun t ht => ?_, fun t ht => ?_⟩
  · cases ht
    exact hnotations
  · cases ht
    exact hmodules

theorem Context.Traced.register {d : Definition} (h : cx.Traced P) :
    Context.Traced P { cx with configuration := cx.configuration.set d }.configurationChanged := by
  have hmono : ∀ d', cx.configuration.Recalls P d' → (cx.configuration.set d).Recalls P d' :=
    fun _ hd' => hd'.mono (cx.configuration.grows_set d)
  have hd : ∀ stamp, (cx.configuration.set d).Recalls P { d with stamp := stamp } := by
    intro stamp
    rw [Configuration.Recalls, Configuration.history_set]
    exact .inr List.mem_cons_self
  have hregistries := h.registries.mono hmono
  have hsystems := h.systems.mono hmono
  have hnotations := fun s hs r hr => (h.notations s hs r hr).mono hmono
  have hmodules := fun s hs entry hentry => (h.modules s hs entry hentry).mono hmono
  obtain ⟨stamp, name, kind, slot, delaysContent, alwaysExpands, behaviour⟩ := d
  cases kind with
  | block => exact ⟨⟨hregistries.1.set (hd _), hregistries.2⟩, hsystems, hnotations, hmodules⟩
  | inline => exact ⟨⟨hregistries.1, hregistries.2.set (hd _)⟩, hsystems, hnotations, hmodules⟩
  | system => exact ⟨hregistries, hsystems.set (hd _), hnotations, hmodules⟩

theorem registers_history : (Upkeep.history P).Registers where
  allows _ := trivial
  setVariable _ _ h := ⟨⟨h.registries, h.systems, h.notations, h.modules⟩, .refl _⟩
  withMacros {cx s t} h hs hnotations hmodules _ := by
    refine ⟨h.withMacros ?_ ?_, .refl _⟩
    · rw [hnotations]
      exact h.notations s hs
    · rw [hmodules]
      exact h.modules s hs
  register {cx} _ d _ h := ⟨h.register, cx.configuration.grows_set d⟩

theorem ensures_findModule_recorded {m : Modifier} {immediate : Bool} :
    Ensures anyFault (findModule m immediate) cx fun found cx' => cx' = cx ∧
      ∀ record, found = .ok record → ∃ s, cx.macros = .ok s ∧
        ∃ name ∈ m.arguments.map (·.text), s.modules.get? name = some record := by
  have refused : ∀ messages : List Message, Ensures anyFault
      (pure (.error messages) : Step (Except (List Message) ModuleRecord)) cx
      fun found cx' => cx' = cx ∧ ∀ record, found = .ok record → ∃ s, cx.macros = .ok s ∧
        ∃ name ∈ m.arguments.map (·.text), s.modules.get? name = some record :=
    fun _ => ⟨rfl, fun _ h => by cases h⟩
  simp only [findModule]
  split
  · exact refused _
  split
  · rename_i hargument
    rw [ensures_bind]
    refine ensures_macros_of fun s hs => ?_
    split
    · exact refused _
    · rename_i record hrecord
      rw [ensures_ite]
      refine ⟨fun _ => refused _, fun _ => ⟨rfl, fun _ heq => ?_⟩⟩
      cases heq
      refine ⟨s, hs, _, ?_, hrecord⟩
      rw [hargument]
      exact List.mem_cons_self
  · exact refused _

theorem ensures_findModule_history {m : Modifier} {immediate : Bool} (h : cx.Traced P) :
    Ensures anyFault (findModule m immediate) cx fun found cx' =>
      cx' = cx ∧ ∀ record, found = .ok record → record.All (cx.configuration.Recalls P) := by
  refine ensures_findModule_recorded.mono ?_
  rintro found _ ⟨rfl, hfound⟩
  refine ⟨rfl, fun record heq => ?_⟩
  obtain ⟨s, hs, name, -, hrecord⟩ := hfound record heq
  obtain ⟨entry, hentry, rfl⟩ := Dict.mem_of_get? hrecord
  exact h.modules s hs entry hentry

def Recalled (P : String → Prop) (outer : Option Registries) (cx : Context) : Prop :=
  ∀ r, outer = some r → r.All (cx.configuration.Recalls P)

theorem Recalled.none : Recalled P none cx := fun _ hr => by cases hr

theorem Recalled.mono {outer : Option Registries} {cx' : Context} (h : Recalled P outer cx)
    (hgrows : cx.configuration.Grows cx'.configuration) : Recalled P outer cx' :=
  fun r hr => (h r hr).mono fun _ hd => hd.mono hgrows

theorem ensures_modifyMacros_of {f : MacroState → MacroState} {post : Unit → Context → Prop}
    (h : ∀ s, cx.macros = .ok s → post () (cx.withMacros (f s))) :
    Ensures anyFault (Step.modifyMacros f) cx post := by
  cases hs : cx.macros with
  | ok s => exact (ensures_modifyMacros hs).mpr (h s hs)
  | error fault =>
    simp only [Ensures, Step.modifyMacros, Context.modifyMacros, hs, Bind.bind, Except.bind]
    exact trivial

theorem upholds_history_pushNotation :
    pushNotationLifecycle.UpholdsEach (.history P) anyState where
  beforeContent _ _ := .pure trivial
  afterContent _ _ := .pure trivial
  prepare _ _ _ _ := .pure trivial
  expand m state immediate _ := by
    intro cx h
    simp only [pushNotationLifecycle, ensures_bind, ensures_get, ensures_pure, and_true]
    refine ensures_modifyMacros_of fun s hs => ⟨h.withMacros ?_ (h.modules s hs), .refl _⟩
    exact List.forall_mem_cons.mpr ⟨h.registries, h.notations s hs⟩
  beforeProcessing _ _ _ := .pure trivial
  afterProcessing _ _ := .pure trivial

theorem upholds_history_popNotation :
    popNotationLifecycle.UpholdsEach (.history P) anyState where
  beforeContent _ _ := .pure trivial
  afterContent _ _ := .pure trivial
  prepare m state immediate _ := by
    refine .macros registers_history fun cx s h hs => ?_
    cases hnotations : s.notations with
    | nil => exact ⟨(Upkeep.history P).refl h, trivial⟩
    | cons r earlier =>
      have hall := h.notations s hs
      rw [hnotations] at hall
      obtain ⟨hr, hearlier⟩ := List.forall_mem_cons.mp hall
      have htraced : (cx.withMacros { s with notations := earlier }).Traced P :=
        h.withMacros hearlier (h.modules s hs)
      refine ensures_bind.mpr ((ensures_modifyMacros hs).mpr ?_)
      exact ⟨⟨htraced.restore hr, .refl _⟩, trivial⟩
  expand _ _ _ _ := .pure trivial
  beforeProcessing _ _ _ := .pure trivial
  afterProcessing _ _ := .pure trivial

theorem ensures_opens_history {module : String} {cx' : Context} (h : cx.Traced P)
    (hkeeps : (Upkeep.history P).Keeps cx cx') :
    Ensures anyFault (Step.modifyMacros fun s => { s with insideModule := some module }) cx'
      fun _ cx'' => (Upkeep.history P).Keeps cx cx'' ∧ Recalled P (some cx.registries) cx'' := by
  refine ensures_modifyMacros_of fun s hs => ⟨⟨?_, hkeeps.2⟩, fun r hr => ?_⟩
  · exact hkeeps.1.withMacros (hkeeps.1.notations s hs) (hkeeps.1.modules s hs)
  · cases hr
    exact h.registries.mono fun _ hd => hd.mono hkeeps.2

theorem upholds_history_recordModule : moduleLifecycle.Upholds (.history P)
    fun state cx => Recalled P (state.map Prod.snd) cx where
  stays hstate hkeeps := hstate.mono hkeeps.2
  beforeContent m immediate cx h := by
    have hkeeps := (Upkeep.history P).refl h
    simp only [moduleLifecycle]
    rw [ensures_ite]
    refine ⟨fun _ => ⟨hkeeps, .none⟩, fun _ => ?_⟩
    split
    · exact ⟨hkeeps, .none⟩
    split
    · rw [ensures_ite]
      refine ⟨fun _ => ⟨hkeeps, .none⟩, fun _ => ?_⟩
      rw [ensures_bind]
      refine ensures_macros_of fun s hs => ?_
      rw [ensures_ite]
      refine ⟨fun _ => ⟨hkeeps, .none⟩, fun _ => ?_⟩
      simp only [ensures_bind, ensures_get]
      split
      · rename_i record hrecord
        obtain ⟨entry, hentry, rfl⟩ := Dict.mem_of_get? hrecord
        have hmerged : (cx.registries.merge false entry.2).1.All (cx.configuration.Recalls P) :=
          h.registries.merge (h.modules s hs entry hentry)
        simp only [Step.restore, ensures_bind, ensures_modify, ensures_pure]
        exact ensures_opens_history h ⟨h.restore hmerged, .refl _⟩
      · simp only [ensures_bind, ensures_pure]
        exact ensures_opens_history h hkeeps
    · exact ⟨hkeeps, .none⟩
  afterContent state cx h hstate := by
    cases state with
    | none => exact ⟨(Upkeep.history P).refl h, .none⟩
    | some module =>
      simp only [moduleLifecycle, ensures_bind, ensures_get]
      refine ensures_modifyMacros_of fun s hs => ?_
      have hrecorded : (cx.withMacros { s with
          insideModule := none
          modules := s.modules.set module.1 (cx.registries.addedSince module.2) }).Traced P := by
        refine h.withMacros (h.notations s hs) fun entry hentry => ?_
        rcases Dict.mem_entries_set hentry with hentry | hentry
        · exact h.modules s hs entry hentry
        · exact hentry ▸ h.registries.addedSince
      exact ⟨⟨hrecorded.restore (hstate _ rfl), .refl _⟩, .none⟩
  prepare _ _ _ _ h hstate := ⟨(Upkeep.history P).refl h, hstate⟩
  expand _ _ _ _ h hstate := ⟨(Upkeep.history P).refl h, hstate⟩
  processing _ _ _ h _ := ⟨h, fun _ hkeeps => hkeeps⟩

theorem upholds_history_useInside :
    useInsideLifecycle.Upholds (.history P) fun state cx => Recalled P state cx where
  stays hstate hkeeps := hstate.mono hkeeps.2
  beforeContent m immediate cx h := by
    simp only [useInsideLifecycle, ensures_bind]
    refine (ensures_findModule_history h).mono ?_
    rintro found _ ⟨rfl, hfound⟩
    cases found with
    | error messages => exact ⟨(Upkeep.history P).refl h, .none⟩
    | ok record =>
      refine ⟨⟨h.restore (h.registries.merge (hfound record rfl)), .refl _⟩, fun r hr => ?_⟩
      cases hr
      exact h.registries
  afterContent state cx h hstate := by
    cases state with
    | none => exact ⟨(Upkeep.history P).refl h, .none⟩
    | some outer => exact ⟨⟨h.restore (hstate outer rfl), .refl _⟩, .none⟩
  prepare _ _ _ _ h hstate := ⟨(Upkeep.history P).refl h, hstate⟩
  expand _ _ _ _ h hstate := ⟨(Upkeep.history P).refl h, hstate⟩
  processing _ _ _ h _ := ⟨h, fun _ hkeeps => hkeeps⟩

theorem upholds_history_useFromHere :
    useFromHereLifecycle.Upholds (.history P) fun state cx => Recalled P state cx where
  stays hstate hkeeps := hstate.mono hkeeps.2
  beforeContent _ _ _ h := ⟨(Upkeep.history P).refl h, .none⟩
  afterContent _ _ h hstate := ⟨(Upkeep.history P).refl h, hstate⟩
  prepare m state immediate cx h hstate := by
    simp only [useFromHereLifecycle, ensures_bind]
    refine (ensures_findModule_history h).mono ?_
    rintro found _ ⟨rfl, hfound⟩
    cases found with
    | error messages => exact ⟨(Upkeep.history P).refl h, hstate⟩
    | ok record =>
      refine ⟨(Upkeep.history P).refl h, fun r hr => ?_⟩
      cases hr
      exact h.registries.merge (hfound record rfl)
  expand m state immediate cx h hstate := by
    cases state with
    | none => exact ⟨(Upkeep.history P).refl h, .none⟩
    | some merged => exact ⟨⟨h.restore (hstate merged rfl), .refl _⟩, .none⟩
  processing _ _ _ h _ := ⟨h, fun _ hkeeps => hkeeps⟩

def Behaviour.RestsRecalled (P : String → Prop) :
    (b : Behaviour) → b.lifecycle.State → Context → Prop
  | .recordModule => fun (state : Option (String × Registries)) cx =>
    Recalled P (state.map Prod.snd) cx
  | .useInside => fun (state : Option Registries) cx => Recalled P state cx
  | .useFromHere => fun (state : Option Registries) cx => Recalled P state cx
  | _ => fun _ _ => True

/-- **No lifecycle makes up a definition.** -/
theorem upholds_history (P : String → Prop) (b : Behaviour) :
    b.lifecycle.Upholds (.history P) (b.RestsRecalled P) := by
  cases b with
  | pushNotation => exact upholds_history_pushNotation.upholds
  | popNotation => exact upholds_history_popNotation.upholds
  | recordModule => exact upholds_history_recordModule
  | useInside => exact upholds_history_useInside
  | useFromHere => exact upholds_history_useFromHere
  | _ => exact (upholdsEach_bystander registers_history rfl).upholds

end Lifecycles

/-- A fresh context has its configuration, and the state of its macros, if there is one, is
fresh. -/
theorem Context.initial_start {c : Configuration} {bindings : Dict String} {cx : Context}
    (h : Context.start c bindings = .ok cx) :
    cx.configuration = c ∧ ∀ s, cx.macros = .ok s → s = .initial := by
  unfold Context.start at h
  cases hstore : c.initializers.foldlM Store.setUp .vacant with
  | error fault =>
    rw [hstore] at h
    cases h
  | ok store =>
    rw [hstore] at h
    cases h
    refine ⟨rfl, fun s hs => ?_⟩
    by_cases hmacros : .macros ∈ c.initializers
    · have hget := Store.macros_setUpAll hstore (.inr hmacros)
      exact Except.ok.inj (hs.symm.trans hget)
    · have hs : store.macros.get = .ok s := hs
      rw [Store.macros_of_not_mem hstore hmacros] at hs
      cases hs

theorem Context.traced_start {P : String → Prop} {c : Configuration} {bindings : Dict String}
    {cx : Context} (hc : ∀ kind, (c.modifiers kind).All fun d => P d.name)
    (h : Context.start c bindings = .ok cx) : cx.Traced P ∧ cx.configuration = c := by
  obtain ⟨rfl, hinitial⟩ := Context.initial_start h
  have hall := fun kind => (hc kind).mono (Q := cx.configuration.Recalls P) fun _ hd => .inl hd
  refine ⟨⟨⟨hall .block, hall .inline⟩, hall .system, fun s hs r hr => ?_,
    fun s hs entry hentry => ?_⟩, rfl⟩
  · rw [hinitial s hs] at hr
    cases hr
  · rw [hinitial s hs] at hentry
    cases hentry

end MacroMarkup
