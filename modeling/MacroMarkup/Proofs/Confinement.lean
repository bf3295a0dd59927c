import MacroMarkup.Proofs.History
import MacroMarkup.Proofs.Reopening
import MacroMarkup.Proofs.Scenes

/-!
# Definitions stay where they were made

Modules, uses for a body and kept notations save the registries and put them back later, each
in its own way, and they may lie in each other as they like.

* `Scene.Remembers`: the registries that are visible or may be put back.
* `Scene.Confines`: what is hidden is in none of them, and only some modules hold it.
* `confines`, `Scene.Step.confines`, `Scene.Goes.confines`: one point keeps it hidden, and so do
  all, unless they make such a module visible.
* `Scene.Scope`: a module is opened, or used for a body, and closed again.
* `scopes_do_not_leak`: **what only the scope makes visible is not visible behind it**, until a
  module that holds it is opened or used, or a kept notation that shows it is put back:
  `reopened_module_shows_definitions`, `kept_notation_shows_definitions`.
-/

namespace MacroMarkup

open Parse

/-! ### Registrations -/

/-- The registration with this stamp is visible. -/
def Registries.Displays (r : Registries) (stamp : Nat) : Prop :=
  ∃ kind name d, (r.of kind).get? name = some d ∧ d.stamp = stamp

def ModuleRecord.Keeps (record : ModuleRecord) (stamp : Nat) : Prop :=
  ∃ kind, ∃ d ∈ record.of kind, d.stamp = stamp

def Registries.Indexed (r : Registries) : Prop := ∀ kind, (r.of kind).Indexed

namespace Registries

variable {r now earlier : Registries} {record : ModuleRecord} {replace : Bool} {stamp : Nat}
  {c : Configuration} {d : Definition}

theorem displays_of_merge (h : (r.merge replace record).1.Displays stamp) :
    r.Displays stamp ∨ record.Keeps stamp := by
  obtain ⟨kind, name, d, hd, hstamp⟩ := h
  rw [of_merge] at hd
  rcases @get?_mergeInto replace name (record.of kind) (r.of kind) with hkept | hused
  · exact .inl ⟨kind, name, d, hkept ▸ hd, hstamp⟩
  · obtain ⟨d', hd', -, hfound⟩ := hused
    rw [hfound] at hd
    cases hd
    exact .inr ⟨kind, d, hd', hstamp⟩

theorem displays_of_keeps_addedSince (h : (now.addedSince earlier).Keeps stamp) :
    now.Displays stamp := by
  obtain ⟨kind, d, hd, hstamp⟩ := h
  rw [of_addedSince, added, List.mem_filter, Registry.mem_definitions] at hd
  exact ⟨kind, _, d, hd.1, hstamp⟩

theorem of_registries (c : Configuration) (kind : MacroKind) :
    c.registries.of kind = c.modifiers kind.modifierKind := by
  cases kind <;> rfl

theorem displays_of_set (h : (c.set d).registries.Displays stamp) :
    c.registries.Displays stamp ∨ stamp = c.nextStamp := by
  obtain ⟨kind, name, x, hx, hstamp⟩ := h
  rw [of_registries, Configuration.get?_set] at hx
  split at hx
  · cases hx
    exact .inr hstamp.symm
  · rw [← of_registries] at hx
    exact .inl ⟨kind, name, x, hx, hstamp⟩

theorem indexed_mergeInto : ∀ (ds : List Definition) {registry : Registry Definition},
    registry.Indexed → (mergeInto replace registry ds).1.Indexed := by
  intro ds
  induction ds with
  | nil => exact fun h => h
  | cons d rest ih =>
    intro registry h
    rw [mergeInto]
    split
    · exact ih (h.set d)
    · split
      · exact ih h
      · cases replace with
        | false => exact ih h
        | true => exact ih (h.set d)

theorem Indexed.merge (h : r.Indexed) : (r.merge replace record).1.Indexed := by
  intro kind
  rw [of_merge]
  exact indexed_mergeInto _ (h kind)

theorem Indexed.register (h : c.registries.Indexed) : (c.set d).registries.Indexed := by
  intro kind
  have hkind := h kind
  obtain ⟨stamp, dname, dkind, slot, delaysContent, alwaysExpands, behaviour⟩ := d
  cases dkind <;> cases kind <;> first | exact hkind | exact hkind.set _

end Registries

/-! ### What is hidden -/

/-- The registries that a modifier is going to put in place. -/
def Behaviour.registries? : (b : Behaviour) → b.lifecycle.State → Option Registries
  | .recordModule => fun state : Option (String × Registries) => state.map Prod.snd
  | .useInside => fun state : Option Registries => state
  | .useFromHere => fun state : Option Registries => state
  | _ => fun _ => none

/-- Nothing that is hidden is visible in these registries, which were made by the time when the
next registration gets this stamp. -/
structure Registries.Hides (hidden : Nat → Prop) (next : Nat) (r : Registries) : Prop where
  indexed : r.Indexed
  hides : ∀ stamp, r.Displays stamp → stamp < next ∧ ¬ hidden stamp

/-- What is hidden has been made, is visible neither in the registries nor in kept ones, and is
held by the modules `among` at most. -/
structure Context.Confines (hidden : Nat → Prop) (among : String → Prop) (cx : Context) :
    Prop where
  made : ∀ stamp, hidden stamp → stamp < cx.configuration.nextStamp
  registries : cx.registries.Hides hidden cx.configuration.nextStamp
  notations : ∀ t, cx.macros = .ok t → ∀ r ∈ t.notations,
    r.Hides hidden cx.configuration.nextStamp
  modules : ∀ t, cx.macros = .ok t → ∀ name record, t.modules.get? name = some record →
    ∀ stamp, record.Keeps stamp →
      stamp < cx.configuration.nextStamp ∧ (hidden stamp → among name)

def Upkeep.confines (hidden : Nat → Prop) (among : String → Prop) : Upkeep where
  allows := anyFault
  Holds := Context.Confines hidden among
  Keeps cx cx' := cx'.Confines hidden among ∧
    cx.configuration.nextStamp ≤ cx'.configuration.nextStamp
  refl h := ⟨h, Nat.le_refl _⟩
  trans h g := ⟨g.1, Nat.le_trans h.2 g.2⟩
  holds h := h.1
  missing _ _ := trivial

def Behaviour.RestsHiding (hidden : Nat → Prop) (b : Behaviour) (state : b.lifecycle.State)
    (cx : Context) : Prop :=
  ∀ r, b.registries? state = some r → r.Hides hidden cx.configuration.nextStamp

section Confines

variable {hidden : Nat → Prop} {among : String → Prop} {cx cx' : Context}

theorem Registries.Hides.mono {r : Registries} {next next' : Nat} (h : r.Hides hidden next)
    (hnext : next ≤ next') : r.Hides hidden next' :=
  ⟨h.indexed, fun stamp hr => ⟨Nat.lt_of_lt_of_le (h.hides stamp hr).1 hnext, (h.hides stamp hr).2⟩⟩

theorem Registries.Hides.merge {r : Registries} {next : Nat} {replace : Bool}
    {record : ModuleRecord} (h : r.Hides hidden next)
    (hrecord : ∀ stamp, record.Keeps stamp → stamp < next ∧ ¬ hidden stamp) :
    (r.merge replace record).1.Hides hidden next :=
  ⟨h.indexed.merge, fun stamp hr => (displays_of_merge hr).elim (h.hides stamp) (hrecord stamp)⟩

theorem Context.Confines.restore {r : Registries} (h : cx.Confines hidden among)
    (hr : r.Hides hidden cx.configuration.nextStamp) : (cx.restore r).Confines hidden among :=
  ⟨h.made, hr, h.notations, h.modules⟩

theorem Context.Confines.withMacros {s t : MacroState} (h : cx.Confines hidden among)
    (hs : cx.macros = .ok s)
    (hnotations : ∀ r ∈ t.notations, r.Hides hidden cx.configuration.nextStamp)
    (hmodules : t.modules = s.modules) : (cx.withMacros t).Confines hidden among := by
  refine ⟨h.made, h.registries, fun u hu => ?_, fun u hu => ?_⟩
  · cases hu
    exact hnotations
  · cases hu
    rw [hmodules]
    exact h.modules s hs

theorem Context.Confines.register {d : Definition} (h : cx.Confines hidden among) :
    Context.Confines hidden among
      { cx with configuration := cx.configuration.set d }.configurationChanged ∧
    cx.configuration.nextStamp ≤ (cx.configuration.set d).nextStamp := by
  have hnext : (cx.configuration.set d).nextStamp = cx.configuration.nextStamp + 1 := by
    rw [Configuration.nextStamp, Configuration.history_set, List.length_cons,
      Configuration.nextStamp]
  have hle : cx.configuration.nextStamp ≤ (cx.configuration.set d).nextStamp := by omega
  refine ⟨⟨fun stamp hs => Nat.lt_of_lt_of_le (h.made stamp hs) hle,
    ⟨h.registries.indexed.register, fun stamp hstamp => ?_⟩,
    fun t ht r hr => (h.notations t ht r hr).mono hle, fun t ht name record hrecord stamp hk => ?_⟩,
    hle⟩
  · rcases Registries.displays_of_set hstamp with hold | rfl
    · exact ((h.registries.mono hle).hides stamp hold)
    · refine ⟨?_, fun hhidden => Nat.lt_irrefl _ (h.made _ hhidden)⟩
      show _ < (cx.configuration.set d).nextStamp
      omega
  · obtain ⟨hlt, himp⟩ := h.modules t ht name record hrecord stamp hk
    exact ⟨Nat.lt_of_lt_of_le hlt hle, himp⟩

theorem registers_confines : (Upkeep.confines hidden among).Registers where
  allows _ := trivial
  setVariable _ _ h := ⟨⟨h.made, h.registries, h.notations, h.modules⟩, Nat.le_refl _⟩
  withMacros {cx s t} h hs hnotations hmodules _ := by
    refine ⟨h.withMacros hs ?_ hmodules, Nat.le_refl _⟩
    rw [hnotations]
    exact h.notations s hs
  register _ _ _ h := h.register

theorem Behaviour.RestsHiding.mono {b : Behaviour} {state : b.lifecycle.State}
    (h : b.RestsHiding hidden state cx) (hkeeps : (Upkeep.confines hidden among).Keeps cx cx') :
    b.RestsHiding hidden state cx' :=
  fun r hr => (h r hr).mono hkeeps.2

end Confines

/-! ### One point -/

/-- The points of a behaviour keep hidden what is hidden, unless they make visible a module that
may hold it. -/
structure Behaviour.Confining (hidden : Nat → Prop) (among : String → Prop) (b : Behaviour) :
    Prop where
  beforeContent : ∀ m immediate cx, cx.Confines hidden among →
    Ensures anyFault (b.lifecycle.beforeContent m immediate) cx fun r cx' =>
      (∀ name ∈ b.visits m r.1, ¬ among name) →
        (Upkeep.confines hidden among).Keeps cx cx' ∧ b.RestsHiding hidden r.1 cx'
  afterContent : ∀ state cx, cx.Confines hidden among → b.RestsHiding hidden state cx →
    Ensures anyFault (b.lifecycle.afterContent state) cx fun state' cx' =>
      (Upkeep.confines hidden among).Keeps cx cx' ∧ b.RestsHiding hidden state' cx'
  prepare : ∀ m state immediate cx, cx.Confines hidden among → b.RestsHiding hidden state cx →
    Ensures anyFault (b.lifecycle.prepare m state immediate) cx fun r cx' =>
      (∀ name ∈ b.visits m r.1, ¬ among name) →
        (Upkeep.confines hidden among).Keeps cx cx' ∧ b.RestsHiding hidden r.1 cx'
  expand : ∀ m state immediate cx, cx.Confines hidden among → b.RestsHiding hidden state cx →
    Ensures anyFault (b.lifecycle.expand m state immediate) cx fun d cx' =>
      (Upkeep.confines hidden among).Keeps cx cx' ∧ b.RestsHiding hidden d.2 cx'
  beforeProcessing : ∀ m state cx, cx.Confines hidden among → b.RestsHiding hidden state cx →
    Ensures anyFault (b.lifecycle.beforeProcessing m state) cx fun state' cx' =>
      (Upkeep.confines hidden among).Keeps cx cx' ∧ b.RestsHiding hidden state' cx'
  afterProcessing : ∀ state cx, cx.Confines hidden among → b.RestsHiding hidden state cx →
    Ensures anyFault (b.lifecycle.afterProcessing state) cx fun _ cx' =>
      (Upkeep.confines hidden among).Keeps cx cx'

section Points

variable {hidden : Nat → Prop} {among : String → Prop} {cx : Context}

/-- A behaviour that puts no registries in place keeps hidden what its points do. -/
theorem Behaviour.Confining.of_each {b : Behaviour}
    (h : b.lifecycle.UpholdsEach (.confines hidden among) anyState)
    (hb : ∀ state, b.registries? state = none) : b.Confining hidden among := by
  have hrests : ∀ state cx, b.RestsHiding hidden state cx := by
    intro state cx r hr
    rw [hb] at hr
    cases hr
  exact {
    beforeContent := fun m immediate cx hcx => (h.beforeContent m immediate cx hcx).mono
      fun _ _ hkeeps _ => ⟨hkeeps.1, hrests _ _⟩
    afterContent := fun state cx hcx _ => (h.afterContent state trivial cx hcx).mono
      fun _ _ hkeeps => ⟨hkeeps.1, hrests _ _⟩
    prepare := fun m state immediate cx hcx _ => (h.prepare m state immediate trivial cx hcx).mono
      fun _ _ hkeeps _ => ⟨hkeeps.1, hrests _ _⟩
    expand := fun m state immediate cx hcx _ => (h.expand m state immediate trivial cx hcx).mono
      fun _ _ hkeeps => ⟨hkeeps.1, hrests _ _⟩
    beforeProcessing := fun m state cx hcx _ => (h.beforeProcessing m state trivial cx hcx).mono
      fun _ _ hkeeps => ⟨hkeeps.1, hrests _ _⟩
    afterProcessing := fun state cx hcx _ => (h.afterProcessing state trivial cx hcx).mono
      fun _ _ hkeeps => hkeeps.1 }

theorem upholds_confines_pushNotation :
    pushNotationLifecycle.UpholdsEach (.confines hidden among) anyState where
  beforeContent _ _ := .pure trivial
  afterContent _ _ := .pure trivial
  prepare _ _ _ _ := .pure trivial
  expand m state immediate _ := by
    intro cx h
    simp only [pushNotationLifecycle, ensures_bind, ensures_get, ensures_pure, and_true]
    refine ensures_modifyMacros_of fun s hs => ⟨h.withMacros hs ?_ rfl, Nat.le_refl _⟩
    exact List.forall_mem_cons.mpr ⟨h.registries, h.notations s hs⟩
  beforeProcessing _ _ _ := .pure trivial
  afterProcessing _ _ := .pure trivial

theorem upholds_confines_popNotation :
    popNotationLifecycle.UpholdsEach (.confines hidden among) anyState where
  beforeContent _ _ := .pure trivial
  afterContent _ _ := .pure trivial
  prepare m state immediate _ := by
    refine .macros registers_confines fun cx s h hs => ?_
    cases hnotations : s.notations with
    | nil => exact ⟨(Upkeep.confines hidden among).refl h, trivial⟩
    | cons r earlier =>
      have hall := h.notations s hs
      rw [hnotations] at hall
      obtain ⟨hr, hearlier⟩ := List.forall_mem_cons.mp hall
      have hpopped : (cx.withMacros { s with notations := earlier }).Confines hidden among :=
        h.withMacros hs hearlier rfl
      refine ensures_bind.mpr ((ensures_modifyMacros hs).mpr ?_)
      exact ⟨⟨hpopped.restore hr, Nat.le_refl _⟩, trivial⟩
  expand _ _ _ _ := .pure trivial
  beforeProcessing _ _ _ := .pure trivial
  afterProcessing _ _ := .pure trivial

theorem confines_beforeContent_recordModule {m : Modifier} {immediate : Bool}
    (h : cx.Confines hidden among) :
    Ensures anyFault (moduleLifecycle.beforeContent m immediate) cx fun r cx' =>
      (∀ name ∈ Behaviour.recordModule.visits m r.1, ¬ among name) →
        (Upkeep.confines hidden among).Keeps cx cx' ∧
          Behaviour.recordModule.RestsHiding hidden r.1 cx' := by
  have refused : ∀ messages, Ensures anyFault
      (pure (none, messages) : Step (Option (String × Registries) × List Message)) cx
      fun r cx' => (∀ name ∈ Behaviour.recordModule.visits m r.1, ¬ among name) →
        (Upkeep.confines hidden among).Keeps cx cx' ∧
          Behaviour.recordModule.RestsHiding hidden r.1 cx' :=
    fun _ _ => ⟨(Upkeep.confines hidden among).refl h, fun _ hr => by cases hr⟩
  simp only [moduleLifecycle]
  rw [ensures_ite]
  refine ⟨fun _ => refused _, fun _ => ?_⟩
  split
  · exact refused _
  split
  · rename_i argument _ hargument
    rw [ensures_ite]
    refine ⟨fun _ => refused _, fun _ => ?_⟩
    rw [ensures_bind]
    refine ensures_macros_of fun s hs => ?_
    rw [ensures_ite]
    refine ⟨fun _ => refused _, fun _ => ?_⟩
    -- the module is entered, whatever registries its body starts with
    have enters : ∀ cx' : Context, cx'.macros = .ok s →
        cx'.configuration.nextStamp = cx.configuration.nextStamp →
        (¬ among argument.text → cx'.Confines hidden among) →
        Ensures anyFault
          (Step.modifyMacros fun s => { s with insideModule := some argument.text }) cx'
          fun _ cx'' => (∀ name ∈ [argument.text], ¬ among name) →
            (Upkeep.confines hidden among).Keeps cx cx'' ∧
              Behaviour.recordModule.RestsHiding hidden (some (argument.text, cx.registries))
                cx'' := by
      intro cx' hs' hnext hconfines
      rw [ensures_modifyMacros hs']
      intro hvisits
      have hcx' := hconfines (hvisits _ List.mem_cons_self)
      refine ⟨⟨hcx'.withMacros hs' (hcx'.notations s hs') rfl, Nat.le_of_eq hnext.symm⟩, ?_⟩
      intro r hr
      cases hr
      exact h.registries.mono (Nat.le_of_eq hnext.symm)
    simp only [ensures_bind, ensures_get]
    split
    · rename_i record hrecord
      simp only [Step.restore, ensures_bind, ensures_modify, ensures_pure]
      refine enters (cx.restore _) hs rfl fun hamong =>
        h.restore (h.registries.merge fun stamp hkeeps => ?_)
      obtain ⟨hlt, himp⟩ := h.modules s hs _ _ hrecord stamp hkeeps
      exact ⟨hlt, fun hhidden => hamong (himp hhidden)⟩
    · simp only [ensures_bind, ensures_pure]
      exact enters cx hs rfl fun _ => h
  · exact refused _

theorem confines_afterContent_recordModule {state : Option (String × Registries)}
    (h : cx.Confines hidden among) (hstate : Behaviour.recordModule.RestsHiding hidden state cx) :
    Ensures anyFault (moduleLifecycle.afterContent state) cx fun state' cx' =>
      (Upkeep.confines hidden among).Keeps cx cx' ∧
        Behaviour.recordModule.RestsHiding hidden state' cx' := by
  cases state with
  | none => exact ⟨(Upkeep.confines hidden among).refl h, hstate⟩
  | some module =>
    simp only [moduleLifecycle, ensures_bind, ensures_get]
    refine ensures_modifyMacros_of fun s hs => ?_
    have hrecorded : (cx.withMacros { s with
        insideModule := none
        modules := s.modules.set module.1 (cx.registries.addedSince module.2) }).Confines
          hidden among := by
      refine ⟨h.made, h.registries, fun t ht => ?_, fun t ht name record hrecord stamp hk => ?_⟩
      · cases ht
        exact h.notations s hs
      · cases ht
        rw [Dict.get?_set] at hrecord
        split at hrecord
        · cases hrecord
          obtain ⟨hlt, hnot⟩ :=
            h.registries.hides stamp (Registries.displays_of_keeps_addedSince hk)
          exact ⟨hlt, fun hhidden => absurd hhidden hnot⟩
        · exact h.modules s hs name record hrecord stamp hk
    exact ⟨⟨hrecorded.restore (hstate _ rfl), Nat.le_refl _⟩, fun _ hr => by cases hr⟩

theorem confining_recordModule : Behaviour.recordModule.Confining hidden among where
  beforeContent _ _ _ h := confines_beforeContent_recordModule h
  afterContent _ _ h hstate := confines_afterContent_recordModule h hstate
  prepare _ _ _ _ h hstate := fun _ => ⟨(Upkeep.confines hidden among).refl h, hstate⟩
  expand _ _ _ _ h hstate := ⟨(Upkeep.confines hidden among).refl h, hstate⟩
  beforeProcessing _ _ _ h hstate := ⟨(Upkeep.confines hidden among).refl h, hstate⟩
  afterProcessing _ _ h _ := (Upkeep.confines hidden among).refl h

theorem Registries.Hides.uses {m : Modifier} {record : ModuleRecord} {r : Registries}
    (h : cx.Confines hidden among) (hr : r.Hides hidden cx.configuration.nextStamp)
    (hrecord : ∃ s, cx.macros = .ok s ∧
      ∃ name ∈ m.arguments.map (·.text), s.modules.get? name = some record)
    (hvisits : ∀ name ∈ m.arguments.map (·.text), ¬ among name) :
    (r.merge true record).1.Hides hidden cx.configuration.nextStamp := by
  obtain ⟨s, hs, name, hname, hget⟩ := hrecord
  refine hr.merge fun stamp hkeeps => ?_
  obtain ⟨hlt, himp⟩ := h.modules s hs name record hget stamp hkeeps
  exact ⟨hlt, fun hhidden => hvisits name hname (himp hhidden)⟩

theorem confining_useInside : Behaviour.useInside.Confining hidden among where
  beforeContent m immediate cx h := by
    simp only [Behaviour.lifecycle, useInsideLifecycle, ensures_bind]
    refine ensures_findModule_recorded.mono ?_
    rintro found _ ⟨rfl, hfound⟩
    cases found with
    | error messages =>
      exact fun _ => ⟨(Upkeep.confines hidden among).refl h, fun _ hr => by cases hr⟩
    | ok record =>
      intro hvisits
      have hmerged := h.registries.uses h (hfound record rfl) hvisits
      refine ⟨⟨h.restore hmerged, Nat.le_refl _⟩, fun r hr => ?_⟩
      cases hr
      exact h.registries
  afterContent state cx h hstate := by
    cases state with
    | none => exact ⟨(Upkeep.confines hidden among).refl h, hstate⟩
    | some outer =>
      exact ⟨⟨h.restore (hstate outer rfl), Nat.le_refl _⟩, fun _ hr => by cases hr⟩
  prepare _ _ _ _ h hstate := fun _ => ⟨(Upkeep.confines hidden among).refl h, hstate⟩
  expand _ _ _ _ h hstate := ⟨(Upkeep.confines hidden among).refl h, hstate⟩
  beforeProcessing _ _ _ h hstate := ⟨(Upkeep.confines hidden among).refl h, hstate⟩
  afterProcessing _ _ h _ := (Upkeep.confines hidden among).refl h

theorem confining_useFromHere : Behaviour.useFromHere.Confining hidden among where
  beforeContent _ _ _ h :=
    fun _ => ⟨(Upkeep.confines hidden among).refl h, fun _ hr => by cases hr⟩
  afterContent _ _ h hstate := ⟨(Upkeep.confines hidden among).refl h, hstate⟩
  prepare m state immediate cx h hstate := by
    simp only [Behaviour.lifecycle, useFromHereLifecycle, ensures_bind]
    refine ensures_findModule_recorded.mono ?_
    rintro found _ ⟨rfl, hfound⟩
    cases found with
    | error messages => exact fun _ => ⟨(Upkeep.confines hidden among).refl h, hstate⟩
    | ok record =>
      intro hvisits
      refine ⟨(Upkeep.confines hidden among).refl h, fun r hr => ?_⟩
      cases hr
      exact h.registries.uses h (hfound record rfl) hvisits
  expand m state immediate cx h hstate := by
    cases state with
    | none => exact ⟨(Upkeep.confines hidden among).refl h, fun _ hr => by cases hr⟩
    | some merged =>
      exact ⟨⟨h.restore (hstate merged rfl), Nat.le_refl _⟩, fun _ hr => by cases hr⟩
  beforeProcessing _ _ _ h hstate := ⟨(Upkeep.confines hidden among).refl h, hstate⟩
  afterProcessing _ _ h _ := (Upkeep.confines hidden among).refl h

/-- **Every point keeps hidden what is hidden**, unless it makes visible a module that may hold
it. -/
theorem confining (hidden : Nat → Prop) (among : String → Prop) (b : Behaviour) :
    b.Confining hidden among := by
  cases b with
  | pushNotation => exact .of_each upholds_confines_pushNotation fun _ => rfl
  | popNotation => exact .of_each upholds_confines_popNotation fun _ => rfl
  | recordModule => exact confining_recordModule
  | useInside => exact confining_useInside
  | useFromHere => exact confining_useFromHere
  | _ => exact .of_each (upholdsEach_bystander registers_confines rfl) fun _ => rfl

end Points

/-! ### Scenes -/

namespace Scene

/-- The registries that are visible at the scene, were kept before, or are going to be put in
place by a modifier that is alive. -/
inductive Remembers (s : Scene) : Registries → Prop
  | visible : s.Remembers s.context.registries
  | kept {t : MacroState} {r : Registries} : s.context.macros = .ok t → r ∈ t.notations →
    s.Remembers r
  | waiting {a : Alive} {r : Registries} : a ∈ s.alive → a.behaviour.registries? a.state = some r →
    s.Remembers r

/-- What is hidden is not visible in anything that the scene remembers, and is held by the
modules `among` at most. -/
structure Confines (hidden : Nat → Prop) (among : String → Prop) (s : Scene) : Prop where
  context : s.context.Confines hidden among
  alive : ∀ a ∈ s.alive, a.behaviour.RestsHiding hidden a.state s.context

variable {hidden : Nat → Prop} {among : String → Prop} {s s' : Scene} {names : List String}
  {r : Registries}

theorem Confines.remembers (h : s.Confines hidden among) (hr : s.Remembers r) :
    r.Hides hidden s.context.configuration.nextStamp := by
  cases hr with
  | visible => exact h.context.registries
  | kept ht hr => exact h.context.notations _ ht _ hr
  | waiting ha hr => exact h.alive _ ha _ hr

/-- **One step keeps hidden what is hidden**, unless it makes visible a module that may hold
it. -/
theorem Step.confines (h : s.Step names s') (hs : s.Confines hidden among)
    (hnames : ∀ name ∈ names, ¬ among name) : s'.Confines hidden among := by
  obtain ⟨hcx, halive⟩ := hs
  -- the modifiers around the one that lives on
  have around : ∀ {cx cx' : Context} {alive : List Alive},
      (∀ a ∈ alive, a.behaviour.RestsHiding hidden a.state cx) →
      (Upkeep.confines hidden among).Keeps cx cx' →
      ∀ a ∈ alive, a.behaviour.RestsHiding hidden a.state cx' :=
    fun hall hkeeps a ha => (hall a ha).mono hkeeps
  cases h with
  | opens hrun =>
    obtain ⟨hkeeps, hrests⟩ :=
      ((confining hidden among _).beforeContent _ _ _ hcx).of_ok hrun hnames
    exact ⟨hkeeps.1, List.forall_mem_cons.mpr ⟨hrests, around halive hkeeps⟩⟩
  | closes hrun =>
    obtain ⟨hstate, halive⟩ := List.forall_mem_cons.mp halive
    obtain ⟨hkeeps, hrests⟩ := ((confining hidden among _).afterContent _ _ hcx hstate).of_ok hrun
    exact ⟨hkeeps.1, List.forall_mem_cons.mpr ⟨hrests, around halive hkeeps⟩⟩
  | prepares hrun =>
    obtain ⟨hstate, halive⟩ := List.forall_mem_cons.mp halive
    obtain ⟨hkeeps, hrests⟩ :=
      ((confining hidden among _).prepare _ _ _ _ hcx hstate).of_ok hrun hnames
    exact ⟨hkeeps.1, List.forall_mem_cons.mpr ⟨hrests, around halive hkeeps⟩⟩
  | expands hrun =>
    obtain ⟨hstate, halive⟩ := List.forall_mem_cons.mp halive
    obtain ⟨hkeeps, hrests⟩ := ((confining hidden among _).expand _ _ _ _ hcx hstate).of_ok hrun
    exact ⟨hkeeps.1, List.forall_mem_cons.mpr ⟨hrests, around halive hkeeps⟩⟩
  | enters hrun =>
    obtain ⟨hstate, halive⟩ := List.forall_mem_cons.mp halive
    obtain ⟨hkeeps, hrests⟩ :=
      ((confining hidden among _).beforeProcessing _ _ _ hcx hstate).of_ok hrun
    exact ⟨hkeeps.1, List.forall_mem_cons.mpr ⟨hrests, around halive hkeeps⟩⟩
  | leaves hrun =>
    obtain ⟨hstate, halive⟩ := List.forall_mem_cons.mp halive
    have hkeeps := ((confining hidden among _).afterProcessing _ _ hcx hstate).of_ok hrun
    exact ⟨hkeeps.1, around halive hkeeps⟩
  | ends => exact ⟨hcx, (List.forall_mem_cons.mp halive).2⟩

/-- **Steps keep hidden what is hidden**, as long as none makes visible a module that may hold
it. -/
theorem Goes.confines (h : s.Goes names s') (hs : s.Confines hidden among)
    (hnames : ∀ name ∈ names, ¬ among name) : s'.Confines hidden among := by
  induction h with
  | stays => exact hs
  | step _ hstep ih =>
    exact hstep.confines (ih fun name hname => hnames name (List.mem_append_left _ hname))
      fun name hname => hnames name (List.mem_append_right _ hname)

/-- A module was opened, or used for a body, at the first scene; its body was read or walked,
and it was closed again at the second. -/
inductive Scope (before : Scene) : Scene → Prop
  | intro {b : Behaviour} {m : Modifier} {immediate : Bool} {state state' : b.lifecycle.State}
      {messages : List Message} {outer : Registries} {names : List String}
      {cx₁ cx₂ cx₃ : Context} :
      b = .recordModule ∨ b = .useInside →
      b.lifecycle.beforeContent m immediate before.context = .ok ((state, messages), cx₁) →
      b.registries? state = some outer →
      Goes ⟨⟨b, state, false⟩ :: before.alive, cx₁⟩ names ⟨⟨b, state, false⟩ :: before.alive, cx₂⟩ →
      b.lifecycle.afterContent state cx₂ = .ok (state', cx₃) →
      Scope before ⟨⟨b, state', true⟩ :: before.alive, cx₃⟩

end Scene

section Scopes

variable {b : Behaviour} {m : Modifier} {immediate : Bool} {state : b.lifecycle.State}
  {outer : Registries} {cx : Context}

theorem ensures_opens_outer (hb : b = .recordModule ∨ b = .useInside) :
    Ensures anyFault (b.lifecycle.beforeContent m immediate) cx fun r _ =>
      ∀ outer, b.registries? r.1 = some outer → outer = cx.registries := by
  rcases hb with rfl | rfl
  · have refused : ∀ messages, Ensures anyFault
        (pure (none, messages) : Step (Option (String × Registries) × List Message)) cx
        fun r _ => ∀ outer, r.1.map Prod.snd = some outer → outer = cx.registries :=
      fun _ _ h => by cases h
    simp only [Behaviour.lifecycle, moduleLifecycle]
    rw [ensures_ite]
    refine ⟨fun _ => refused _, fun _ => ?_⟩
    split
    · exact refused _
    split
    · rw [ensures_ite]
      refine ⟨fun _ => refused _, fun _ => ?_⟩
      rw [ensures_bind]
      refine ensures_macros_of fun s hs => ?_
      rw [ensures_ite]
      refine ⟨fun _ => refused _, fun _ => ?_⟩
      have entered : ∀ (f : MacroState → MacroState) (cx' : Context) (name : String),
          Ensures anyFault (Step.modifyMacros f) cx' fun _ _ =>
            ∀ outer, (some (name, cx.registries)).map Prod.snd = some outer →
              outer = cx.registries :=
        fun _ _ _ => ensures_of_forall fun _ _ _ h => (Option.some.inj h).symm
      simp only [ensures_bind, ensures_get]
      split
      · simp only [Step.restore, ensures_bind, ensures_modify, ensures_pure]
        exact entered _ _ _
      · simp only [ensures_bind, ensures_pure]
        exact entered _ _ _
    · exact refused _
  · simp only [Behaviour.lifecycle, useInsideLifecycle, ensures_bind]
    refine ensures_findModule_recorded.mono ?_
    rintro found _ ⟨rfl, -⟩
    cases found with
    | error messages => exact fun _ h => by cases h
    | ok record =>
      intro _ h
      cases h
      rfl

theorem ensures_closes_outer (hb : b = .recordModule ∨ b = .useInside)
    (hstate : b.registries? state = some outer) :
    Ensures anyFault (b.lifecycle.afterContent state) cx fun state' cx' =>
      cx'.registries = outer ∧ b.registries? state' = none := by
  rcases hb with rfl | rfl
  · cases state with
    | none => cases hstate
    | some module =>
      cases hstate
      simp only [Behaviour.lifecycle, moduleLifecycle, ensures_bind, ensures_get]
      exact ensures_modifyMacros_of fun _ _ => ⟨rfl, rfl⟩
  · cases hstate
    exact ⟨rfl, rfl⟩

variable {before after : Scene}

/-- **Behind a scope the registries are what they were before it**, whatever its body did, and
nothing that is alive there puts others in place. -/
theorem Scene.Scope.restores (h : before.Scope after) :
    after.context.registries = before.context.registries ∧
      ∃ a names, after.alive = a :: before.alive ∧ a.behaviour.registries? a.state = none ∧
        before.Goes names after := by
  cases h with
  | intro hb hopens houter hbody hcloses =>
    obtain rfl := (ensures_opens_outer hb).of_ok hopens _ houter
    obtain ⟨hback, hnone⟩ := (ensures_closes_outer hb houter).of_ok hcloses
    exact ⟨hback, _, _, rfl, hnone, ((Step.opens hopens).goes.trans hbody).step (.closes hcloses)⟩

end Scopes

/-! ### Configurations in order -/

/-- The indexes of its registries agree, and all that is visible was registered. -/
def Configuration.InOrder (c : Configuration) : Prop :=
  c.registries.Hides (fun _ => False) c.nextStamp

namespace Configuration

variable {c : Configuration}

theorem inOrder_empty : (empty : Configuration).InOrder where
  indexed kind := by cases kind <;> exact Registry.indexed_empty
  hides stamp h := by
    obtain ⟨kind, name, d, hd, -⟩ := h
    cases kind <;> cases hd

theorem InOrder.set (h : c.InOrder) (d : Definition) : (c.set d).InOrder := by
  refine ⟨h.indexed.register, fun stamp hstamp => ⟨?_, not_false⟩⟩
  rw [nextStamp, history_set, List.length_cons]
  rcases Registries.displays_of_set hstamp with hold | rfl
  · exact Nat.lt_succ_of_lt (h.hides stamp hold).1
  · exact Nat.lt_succ_self _

theorem InOrder.setAll (h : c.InOrder) (definitions : List Definition) :
    (definitions.foldl Configuration.set c).InOrder := by
  induction definitions generalizing c with
  | nil => exact h
  | cons d rest ih => exact ih (h.set d)

theorem InOrder.setInterpolator (h : c.InOrder) (i : Interpolator) :
    (c.setInterpolator i).InOrder :=
  ⟨h.indexed, h.hides⟩

theorem InOrder.addInitializer (h : c.InOrder) (x : Initializer) :
    (c.addInitializer x).InOrder := by
  unfold Configuration.addInitializer
  split
  · exact h
  · exact ⟨h.indexed, h.hides⟩

end Configuration

theorem Builtin.inOrder : Builtin.configuration.InOrder :=
  have h : (definitions.foldl Configuration.set .empty).InOrder :=
    Configuration.InOrder.setAll Configuration.inOrder_empty definitions
  (h.setInterpolator interpolator).addInitializer .macros

theorem Context.confines_start {c : Configuration} {bindings : Dict String} {cx : Context}
    (hc : c.InOrder) (hcx : Context.start c bindings = .ok cx) :
    Scene.Confines (fun _ => False) (fun _ => False) ⟨[], cx⟩ := by
  obtain ⟨rfl, hinitial⟩ := Context.initial_start hcx
  refine ⟨⟨fun _ h => h.elim, hc, fun t ht r hr => ?_, fun t ht name record hrecord => ?_⟩,
    fun a ha => by cases ha⟩
  · rw [hinitial t ht] at hr
    cases hr
  · rw [hinitial t ht] at hrecord
    cases hrecord

section Bodies

variable {cx : Context} {m : Modifier} {state : m.definition.behaviour.lifecycle.State}
  {outer : Registries}

theorem run_of_reporting {α : Type} {step : Step (α × List Message)} {e e' : Engine} {a : α}
    (h : Expand.reporting step e = .ok (a, e')) :
    ∃ messages, step e.context = .ok ((a, messages), e'.context) := by
  have hrun : Ensures anyFault (Expand.reporting step) e fun a e' =>
      ∃ messages, step e.context = .ok ((a, messages), e'.context) :=
    ensures_reporting.mpr (ensures_of_run fun r cx' hr => ⟨r.2, hr⟩)
  exact hrun.of_ok h

/-- A module or a use for a body that is read from the source is a scope. -/
theorem Modifier.OpensAt.scope {r r' : Reader} {span : Span} {content : List Node} {e : Engine}
    {state' : m.definition.behaviour.lifecycle.State} {alive : List Alive}
    (hb : m.definition.behaviour = .recordModule ∨ m.definition.behaviour = .useInside)
    (hopens : m.OpensAt r state r') (houter : m.definition.behaviour.registries? state = some outer)
    (hcloses : m.ClosesAt r' state span content state' e) :
    Scene.Scope ⟨alive, r.engine.context⟩ ⟨⟨_, state', true⟩ :: alive, e.context⟩ := by
  obtain ⟨kind, head, r₁, opened, hhead, rfl, hopened, rfl⟩ := hopens
  obtain ⟨hscans, -⟩ := (ensures_readHead (World.scenes.readable trivial)).of_ok hhead
  obtain ⟨messages, hrun⟩ := run_of_reporting hopened
  rw [hscans.reports.context] at hrun
  obtain ⟨r'', hgets, -, hafter, -⟩ := hcloses
  obtain ⟨names, hbody⟩ := hgets.leads
  obtain ⟨cx', hclosed, rfl⟩ := ok_of_inContext hafter
  exact .intro hb hrun houter (hbody _) hclosed

theorem Modifier.Opens.scope {levels : Nat} {e opened closed later : Engine}
    {arguments : List Argument} {content : List Node}
    {state' : m.definition.behaviour.lifecycle.State} {alive : List Alive}
    (hb : m.definition.behaviour = .recordModule ∨ m.definition.behaviour = .useInside)
    (hopens : m.Opens e arguments state opened)
    (houter : m.definition.behaviour.registries? state = some outer)
    (hcontent : walkContent (process levels) { m with arguments := arguments } opened
      = .ok (content, closed))
    (hcloses : Expand.inContext (m.definition.behaviour.lifecycle.afterContent state) closed
      = .ok (state', later)) :
    Scene.Scope ⟨alive, e.context⟩ ⟨⟨_, state', true⟩ :: alive, later.context⟩ := by
  obtain ⟨-, e₁, harguments, -, hopened⟩ := hopens
  obtain ⟨⟨hreports, -⟩, -, -⟩ := (@ensures_expandArguments anyFault m.arguments e
    fun _ _ => trivial).of_ok harguments
  obtain ⟨messages, hrun⟩ := run_of_reporting hopened
  rw [hreports.context] at hrun
  obtain ⟨names, hbody⟩ := (leads_walkContent (leads_process levels)).of_ok hcontent
  obtain ⟨cx', hclosed, rfl⟩ := ok_of_inContext hcloses
  exact .intro hb hrun houter (hbody _) hclosed

/-- In a parse that starts in the context, a module is opened, or used for a body, in the
context `before`, and closed in the context `after`. -/
inductive Context.Scopes (cx : Context) : (before after : Context) → Prop
  /-- It is read from the source. -/
  | read {m : Modifier} {r r' : Reader} {span : Span} {content : List Node} {e : Engine}
      {state state' : m.definition.behaviour.lifecycle.State} {outer : Registries} :
      m.definition.behaviour = .recordModule ∨ m.definition.behaviour = .useInside →
      cx.Reads r → m.OpensAt r state r' → m.definition.behaviour.registries? state = some outer →
      m.ClosesAt r' state span content state' e → cx.Scopes r.engine.context e.context
  /-- It lies in generated content. -/
  | walked {m : Modifier} {v : Visit} {levels : Nat} {e opened closed later : Engine}
      {arguments : List Argument} {content : List Node}
      {state state' : m.definition.behaviour.lifecycle.State} {outer : Registries} :
      m.definition.behaviour = .recordModule ∨ m.definition.behaviour = .useInside →
      cx.Walks v → v.Meets levels (.modifier m) e → m.Opens e arguments state opened →
      m.definition.behaviour.registries? state = some outer →
      walkContent (process levels) { m with arguments := arguments } opened
        = .ok (content, closed) →
      Expand.inContext (m.definition.behaviour.lifecycle.afterContent state) closed
        = .ok (state', later) → cx.Scopes e.context later.context

/-- **What a parse opens and closes is a scope**, at a scene to which steps lead. -/
theorem Context.Scopes.scope {before after : Context} (h : cx.Scopes before after) :
    ∃ alive a names, Scene.Goes ⟨[], cx⟩ names ⟨alive, before⟩ ∧
      Scene.Scope ⟨alive, before⟩ ⟨a :: alive, after⟩ := by
  cases h with
  | read hb hr hopens houter hcloses =>
    obtain ⟨alive, names, hgoes⟩ := hr.goes
    exact ⟨alive, _, names, hgoes, hopens.scope hb houter hcloses⟩
  | walked hb hv hmet hopens houter hcontent hcloses =>
    obtain ⟨alive, names, hgoes⟩ := hv.goes
    obtain ⟨more, hmore⟩ := hmet.leads
    exact ⟨alive, _, names ++ more, hgoes.trans (hmore alive),
      hopens.scope hb houter hcontent hcloses⟩

end Bodies

/-- The module of this name holds the registration. -/
def Scene.Holds (s : Scene) (stamp : Nat) (name : String) : Prop :=
  ∃ t record, s.context.macros = .ok t ∧ t.modules.get? name = some record ∧ record.Keeps stamp

/-- What nothing remembered before a scope is hidden behind it, unless a notation was kept. -/
theorem Scene.Scope.confines {before after : Scene} {stamp : Nat} (h : before.Scope after)
    (hafter : after.Confines (fun _ => False) fun _ => False)
    (hmade : stamp < after.context.configuration.nextStamp)
    (hforgotten : ∀ r, before.Remembers r → ¬ r.Displays stamp)
    (hkept : ∀ t, after.context.macros = .ok t → ∀ r ∈ t.notations, ¬ r.Displays stamp) :
    after.Confines (· = stamp) (after.Holds stamp) := by
  obtain ⟨hback, a, -, halive, hnone, -⟩ := h.restores
  have hides : ∀ r, after.Remembers r → ¬ r.Displays stamp →
      r.Hides (· = stamp) after.context.configuration.nextStamp := by
    intro r hr hnot
    have hr := hafter.remembers hr
    exact ⟨hr.indexed, fun k hk => ⟨(hr.hides k hk).1, fun heq => hnot (heq ▸ hk)⟩⟩
  refine ⟨⟨fun k hk => hk ▸ hmade, ?_, fun t ht r hr => ?_,
    fun t ht name record hrecord k hk => ?_⟩,
    fun x hx r hr => ?_⟩
  · exact hides _ .visible (hback ▸ hforgotten _ .visible)
  · exact hides _ (.kept ht hr) (hkept t ht r hr)
  · refine ⟨(hafter.context.modules t ht name record hrecord k hk).1, fun heq => ?_⟩
    exact ⟨t, record, ht, hrecord, heq ▸ hk⟩
  · refine hides _ (.waiting hx hr) ?_
    rw [halive] at hx
    rcases List.mem_cons.mp hx with rfl | hx
    · rw [hnone] at hr
      cases hr
    · exact hforgotten _ (.waiting hx hr)

def Modifier.naming (d : Definition) (name : String) : Modifier where
  span := .empty 0
  head := .empty 0
  definition := d
  arguments := [⟨.empty 0, [.text (.empty 0) name], some name⟩]
  content := []
  expansion := none

/-- A module is opened, and in its body a block is defined; then it is closed, and opened again.
The answers are the state of the module in its body, and the context behind it. -/
def Modifier.reopens (module define : Modifier) :
    Step (Option (String × Registries) × Context) := do
  let (opened, _) ← moduleLifecycle.beforeContent module true
  let (state, _) ← (defineLifecycle .block).beforeContent define true
  let state ← (defineLifecycle .block).afterContent state
  let (state, _) ← (defineLifecycle .block).prepare define state true
  let _ ← (defineLifecycle .block).expand define state true
  let _ ← moduleLifecycle.afterContent opened
  let behind ← get
  let _ ← moduleLifecycle.beforeContent module true
  return (opened, behind)

/-- The body that is entered is a scope, and the module is opened again behind it. -/
theorem Modifier.scope_of_reopens {module define : Modifier} {cx behind later : Context}
    {outer : String × Registries}
    (h : module.reopens define cx = .ok ((some outer, behind), later)) :
    ∃ closed again names, Scene.Scope ⟨[], cx⟩ ⟨[⟨.recordModule, closed, true⟩], behind⟩ ∧
      Scene.Goes ⟨[⟨.recordModule, closed, true⟩], behind⟩ names
        ⟨[⟨.recordModule, again, false⟩, ⟨.recordModule, closed, true⟩], later⟩ := by
  obtain ⟨⟨opened, _⟩, cx₁, h₁, h⟩ := ok_of_bind h
  obtain ⟨⟨read, _⟩, cx₂, h₂, h⟩ := ok_of_bind h
  obtain ⟨left, cx₃, h₃, h⟩ := ok_of_bind h
  obtain ⟨⟨prepared, _⟩, cx₄, h₄, h⟩ := ok_of_bind h
  obtain ⟨⟨_, expanded⟩, cx₅, h₅, h⟩ := ok_of_bind h
  obtain ⟨closed, cx₆, h₆, h⟩ := ok_of_bind h
  obtain ⟨_, _, h₇, h⟩ := ok_of_bind h
  cases h₇
  obtain ⟨⟨again, _⟩, cx₈, h₈, h⟩ := ok_of_bind h
  cases h
  have hopens : Scene.Goes ⟨[⟨.recordModule, some outer, false⟩], cx₁⟩ []
      ⟨[⟨.define .block, read, false⟩, ⟨.recordModule, some outer, false⟩], cx₂⟩ :=
    (Scene.Step.opens (b := .define .block) (m := define) h₂).goes
  have hbody := (((hopens.step (.closes (b := .define .block) h₃)).step
    (.prepares (b := .define .block) h₄)).step (.expands (b := .define .block) h₅)).step .ends
  exact ⟨closed, again, _, .intro (b := .recordModule) (.inl rfl) h₁ rfl hbody h₆,
    (Scene.Step.opens (b := .recordModule) h₈).goes⟩

/-- **Modules and uses for a body do not leak.**  A parse in a fresh context is steps from one
scene to the next; what the parser recognises at a place is visible there, and the modules that
it opens and closes are scopes.  Behind a scope the registries are what they were before it,
whatever its body did.  Take a registration that was made in the body, or that nothing remembered
before the scope, and let no notation that is still kept behind the scope show it.  If it is
visible at any later point, then a module that held it behind the scope was made visible in
between. -/
theorem scopes_do_not_leak {c : Configuration} {bindings : Dict String} {cx : Context}
    (hc : c.InOrder) (hcx : Context.start c bindings = .ok cx) :
    (∀ r, cx.Reads r →
      (∃ alive names, Scene.Goes ⟨[], cx⟩ names ⟨alive, r.engine.context⟩) ∧
      ∀ (kind : MacroKind) start d r', readName kind.modifierKind start r = .ok (some d, r') →
        (r.engine.context.registries.of kind).get? d.name = some d) ∧
    (∀ alive r alive' r', Reader.Onward alive r alive' r' →
      ∃ names, Scene.Goes ⟨alive, r.engine.context⟩ names ⟨alive', r'.engine.context⟩) ∧
    (∀ before after, cx.Scopes before after → ∃ alive a names,
      Scene.Goes ⟨[], cx⟩ names ⟨alive, before⟩ ∧ Scene.Scope ⟨alive, before⟩ ⟨a :: alive, after⟩) ∧
    (∀ source d, cx.parse source = .ok d → ∃ names, Scene.Goes ⟨[], cx⟩ names ⟨[], d.context⟩) ∧
    ∀ names before after, Scene.Goes ⟨[], cx⟩ names before → before.Scope after →
      after.context.registries = before.context.registries ∧
      ∀ stamp, stamp < after.context.configuration.nextStamp →
        (before.context.configuration.nextStamp ≤ stamp ∨
          ∀ r, before.Remembers r → ¬ r.Displays stamp) →
        (∀ t, after.context.macros = .ok t → ∀ r ∈ t.notations, ¬ r.Displays stamp) →
        ∀ more later, after.Goes more later → later.context.registries.Displays stamp →
          ∃ name ∈ more, after.Holds stamp name := by
  have hstart := Context.confines_start hc hcx
  have holds : ∀ {names s}, Scene.Goes ⟨[], cx⟩ names s →
      s.Confines (fun _ => False) fun _ => False :=
    fun hgoes => hgoes.confines hstart fun _ _ => not_false
  refine ⟨fun r hr => ⟨hr.goes, fun kind start d r' hread => ?_⟩,
    fun _ _ _ _ honward => honward.goes, fun _ _ hscopes => hscopes.scope,
    fun source d hd => Context.goes_parse hd, ?_⟩
  · obtain ⟨alive, names, hgoes⟩ := hr.goes
    have hindexed : (r.engine.context.configuration.registries.of kind).Indexed :=
      (holds hgoes).context.registries.indexed kind
    rw [Context.registries]
    rw [Registries.of_registries] at hindexed ⊢
    exact (ensures_readName_visible hindexed).of_ok hread d rfl
  intro names before after hbefore hscope
  obtain ⟨hback, -, inside, -, -, hthrough⟩ := hscope.restores
  refine ⟨hback, fun stamp hmade hfresh hkept more later hlater hshows => ?_⟩
  have hforgotten : ∀ r, before.Remembers r → ¬ r.Displays stamp := by
    rcases hfresh with hafter | hforgotten
    · intro r hr hdisplays
      exact Nat.not_lt.mpr hafter (((holds hbefore).remembers hr).hides stamp hdisplays).1
    · exact hforgotten
  have hconfines := hscope.confines (holds (hbefore.trans hthrough)) hmade hforgotten hkept
  by_contra hnever
  have hlast := hlater.confines hconfines fun name hname hholds => hnever ⟨name, hname, hholds⟩
  exact (hlast.context.registries.hides stamp hshows).2 rfl

/-- The name `p` is defined in the module `m`, and is visible again when the module is opened
again. -/
theorem scopes_do_not_leak_reopened :
    ∃ cx before after later more, Context.start Builtin.configuration .empty = .ok cx ∧
      Scene.Goes ⟨[], cx⟩ [] before ∧ before.Scope after ∧ after.Goes more later ∧
      before.context.configuration.nextStamp = 17 ∧ later.context.registries.Displays 17 ∧
      ∃ name ∈ more, after.Holds 17 name := by
  let module := Modifier.naming (Builtin.modifier "module" .block .normal .recordModule) "m"
  let define := Modifier.naming (Builtin.definer "define-block" .block) "p"
  have hrun : ((Context.start Builtin.configuration .empty).bind fun cx =>
      module.reopens define cx).toOption.map (fun r =>
        (r.1.1.isSome, r.1.2.configuration.nextStamp,
          r.1.2.macros.toOption.map (·.notations.isEmpty),
          (r.2.configuration.blocks.get? "p").map (·.stamp)))
      = some (true, 18, some true, some 17) := by
    decide +kernel
  obtain ⟨cx, hcx⟩ : ∃ cx, Context.start Builtin.configuration .empty = .ok cx := ⟨_, rfl⟩
  rw [hcx, Except.bind] at hrun
  obtain ⟨⟨⟨opened, behind⟩, later⟩, htour, hfacts⟩ := exists_ok_of_toOption hrun
  simp only [Prod.mk.injEq] at hfacts
  obtain ⟨hopened, hnext, hkept, hvisible⟩ := hfacts
  obtain ⟨outer, rfl⟩ := Option.isSome_iff_exists.mp hopened
  obtain ⟨closed, again, names, hscope, hlater⟩ := Modifier.scope_of_reopens htour
  have hdisplays : later.registries.Displays 17 := by
    cases hp : later.configuration.blocks.get? "p" with
    | none =>
      rw [hp] at hvisible
      cases hvisible
    | some d =>
      rw [hp] at hvisible
      exact ⟨.block, "p", d, hp, Option.some.inj hvisible⟩
  have hleast : cx.configuration.nextStamp = 17 := by
    rw [(Context.initial_start hcx).1]
    decide
  obtain ⟨-, -, -, -, hleaks⟩ := scopes_do_not_leak Builtin.inOrder hcx
  refine ⟨cx, _, _, _, _, hcx, .stays, hscope, hlater, hleast, hdisplays, ?_⟩
  refine (hleaks [] _ _ .stays hscope).2 17 ?_ (.inl (Nat.le_of_eq hleast)) ?_ _ _ hlater
    hdisplays
  · exact Nat.lt_of_lt_of_eq (by decide) hnext.symm
  · intro t ht r hr
    have ht : behind.macros = .ok t := ht
    rw [ht] at hkept
    have hnone : t.notations.isEmpty = true := Option.some.inj hkept
    rw [List.isEmpty_iff.mp hnone] at hr
    cases hr

mutual

/-- The modifiers that a node was read from, in their order, each by its name and stamp. -/
def Node.recognised : Node → List (String × Nat)
  | .paragraph _ content => recognisedIn content
  | .modifier ⟨_, _, definition, _, content, _⟩ =>
    (definition.name, definition.stamp) :: recognisedIn content
  | .text _ _ => []
  | .escaped _ _ => []
  | .preformatted _ _ _ => []

def recognisedIn : List Node → List (String × Nat)
  | [] => []
  | node :: rest => node.recognised ++ recognisedIn rest

end

/-- What the evaluation of a parse in a fresh context shows of it. -/
theorem exists_silent_parse {source : String} {first last : Nat} {names : List (String × Nat)}
    (hrun : (do
      let cx ← Context.start Builtin.configuration .empty
      let d ← cx.parse source
      return (cx.configuration.nextStamp, d.context.configuration.nextStamp, d.messages.isEmpty,
        recognisedIn d.content)).toOption = some (first, last, true, names)) :
    ∃ cx d, Context.start Builtin.configuration .empty = .ok cx ∧ cx.parse source = .ok d ∧
      cx.configuration.nextStamp = first ∧ d.context.configuration.nextStamp = last ∧
      d.messages = [] ∧ recognisedIn d.content = names := by
  obtain ⟨cx, hcx, hrun⟩ := exists_ok_of_bind hrun
  obtain ⟨d, hd, hrun⟩ := exists_ok_of_bind hrun
  have hfacts := Option.some.inj hrun
  simp only [Prod.mk.injEq, List.isEmpty_iff] at hfacts
  exact ⟨cx, d, hcx, hd, hfacts⟩

/-- The block `p`, whose registration 17 is made in the body of a module, is recognised in the
body of a later one.  No module is used in the document, and nothing else is registered. -/
theorem reopened_module_shows_definitions :
    let source := "[.module m][-define-block p]x\n\n[.module m]\n:--\n[.p;]\n--:"
    ∃ cx d, Context.start Builtin.configuration .empty = .ok cx ∧ cx.parse source = .ok d ∧
      cx.configuration.nextStamp = 17 ∧ d.context.configuration.nextStamp = 18 ∧
      d.messages = [] ∧ recognisedIn d.content =
        [("module", 14), ("define-block", 0), ("module", 14), ("p", 17)] :=
  exists_silent_parse (by decide +kernel)

/-- The block `p`, whose registration 17 is made in the body of a module, is recognised behind
it: a notation that is kept in the body shows it when it is put back there.  No module is used
or opened again, and nothing else is registered. -/
theorem kept_notation_shows_definitions :
    let source := "[.module m]\n:--\n[-define-block p]x\n\n[-push-notation]\n--:\n\n" ++
      "[-pop-notation]\n\n[.p;]"
    ∃ cx d, Context.start Builtin.configuration .empty = .ok cx ∧ cx.parse source = .ok d ∧
      cx.configuration.nextStamp = 17 ∧ d.context.configuration.nextStamp = 18 ∧
      d.messages = [] ∧ recognisedIn d.content =
        [("module", 14), ("define-block", 0), ("push-notation", 12), ("pop-notation", 13),
          ("p", 17)] :=
  exists_silent_parse (by decide +kernel)

end MacroMarkup
