import MacroMarkup.Proofs.Bystanders
import MacroMarkup.Proofs.Conditional
import MacroMarkup.Proofs.Lookup

/-!
# Opening a module again

A module that is opened again makes its definitions visible in its body and records behind the
body what is visible then and was not before.  So a definition that was visible before, since
the module is in use, is not recorded again.

* `Registries.Shows`, `ModuleRecord.Holds`: a definition is visible, or recorded;
  `holds_addedSince_iff` says which ones are recorded.
* `Context.Rebinding`: how a name can come to stand for something else in the body of a
  module, and `Upkeep.moduleBody` says that there is no other way.
* `Module.Reopened`: what becomes of the definitions of a module that is opened again.
* `Modifier.opensAgain?`: the module that a modifier opens again, with what it held.
* `reopened_module_records`: **what a module holds when it was opened again.**
-/

namespace MacroMarkup

open Parse

def Registries.of (r : Registries) : MacroKind → Registry Definition
  | .block => r.blocks
  | .inline => r.inlines

def ModuleRecord.of (record : ModuleRecord) : MacroKind → List Definition
  | .block => record.blocks
  | .inline => record.inlines

def MacroKind.headOf (kind : MacroKind) (name : String) : String :=
  (match kind with
    | .block => "[."
    | .inline => "[/") ++ name ++ "]"

/-- The definition is visible, and not another one of its name. -/
def Registries.Shows (r : Registries) (kind : MacroKind) (d : Definition) : Prop :=
  ∃ x, (r.of kind).get? d.name = some x ∧ x.stamp = d.stamp

instance (r : Registries) (kind : MacroKind) (d : Definition) : Decidable (r.Shows kind d) :=
  decidable_of_iff (((r.of kind).get? d.name).any (·.stamp = d.stamp) = true)
    (by simp [Registries.Shows, Option.any_eq_true])

/-- The definition is recorded, and not another one of its name. -/
def ModuleRecord.Holds (record : ModuleRecord) (kind : MacroKind) (d : Definition) : Prop :=
  ∃ x ∈ record.of kind, x.name = d.name ∧ x.stamp = d.stamp

namespace Registries

variable {kind : MacroKind} {replace : Bool} {r now earlier : Registries} {record : ModuleRecord}
  {d : Definition}

theorem of_merge : (r.merge replace record).1.of kind
    = (mergeInto replace (r.of kind) (record.of kind)).1 := by
  cases kind <;> rfl

theorem of_addedSince : (now.addedSince earlier).of kind
    = added (now.of kind) (earlier.of kind) := by
  cases kind <;> rfl

theorem headOf_mem_clashes {name : String}
    (h : name ∈ (mergeInto replace (r.of kind) (record.of kind)).2) :
    kind.headOf name ∈ (r.merge replace record).2 := by
  cases kind with
  | block => exact List.mem_append_left _ (List.mem_map.mpr ⟨name, h, rfl⟩)
  | inline => exact List.mem_append_right _ (List.mem_map.mpr ⟨name, h, rfl⟩)

/-- **The definitions that are recorded are those that are visible now and were not before.** -/
theorem holds_addedSince_iff :
    (now.addedSince earlier).Holds kind d ↔ now.Shows kind d ∧ ¬ earlier.Shows kind d := by
  simp only [ModuleRecord.Holds, of_addedSince, added, List.mem_filter, Registry.mem_definitions]
  constructor
  · rintro ⟨x, ⟨hx, hnew⟩, hname, hstamp⟩
    have hxname : Named.name x = d.name := hname
    refine ⟨⟨x, hxname ▸ hx, hstamp⟩, ?_⟩
    rintro ⟨old, hold, hsame⟩
    rw [hname, hold] at hnew
    simp [hsame, hstamp] at hnew
  · rintro ⟨⟨x, hx, hstamp⟩, hnew⟩
    have hname : x.name = d.name := Registry.name_of_get? hx
    refine ⟨x, ⟨?_, ?_⟩, hname, hstamp⟩
    · exact (congrArg (now.of kind).get? hname).trans hx
    · cases hold : (earlier.of kind).get? x.name with
      | none => rfl
      | some old =>
        simp only [bne_iff_ne, ne_eq]
        intro hsame
        exact hnew ⟨old, hname ▸ hold, hsame.trans hstamp⟩

end Registries

/-! ### What names stand for in the body -/

/-- In the body of a module, which starts in `start` with the state `s` of the macros, a name
may come to stand for this: a definition that was made in the body, one of another module that
was used there, or what it stood for when a notation was kept before. -/
inductive Context.Rebinding (start : Context) (s : MacroState) (module : String)
    (kind : MacroKind) (name : String) : Option Definition → Prop
  | made {d : Definition} : start.configuration.nextStamp ≤ d.stamp →
    Rebinding start s module kind name (some d)
  | used {other : String} {record : ModuleRecord} {d : Definition} : other ≠ module →
    s.modules.get? other = some record → d ∈ record.of kind → d.name = name →
    Rebinding start s module kind name (some d)
  | kept {r : Registries} : r ∈ s.notations →
    Rebinding start s module kind name ((r.of kind).get? name)

/-- In these registries every name stands for what it did when the body started, or for what
it may come to stand for. -/
def Registries.BoundSince (start : Context) (s : MacroState) (module : String)
    (r : Registries) : Prop :=
  ∀ kind name, (r.of kind).get? name = (start.registries.of kind).get? name ∨
    start.Rebinding s module kind name ((r.of kind).get? name)

/-- At a point in the body of the module, where `t` is the state of the macros. -/
structure Context.InBody (start : Context) (s : MacroState) (module : String) (cx : Context)
    (t : MacroState) : Prop where
  macros : cx.macros = .ok t
  insideModule : t.insideModule = some module
  modules : t.modules = s.modules
  notations : ∀ r ∈ t.notations, r.BoundSince start s module
  stamp : start.configuration.nextStamp ≤ cx.configuration.nextStamp
  registries : cx.registries.BoundSince start s module

def Upkeep.moduleBody (start : Context) (s : MacroState) (module : String) : Upkeep where
  allows := anyFault
  Holds cx := ∃ t, start.InBody s module cx t
  Keeps _ cx' := ∃ t, start.InBody s module cx' t
  refl h := h
  trans _ h := h
  holds h := h
  missing _ _ := trivial

section Body

variable {start : Context} {s : MacroState} {module : String}

theorem Registries.BoundSince.merge {r : Registries} (h : r.BoundSince start s module)
    {other : String} {record : ModuleRecord} (hother : other ≠ module)
    (hrecord : s.modules.get? other = some record) :
    (r.merge true record).1.BoundSince start s module := by
  intro kind name
  rw [of_merge]
  rcases @get?_mergeInto true name (record.of kind) (r.of kind) with hkept | hused
  · rw [hkept]
    exact h kind name
  · obtain ⟨d, hd, hname, hfound⟩ := hused
    rw [hfound]
    exact .inr (.used hother hrecord hd hname)

theorem Context.InBody.register {cx : Context} {t : MacroState} (h : start.InBody s module cx t)
    {kind : MacroKind} {d : Definition} (hd : d.kind = kind.modifierKind) :
    start.InBody s module
      { cx with configuration := cx.configuration.set d }.configurationChanged t := by
  refine ⟨h.macros, h.insideModule, h.modules, h.notations, ?_, fun kind' name => ?_⟩
  · obtain ⟨stamp, dname, dkind, slot, delaysContent, alwaysExpands, behaviour⟩ := d
    cases dkind <;> exact Nat.le_succ_of_le h.stamp
  · have hget := Configuration.get?_set cx.configuration d kind'.modifierKind name
    have hof : ∀ c : Configuration, c.registries.of kind' = c.modifiers kind'.modifierKind := by
      intro c
      cases kind' <;> rfl
    have hregistries : ({ cx with configuration := cx.configuration.set d }.configurationChanged
        ).registries = (cx.configuration.set d).registries := rfl
    rw [hregistries, hof, hget]
    split
    · exact .inr (.made h.stamp)
    · rw [← hof]
      exact h.registries kind' name

theorem registers_moduleBody : (Upkeep.moduleBody start s module).Registers where
  allows _ := trivial
  setVariable _ _ := by
    rintro ⟨t, h⟩
    exact ⟨t, h.macros, h.insideModule, h.modules, h.notations, h.stamp, h.registries⟩
  withMacros := by
    rintro cx t t' ⟨_, h⟩ ht hnotations hmodules hinside
    cases h.macros.symm.trans ht
    exact ⟨t', rfl, hinside.trans h.insideModule, hmodules.trans h.modules,
      hnotations ▸ h.notations, h.stamp, h.registries⟩
  register kind d hd := by
    rintro ⟨t, h⟩
    exact ⟨t, h.register hd⟩

theorem Step.Upholds.restore {r : Registries} (hr : r.BoundSince start s module) :
    Step.Upholds (.moduleBody start s module) (fun _ => True) (Step.restore r) :=
  .modify fun _ ⟨t, h⟩ =>
    ⟨t, h.macros, h.insideModule, h.modules, h.notations, h.stamp, hr⟩

/-- In the body of a module only other modules are found. -/
theorem Step.Upholds.findModule {m : Modifier} {immediate : Bool} :
    Step.Upholds (.moduleBody start s module) (fun found => ∀ record, found = .ok record →
      ∃ other, other ≠ module ∧ s.modules.get? other = some record) (findModule m immediate) := by
  have hfails : ∀ messages record,
      (Except.error messages : Except (List Message) ModuleRecord) = .ok record →
      ∃ other, other ≠ module ∧ s.modules.get? other = some record :=
    fun _ _ heq => by cases heq
  simp only [MacroMarkup.findModule]
  split
  · exact .pure (hfails _)
  split
  · refine .macros registers_moduleBody fun cx t hcx ht => ?_
    obtain ⟨_, h⟩ := hcx
    cases h.macros.symm.trans ht
    split
    · exact ⟨⟨t, h⟩, hfails _⟩
    · rename_i record hrecord
      rw [ensures_ite]
      refine ⟨fun _ => ⟨⟨t, h⟩, hfails _⟩, fun hinside => ⟨⟨t, h⟩, fun _ heq => ?_⟩⟩
      cases heq
      refine ⟨_, fun hself => hinside ?_, h.modules ▸ hrecord⟩
      rw [h.insideModule, hself]
  · exact .pure (hfails _)

theorem upholdsEach_pushNotation :
    pushNotationLifecycle.UpholdsEach (.moduleBody start s module) anyState where
  beforeContent _ _ := .pure trivial
  afterContent _ _ := .pure trivial
  prepare _ _ _ _ := .pure trivial
  expand m state immediate _ := by
    rintro cx ⟨t, h⟩
    simp only [pushNotationLifecycle, ensures_bind, ensures_get, ensures_modifyMacros h.macros]
    refine ⟨⟨_, rfl, h.insideModule, h.modules, ?_, h.stamp, h.registries⟩, trivial⟩
    exact List.forall_mem_cons.mpr ⟨h.registries, h.notations⟩
  beforeProcessing _ _ _ := .pure trivial
  afterProcessing _ _ := .pure trivial

theorem upholdsEach_popNotation :
    popNotationLifecycle.UpholdsEach (.moduleBody start s module) anyState where
  beforeContent _ _ := .pure trivial
  afterContent _ _ := .pure trivial
  prepare m state immediate _ := by
    refine .macros registers_moduleBody fun cx t hcx ht => ?_
    obtain ⟨_, h⟩ := hcx
    cases h.macros.symm.trans ht
    cases hnotations : t.notations with
    | nil => exact ⟨⟨t, h⟩, trivial⟩
    | cons r earlier =>
      have hall := h.notations
      rw [hnotations] at hall
      refine ensures_bind.mpr ((ensures_modifyMacros ht).mpr ?_)
      exact ⟨⟨_, rfl, h.insideModule, h.modules, (List.forall_mem_cons.mp hall).2, h.stamp,
        (List.forall_mem_cons.mp hall).1⟩, trivial⟩
  expand _ _ _ _ := .pure trivial
  beforeProcessing _ _ _ := .pure trivial
  afterProcessing _ _ := .pure trivial

theorem upholdsEach_recordModule :
    moduleLifecycle.UpholdsEach (.moduleBody start s module) (· = none) where
  beforeContent m immediate := by
    simp only [moduleLifecycle]
    refine .ite (fun _ => .pure rfl) fun _ => ?_
    split
    · exact .pure rfl
    split
    · refine .ite (fun _ => .pure rfl) fun _ =>
        .macros registers_moduleBody fun cx t hcx ht => ?_
      obtain ⟨_, h⟩ := hcx
      cases h.macros.symm.trans ht
      simp only [h.insideModule, Option.isSome_some, if_true]
      exact ⟨⟨t, h⟩, rfl⟩
    · exact .pure rfl
  afterContent state hstate := by
    cases hstate
    exact .pure rfl
  prepare _ _ _ hstate := .pure hstate
  expand _ _ _ hstate := .pure hstate
  beforeProcessing _ _ hstate := .pure hstate
  afterProcessing _ _ := .pure trivial

/-- The registries that come back behind a body in which a module was used. -/
theorem upholdsEach_useInside : useInsideLifecycle.UpholdsEach (.moduleBody start s module)
    (fun state => ∀ r, state = some r → r.BoundSince start s module) where
  beforeContent m immediate := by
    refine .bind .findModule fun found hfound => ?_
    cases found with
    | error messages => exact .pure nofun
    | ok record =>
      obtain ⟨other, hother, hrecord⟩ := hfound record rfl
      rintro cx ⟨t, h⟩
      refine ⟨⟨t, h.macros, h.insideModule, h.modules, h.notations, h.stamp,
        h.registries.merge hother hrecord⟩, fun r hr => ?_⟩
      cases hr
      exact h.registries
  afterContent state hstate := by
    cases state with
    | none => exact .pure nofun
    | some outer => exact .bind (.restore (hstate outer rfl)) fun _ _ => .pure nofun
  prepare _ _ _ hstate := .pure hstate
  expand _ _ _ hstate := .pure hstate
  beforeProcessing _ _ hstate := .pure hstate
  afterProcessing _ _ := .pure trivial

theorem upholdsEach_useFromHere : useFromHereLifecycle.UpholdsEach (.moduleBody start s module)
    (fun state => ∀ r, state = some r → r.BoundSince start s module) where
  beforeContent _ _ := .pure nofun
  afterContent _ hstate := .pure hstate
  prepare m state immediate hstate := by
    refine .bind .findModule fun found hfound => ?_
    cases found with
    | error messages => exact .pure hstate
    | ok record =>
      obtain ⟨other, hother, hrecord⟩ := hfound record rfl
      rintro cx ⟨t, h⟩
      refine ⟨⟨t, h⟩, fun r hr => ?_⟩
      cases hr
      exact h.registries.merge hother hrecord
  expand m state immediate hstate := by
    cases state with
    | none => exact .pure nofun
    | some merged => exact .bind (.restore (hstate merged rfl)) fun _ _ => .pure nofun
  beforeProcessing _ _ hstate := .pure hstate
  afterProcessing _ _ := .pure trivial

def Behaviour.RestsInBody (start : Context) (s : MacroState) (module : String) :
    (b : Behaviour) → b.lifecycle.State → Prop
  | .recordModule => fun state : Option (String × Registries) => state = none
  | .useInside => fun state : Option Registries =>
    ∀ r, state = some r → r.BoundSince start s module
  | .useFromHere => fun state : Option Registries =>
    ∀ r, state = some r → r.BoundSince start s module
  | _ => anyState

/-- **In the body of a module names come to stand for nothing else**, whatever is done
there. -/
theorem upholds_moduleBody (start : Context) (s : MacroState) (module : String) (b : Behaviour) :
    b.lifecycle.Upholds (.moduleBody start s module) fun state _ =>
      b.RestsInBody start s module state := by
  cases b with
  | pushNotation => exact upholdsEach_pushNotation.upholds
  | popNotation => exact upholdsEach_popNotation.upholds
  | recordModule => exact upholdsEach_recordModule.upholds
  | useInside => exact upholdsEach_useInside.upholds
  | useFromHere => exact upholdsEach_useFromHere.upholds
  | _ => exact (upholdsEach_bystander registers_moduleBody rfl).upholds

def World.moduleBody (start : Context) (s : MacroState) (module : String) : World :=
  (Upkeep.moduleBody start s module).world (upholds_moduleBody start s module)
    fun {cx} _ => World.anything.readable (e := .start cx) trivial

end Body

/-! ### Opening and closing -/

/-- A module that holds `record` was opened again in the context `cx`; its body led from the
context `inside` to the context `later`, and all ends in `cx'`. -/
structure Module.Reopened (name : String) (record : ModuleRecord) (cx inside later cx' : Context) :
    Prop where
  /-- In the body the definitions of the module are visible, unless their names are taken. -/
  opens : inside.registries = (cx.registries.merge false record).1
  /-- What was visible before is visible behind the body. -/
  closes : cx'.registries = cx.registries
  /-- What is visible at the end of the body and was not before is recorded. -/
  records : ∃ s, cx'.macros = .ok s ∧
    s.modules.get? name = some (later.registries.addedSince cx.registries)
  /-- In the body a name may come to stand for little else. -/
  bound : ∃ s, cx.macros = .ok s ∧ later.registries.BoundSince inside s name

/-- A module that is not empty-named is opened, and none is open yet. -/
structure Module.Opens (name : String) (record : ModuleRecord) (m : Modifier) (cx : Context) :
    Prop where
  behaviour : m.definition.behaviour = .recordModule
  names : m.Names name
  nonempty : name ≠ ""
  recorded : ∃ s, cx.macros = .ok s ∧ s.insideModule = none ∧ s.modules.get? name = some record

/-- The module that the modifier opens again here, and what it holds. -/
def Modifier.opensAgain? (m : Modifier) (cx : Context) : Option (String × ModuleRecord) :=
  match m.definition.behaviour, m.arguments.map Argument.value, cx.macros with
  | .recordModule, [some name], .ok s =>
    if name ≠ "" ∧ s.insideModule = none then (s.modules.get? name).map ((name, ·)) else none
  | _, _, _ => none

theorem Module.opens_of_opensAgain? {m : Modifier} {cx : Context} {name : String}
    {record : ModuleRecord} (h : m.opensAgain? cx = some (name, record)) :
    Module.Opens name record m cx := by
  rw [Modifier.opensAgain?] at h
  split at h
  case h_2 => cases h
  case h_1 given s hbehaviour hnames hs =>
    obtain ⟨⟨hname, hnone⟩, h⟩ := Option.ite_none_right_eq_some.mp h
    obtain ⟨_, hrecord, hanswer⟩ := Option.map_eq_some_iff.mp h
    cases hanswer
    exact ⟨hbehaviour, hnames, hname, s, hs, hnone, hrecord⟩

section Opening

variable {name : String} {record : ModuleRecord} {m : Modifier} {cx : Context} {s : MacroState}

/-- The definitions that the module holds become visible, and the names that are taken are
reported. -/
theorem ensures_beforeContent_module (hs : cx.macros = .ok s) (hnames : m.Names name)
    (hname : name ≠ "") (hnone : s.insideModule = none)
    (hrecord : s.modules.get? name = some record) :
    Ensures anyFault (moduleLifecycle.beforeContent m true) cx fun r inside =>
      r = (some (name, cx.registries), clashMessages m (cx.registries.merge false record).2) ∧
        inside = (cx.restore (cx.registries.merge false record).1).withMacros
          { s with insideModule := some name } := by
  obtain ⟨argument, hargument, htext, hcheck⟩ := hnames.exists_argument
  have hnonempty : name.isEmpty = false := by simpa using hname
  have hs' : (cx.restore (cx.registries.merge false record).1).macros = .ok s := hs
  simp only [moduleLifecycle, Bool.not_true, Bool.false_eq_true, if_false, hcheck, hargument, htext,
    hnonempty, ensures_bind, ensures_macros hs, hnone, Option.isSome_none, ensures_get, hrecord,
    Step.restore, ensures_modify, ensures_pure, ensures_modifyMacros hs', and_self]

/-- What is visible now and was not before is recorded. -/
theorem ensures_afterContent_module {outer : Registries} (hs : cx.macros = .ok s) :
    Ensures anyFault (moduleLifecycle.afterContent (some (name, outer))) cx fun state outside =>
      state = none ∧ outside = (cx.withMacros { s with
        insideModule := none
        modules := s.modules.set name (cx.registries.addedSince outer) }).restore outer := by
  simp only [moduleLifecycle, ensures_bind, ensures_get, ensures_modifyMacros hs, Step.restore,
    ensures_modify, ensures_pure, and_self]

theorem inBody_opened {r : Registries} :
    Context.InBody ((cx.restore r).withMacros { s with insideModule := some name }) s name
      ((cx.restore r).withMacros { s with insideModule := some name })
      { s with insideModule := some name } :=
  ⟨rfl, rfl, rfl, fun _ hkept => fun _ _ => .inr (.kept hkept), Nat.le_refl _,
    fun _ _ => .inl rfl⟩

end Opening

/-- **What becomes of the definitions of a module that is opened again.**  One is recorded again
if it is visible at the end of the body and was not before; and it is visible there unless its
name was taken, which is reported, or came to stand for something else. -/
theorem Module.Reopened.fate {name : String} {record : ModuleRecord} {cx inside later cx' : Context}
    (h : Module.Reopened name record cx inside later cx') :
    ∃ s s' recorded, cx.macros = .ok s ∧ cx'.macros = .ok s' ∧
      s'.modules.get? name = some recorded ∧
      ∀ kind d, d ∈ record.of kind →
        (recorded.Holds kind d ↔ later.registries.Shows kind d ∧ ¬ cx.registries.Shows kind d) ∧
        (later.registries.Shows kind d ∨
          kind.headOf d.name ∈ (cx.registries.merge false record).2 ∨
          inside.Rebinding s name kind d.name ((later.registries.of kind).get? d.name)) := by
  obtain ⟨s, hs, hbound⟩ := h.bound
  obtain ⟨s', hs', hrecorded⟩ := h.records
  refine ⟨s, s', _, hs, hs', hrecorded, fun kind d hd => ⟨Registries.holds_addedSince_iff, ?_⟩⟩
  rcases Registries.found_or_clashes (cx.registries.of kind) hd with hfound | hclash
  · rcases hbound kind d.name with hsame | hrebound
    · obtain ⟨x, hx, hstamp⟩ := hfound
      refine .inl ⟨x, ?_, hstamp⟩
      rw [hsame, h.opens, Registries.of_merge, hx]
    · exact .inr (.inr hrebound)
  · exact .inr (.inl (Registries.headOf_mem_clashes hclash))

section Living

variable {name : String} {record : ModuleRecord} {m : Modifier} {e : Engine} {walk : Walk}

theorem ensures_opens_module (ho : Module.Opens name record m e.context)
    (himmediate : e.immediate = true) :
    Ensures anyFault
      (Expand.reporting (m.definition.behaviour.lifecycle.beforeContent m e.immediate)) e
      fun state opened =>
        opened = Engine.emit { e with context := opened.context }
          (clashMessages m (e.context.registries.merge false record).2) ∧
        ∃ s, (Upkeep.moduleBody opened.context s name).Holds opened.context ∧
          ∀ later : Engine, (Upkeep.moduleBody opened.context s name).Holds later.context →
            Ensures anyFault
              (Expand.inContext (m.definition.behaviour.lifecycle.afterContent state)) later
              fun _ outside => Module.Reopened name record e.context opened.context later.context
                outside.context := by
  obtain ⟨hbehaviour, hnames, hname, s, hs, hnone, hrecord⟩ := ho
  obtain ⟨span, head, definition, arguments, content, expansion⟩ := m
  obtain ⟨stamp, dname, kind, slot, delaysContent, alwaysExpands, behaviour⟩ := definition
  cases hbehaviour
  simp only [ensures_reporting, himmediate]
  refine (ensures_beforeContent_module hs hnames hname hnone hrecord).mono ?_
  intro answer inside hanswer
  obtain ⟨rfl, rfl⟩ := hanswer
  refine ⟨rfl, s, ⟨_, inBody_opened⟩, fun later hlater => ?_⟩
  obtain ⟨t, ht⟩ := hlater
  rw [ensures_inContext]
  refine (ensures_afterContent_module ht.macros).mono ?_
  intro state outside hanswer
  obtain ⟨rfl, rfl⟩ := hanswer
  refine ⟨rfl, rfl, ⟨_, rfl, ?_⟩, s, hs, ht.registries⟩
  exact (Dict.get?_set _ _ _ _).trans (if_pos rfl)

/-- Once its body was read a module stands for nothing. -/
theorem ensures_finishModifier_module (outermost : Bool)
    {state : m.definition.behaviour.lifecycle.State}
    (hm : m.definition.behaviour = .recordModule) :
    Ensures anyFault (finishModifier walk outermost m state) e fun _ e' =>
      e'.context = e.context := by
  obtain ⟨span, head, definition, arguments, content, expansion⟩ := m
  obtain ⟨stamp, dname, kind, slot, delaysContent, alwaysExpands, behaviour⟩ := definition
  cases hm
  refine ensures_finishModifier_iff.mpr (ensures_reporting.mpr ?_)
  show Ensures anyFault (pure (state, [])) e.context _
  refine ensures_pure.mpr (ensures_inContext.mpr ?_)
  show Ensures anyFault (pure (Outcome.replace [], state)) e.context _
  exact ensures_pure.mpr (ensures_processNodes_nil.mpr ⟨fun _ => rfl, fun _ => rfl⟩)

theorem ensures_expandRead_module {state : m.definition.behaviour.lifecycle.State}
    (hm : m.definition.behaviour = .recordModule) :
    Ensures anyFault (expandRead walk m state) e fun _ e' => e'.context = e.context :=
  ensures_expandRead_iff.mpr ⟨fun _ => rfl, fun _ => ensures_finishModifier_module true hm⟩

end Living

/-! ### Modules that are read, and modules in generated content -/

section Runs

variable {name : String} {record : ModuleRecord}

theorem ensures_wholeSpan_any {head : Head} {r : Reader} {post : Span → Reader → Prop}
    (h : ∀ span, post span r) : Ensures anyFault (wholeSpan head) r post := by
  rw [wholeSpan, ensures_ite]
  refine ⟨fun _ => h _, fun _ => ?_⟩
  simp only [spanFrom, position, ensures_bind, ensures_get, ensures_pure]
  cases Span.checked head.modifier.head.start r.cursor.position with
  | ok span => exact h span
  | error fault => trivial

theorem ensures_readModifier_module {fuel : Nat} {place : ModifierKind} {r r₁ : Reader}
    {head : Head} (hhead : readHead place r = .ok (head, r₁))
    (ho : Module.Opens name record head.modifier r₁.engine.context)
    (himmediate : r₁.engine.immediate = true) :
    Ensures anyFault (readModifier (fuel + 1) place) r fun _ r₃ => ∃ opened answer r₂,
      opened = Engine.emit { r₁.engine with context := opened.context }
        (clashMessages head.modifier (r₁.engine.context.registries.merge false record).2) ∧
      readBody fuel place head
        { r₁ with engine := opened.inBody head.modifier.definition.delaysContent }
          = .ok (answer, r₂) ∧
      Module.Reopened name record r₁.engine.context opened.context r₂.engine.context
        r₃.engine.context := by
  rw [ensures_readModifier_iff, ensures_of_eq hhead]
  refine (ensures_opens_module ho himmediate).mono ?_
  intro state opened hanswer
  obtain ⟨hopened, s, hinside, hcloses⟩ := hanswer
  refine ensures_iff.mpr ⟨fun answer r₂ hbody => ?_, fun _ _ => trivial⟩
  have hlater : (Upkeep.moduleBody opened.context s name).Holds r₂.engine.context :=
    (((constructs (.moduleBody opened.context s name) fuel).body place head
      { r₁ with engine := opened.inBody head.modifier.definition.delaysContent } hinside
      (.inl trivial)).of_ok hbody).1.yields.holds
  refine ensures_wholeSpan_any fun span => ?_
  refine Ensures.mono (hcloses { r₂.engine with
    delayDepth := r₂.engine.delayDepth - head.modifier.definition.delaysContent.toNat } hlater) ?_
  intro state outside hreopened
  refine (ensures_expandRead_module (e := outside)
    (m := { head.modifier with span := span, content := answer.1 }) ho.behaviour).mono ?_
  intro read e' hsame
  exact ⟨opened, answer, r₂, hopened, hbody, hsame ▸ hreopened⟩

theorem ensures_expandGenerated_module {levels : Nat} {e e₁ : Engine} {m : Modifier}
    {arguments : List Argument} (hwaits : m.expansion = none)
    (harguments : expandArguments m.arguments e = .ok (arguments, e₁))
    (ho : Module.Opens name record { m with arguments := arguments } e₁.context)
    (himmediate : e₁.immediate = true) :
    Ensures anyFault (expandGenerated (process levels) m) e fun _ e₃ => ∃ opened content e₂,
      opened = Engine.emit { e₁ with context := opened.context }
        (clashMessages m (e₁.context.registries.merge false record).2) ∧
      walkContent (process levels) { m with arguments := arguments } opened
        = .ok (content, e₂) ∧
      Module.Reopened name record e₁.context opened.context e₂.context e₃.context := by
  have hopen : ¬ m.expansion.isSome = true := by simp [hwaits]
  rw [ensures_expandGenerated_now hopen harguments himmediate]
  have hopens := ensures_opens_module ho himmediate
  rw [himmediate] at hopens
  refine hopens.mono ?_
  intro state opened hanswer
  obtain ⟨hopened, s, hinside, hcloses⟩ := hanswer
  refine ensures_iff.mpr ⟨fun content e₂ hwalk => ?_, fun _ _ => trivial⟩
  have hlater : (Upkeep.moduleBody opened.context s name).Holds e₂.context :=
    ((upholds_walkContent (m := { m with arguments := arguments })
      (upholds_process (upholds_moduleBody opened.context s name) levels) hinside).of_ok
      hwalk).holds
  refine (hcloses _ hlater).mono ?_
  intro state outside hreopened
  refine (ensures_finishModifier_module (e := outside)
    (m := { m with arguments := arguments, content := content }) false ho.behaviour).mono ?_
  intro read e' hsame
  exact ⟨opened, content, e₂, hopened, hwalk, hsame ▸ hreopened⟩

end Runs

/-- **What a module holds when it was opened again.**  Wherever a module is opened again, it comes
to its end, and a definition that it held is held again if and only if its name still stands
for it at the end of the body and did not before the module was opened. -/
theorem reopened_module_records {name : String} {record : ModuleRecord} :
    (∀ (fuel : Nat) (place : ModifierKind) (r r₁ : Reader) (head : Head),
      r.engine.Sound .lenient → r.engine.immediate = true →
      r.cursor.peek place.opening.text = true → 8 * r.left ≤ fuel + 1 →
      readHead place r = .ok (head, r₁) →
      Module.Opens name record head.modifier r₁.engine.context →
      ∃ opened answer r₂ m r₃,
        opened = Engine.emit { r₁.engine with context := opened.context }
          (clashMessages head.modifier (r₁.engine.context.registries.merge false record).2) ∧
        readBody fuel place head
          { r₁ with engine := opened.inBody head.modifier.definition.delaysContent }
            = .ok (answer, r₂) ∧
        readModifier (fuel + 1) place r = .ok (m, r₃) ∧
        Module.Reopened name record r₁.engine.context opened.context r₂.engine.context
          r₃.engine.context) ∧
    (∀ (levels : Nat) (e e₁ : Engine) (m : Modifier) (arguments : List Argument),
      e.Sound .lenient → e.immediate = true → (Regime.lenient.stock e).Keeps (.modifier m) →
      m.expansion = none → expandArguments m.arguments e = .ok (arguments, e₁) →
      Module.Opens name record { m with arguments := arguments } e₁.context →
      ∃ opened content e₂ m' e₃,
        opened = Engine.emit { e₁ with context := opened.context }
          (clashMessages m (e₁.context.registries.merge false record).2) ∧
        walkContent (process levels) { m with arguments := arguments } opened
          = .ok (content, e₂) ∧
        expandGenerated (process levels) m e = .ok (m', e₃) ∧
        Module.Reopened name record e₁.context opened.context e₂.context e₃.context) ∧
    ∀ cx inside later cx' : Context, Module.Reopened name record cx inside later cx' →
      ∃ s s' recorded, cx.macros = .ok s ∧ cx'.macros = .ok s' ∧
        s'.modules.get? name = some recorded ∧
        ∀ kind d, d ∈ record.of kind →
          (recorded.Holds kind d ↔
            later.registries.Shows kind d ∧ ¬ cx.registries.Shows kind d) ∧
          (later.registries.Shows kind d ∨
            kind.headOf d.name ∈ (cx.registries.merge false record).2 ∨
            inside.Rebinding s name kind d.name ((later.registries.of kind).get? d.name)) := by
  refine ⟨fun fuel place r r₁ head he himmediate hpeek hfuel hhead ho => ?_,
    fun levels e e₁ m arguments he himmediate hkeeps hwaits harguments ho => ?_,
    fun _ _ _ _ h => h.fate⟩
  · obtain ⟨h₁, -⟩ := (ensures_readHead he.stores.readable).of_ok hhead
    have himmediate₁ : r₁.engine.immediate = true := by
      rw [h₁.reports.follows.immediate]
      exact himmediate
    obtain ⟨m, r₃, hread, -, opened, answer, r₂, hopened, hbody, hreopened⟩ :=
      (((constructs (Regime.world .lenient) (fuel + 1)).modifier place r he hpeek
        (.inr hfuel)).and (ensures_readModifier_module hhead ho himmediate₁)).exists_ok
    exact ⟨opened, answer, r₂, m, r₃, hopened, hbody, hread, hreopened⟩
  · obtain ⟨s, hs, -⟩ := he.stores.macros
    have hthere : ∀ fault, e.context.macros = .error fault → noFault fault := allows_of_macros hs
    obtain ⟨⟨hreports, -⟩, -⟩ := (ensures_expandArguments m.arguments e hthere).of_ok harguments
    have himmediate₁ : e₁.immediate = true := by
      rw [hreports.follows.immediate]
      exact himmediate
    obtain ⟨m', e₃, hrun, -, opened, content, e₂, hopened, hwalk, hreopened⟩ :=
      ((ensures_expandGenerated (lawful_process levels) he hkeeps).and
        (ensures_expandGenerated_module hwaits harguments ho himmediate₁)).exists_ok
    exact ⟨opened, content, e₂, m', e₃, hopened, hwalk, hrun, hreopened⟩

/-- A module whose definition is in use when it is opened again loses it. -/
theorem reopened_module_records_in_use :
    let first := "[.module m][-define-block p]x\n\n[-use m]"
    let second := "[.module m][-define-block q]y"
    ∃ cx d s record p m r₃ s' recorded, Context.start Builtin.configuration .empty = .ok cx ∧
      cx.parse first = .ok d ∧ d.context.macros = .ok s ∧ s.modules.get? "m" = some record ∧
      p ∈ record.of .block ∧
      readModifier 300 .block (Reader.start d.context second []) = .ok (m, r₃) ∧
      r₃.engine.context.macros = .ok s' ∧ s'.modules.get? "m" = some recorded ∧
      ¬ recorded.Holds .block p := by
  intro first second
  have hrun : (do
      let cx ← Context.start Builtin.configuration .empty
      let d ← cx.parse first
      let p ← readHead .block (Reader.start d.context second [])
      return (p.1.modifier.opensAgain? d.context).map fun found : String × ModuleRecord =>
        (found.1, found.2.blocks.map fun p =>
          decide (d.context.registries.Shows .block p))).toOption
      = some (some ("m", [true])) := by
    decide +kernel
  obtain ⟨cx, hcx, hrun⟩ := exists_ok_of_bind hrun
  obtain ⟨d, hd, hrun⟩ := exists_ok_of_bind hrun
  obtain ⟨⟨head, r₁⟩, hhead, hrun⟩ := exists_ok_of_bind hrun
  obtain ⟨⟨name, record⟩, hagain, hfacts⟩ := Option.map_eq_some_iff.mp (Option.some.inj hrun)
  obtain ⟨rfl, hblocks⟩ := Prod.mk.inj hfacts
  obtain ⟨p, hp, hshown⟩ := List.mem_map.mp (hblocks ▸ List.mem_singleton_self true)
  have hopens := Module.opens_of_opensAgain? hagain
  obtain ⟨s, hs, -, hrecord⟩ := hopens.recorded
  have hplaced : cx.Stores .placed := (Builtin.placed_start hcx).1
  -- the module is opened again
  have he : (Reader.start d.context second []).engine.Sound .lenient :=
    (parse_stays_placed hplaced hd).lenient
  have hcursor : (Cursor.ofString second []).peek "[." = true ∧
      8 * (Cursor.ofString second []).rest.length ≤ 300 := by
    decide +kernel
  obtain ⟨hscans, -⟩ := (ensures_readHead he.stores.readable).of_ok hhead
  have hcontext : r₁.engine.context = d.context := hscans.reports.context
  obtain ⟨hreads, -, hfate⟩ := @reopened_module_records "m" record
  obtain ⟨opened, answer, r₂, m, r₃, -, -, hread, hreopened⟩ :=
    hreads 299 .block _ r₁ head he rfl hcursor.1 hcursor.2 hhead (hcontext.symm ▸ hopens)
  obtain ⟨_, s', recorded, -, hs', hrecorded, hall⟩ := hfate _ _ _ _ hreopened
  refine ⟨cx, d, s, record, p, m, r₃, s', recorded, hcx, hd, hs, hrecord, hp, hread, hs',
    hrecorded, fun hholds => ?_⟩
  refine ((hall .block p hp).1.mp hholds).2 ?_
  rw [hcontext]
  exact of_decide_eq_true hshown

end MacroMarkup
