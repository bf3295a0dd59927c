import MacroMarkup.Proofs.Stock
import MacroMarkup.Macro.Builtin

/-!
# What the points of a lifecycle keep

The points of a lifecycle come in pairs around the content and around what a modifier
stands for.  The first point of a pair may open something (a definition, an invocation, a
module) and the second closes it again, whatever happened in between, as long as that left
open what it found open.

* `Lifecycle.KeepsContent`: the points around the content form such a pair.
* `Lifecycle.KeepsDecision`: deciding what a modifier stands for opens nothing, and what it
  stands for is in stock.
* `Lifecycle.KeepsProcessing`: the points around the processing form a pair.
* `keepsContent`, `keepsDecision`: every behaviour has these laws.
-/

namespace MacroMarkup

open Context (Agrees)

abbrev noFault : Fault → Prop := fun _ => False

namespace Lifecycle

/-- With this state, the point after the content leaves open what was open in `cx`, if the
content left open what is open in `inside`.  What may be kept can grow in between. -/
def Closes (life : Lifecycle) (rest : life.State → Prop) (S : Stock) (cx : Context)
    (state : life.State) (inside : Context) : Prop :=
  inside.Stores S ∧ ∀ S', S.Le S' → ∀ later : Context, later.Stores S' → inside.Agrees later →
    Ensures noFault (life.afterContent state) later fun state outside =>
      outside.Stores S' ∧ cx.Agrees outside ∧ rest state

/-- The points around the content leave open what they found open, and after them the
state is one of `rest`. -/
def KeepsContent (life : Lifecycle) (rest : life.State → Prop) : Prop :=
  ∀ (S : Stock) (cx : Context) (m : Modifier) (immediate : Bool), cx.Stores S → S.Sits m →
    Ensures noFault (life.beforeContent m immediate) cx fun r inside =>
      life.Closes rest S cx r.1 inside

/-- The points around the processing leave open what they found open, and no definition is
read in between. -/
def KeepsProcessing (life : Lifecycle) (S : Stock) (m : Modifier) (state : life.State)
    (cx : Context) : Prop :=
  Ensures noFault (life.beforeProcessing m state) cx fun state inside => inside.Stores S ∧
    (cx.NothingDelayed → inside.NothingDelayed) ∧
    ∀ S', S.Le S' → ∀ later : Context, later.Stores S' → inside.Agrees later →
      Ensures noFault (life.afterProcessing state) later fun _ outside =>
        outside.Stores S' ∧ cx.Agrees outside

end Lifecycle

def Outcome.nodes (m : Modifier) : Outcome → List Node
  | .replace nodes => nodes
  | _ => m.content

namespace Lifecycle

/-- Deciding what a modifier stands for leaves open what is open, and what it stands for is
in stock. -/
def KeepsDecision (life : Lifecycle) (S : Stock) (rest : life.State → Prop) : Prop :=
  ∀ (cx : Context) (m : Modifier) (state : life.State) (immediate : Bool), cx.Stores S →
    S.Sits m → rest state →
    Ensures noFault (life.prepare m state immediate) cx fun r between =>
      between.Stores S ∧ cx.Agrees between ∧
      Ensures noFault (life.expand m r.1 immediate) between fun d decided =>
        decided.Stores S ∧ cx.Agrees decided ∧ (∀ n ∈ d.1.nodes m, S.Keeps n) ∧
        life.KeepsProcessing S m d.2 decided

def KeepsPreparation (life : Lifecycle) (S : Stock) : Prop :=
  ∀ (cx : Context) (m : Modifier) (state : life.State) (immediate : Bool), cx.Stores S →
    S.Sits m → Ensures noFault (life.prepare m state immediate) cx fun _ between =>
      between.Stores S ∧ cx.Agrees between

def KeepsExpansion (life : Lifecycle) (S : Stock) : Prop :=
  ∀ (cx : Context) (m : Modifier) (state : life.State) (immediate : Bool), cx.Stores S →
    S.Sits m → Ensures noFault (life.expand m state immediate) cx fun d decided =>
      decided.Stores S ∧ cx.Agrees decided ∧ ∀ n ∈ d.1.nodes m, S.Keeps n

variable {life : Lifecycle} {S : Stock} {m : Modifier} {cx : Context}

theorem KeepsContent.of_default (hb : life.beforeContent = fun _ _ => pure (life.idle, []))
    (ha : life.afterContent = pure) : life.KeepsContent (· = life.idle) := by
  intro S cx m immediate hcx _
  rw [hb, ensures_pure, Closes, ha]
  exact ⟨hcx, fun S' _ later hlater hagrees => ⟨hlater, hagrees, rfl⟩⟩

theorem KeepsPreparation.of_default (hp : life.prepare = fun _ state _ => pure (state, [])) :
    life.KeepsPreparation S := by
  intro cx m state immediate hcx _
  rw [hp]
  exact ⟨hcx, .refl cx⟩

theorem KeepsProcessing.of_default (hb : life.beforeProcessing = fun _ state => pure state)
    (ha : life.afterProcessing = fun _ => pure ()) {state : life.State} (hcx : cx.Stores S) :
    life.KeepsProcessing S m state cx := by
  unfold KeepsProcessing
  rw [hb, ha]
  simp only [ensures_pure]
  exact ⟨hcx, id, fun S' _ later hlater hagrees => ⟨hlater, hagrees⟩⟩

/-- If no state can spoil the points of a decision, they may be looked at one by one. -/
theorem KeepsDecision.of_parts {rest : life.State → Prop} (hp : life.KeepsPreparation S)
    (he : life.KeepsExpansion S)
    (hb : ∀ {cx m state}, Context.Stores S cx → S.Sits m → life.KeepsProcessing S m state cx) :
    life.KeepsDecision S rest := by
  intro cx m state immediate hcx hm _
  refine (hp cx m state immediate hcx hm).mono fun r between h => ?_
  refine ⟨h.1, h.2, (he between m r.1 immediate h.1 hm).mono fun d decided g => ?_⟩
  exact ⟨g.1, h.2.trans g.2.1, g.2.2, hb g.1 hm⟩

theorem KeepsDecision.of_quiet {rest : life.State → Prop} (hp : life.KeepsPreparation S)
    (he : life.KeepsExpansion S)
    (hb : life.beforeProcessing = fun _ state => pure state)
    (ha : life.afterProcessing = fun _ => pure ()) : life.KeepsDecision S rest :=
  KeepsDecision.of_parts hp he fun hcx _ => .of_default hb ha hcx

theorem KeepsExpansion.of_nothing {outcome : life.State → life.State}
    (he : life.expand = fun _ state _ => pure (.replace [], outcome state)) :
    life.KeepsExpansion S := by
  intro cx m state immediate hcx _
  rw [he]
  exact ⟨hcx, .refl cx, fun n hn => by cases hn⟩

theorem KeepsDecision.weaken {rest rest' : life.State → Prop} (h : life.KeepsDecision S rest)
    (imp : ∀ state, rest' state → rest state) : life.KeepsDecision S rest' :=
  fun cx m state immediate hcx hm hstate => h cx m state immediate hcx hm (imp state hstate)

end Lifecycle

/-! ### What a name stands for -/

/-- What a name stands for, as the state of the macros is known. -/
def Context.resolution (cx : Context) (s : MacroState) (name : String) : Resolution :=
  if isPending s name then .deferred
  else
    match cx.binding? s name with
    | some text => .value text
    | none => .undefined

theorem resolve_eq {cx : Context} {s : MacroState} (hs : cx.macros = .ok s) (name : String) :
    cx.resolve name = .ok (cx.resolution s name) := by
  simp only [Context.resolve, Context.resolution, hs, bind, Except.bind, pure, Except.pure]
  split
  · rfl
  · cases cx.binding? s name <;> rfl

theorem ensures_resolve {allows : Fault → Prop} {cx : Context} {s : MacroState} {name : String}
    {post : Resolution → Context → Prop} (hs : cx.macros = .ok s) :
    Ensures allows (Step.resolve name) cx post ↔ post (cx.resolution s name) cx := by
  simp only [Ensures, Step.resolve, resolve_eq hs, bind, Except.bind, pure, Except.pure]

/-! ### Behaviours that stand for their content, a text or nothing -/

section Quiet

variable {S : Stock} {m : Modifier}

theorem keeps_nothing : ∀ n ∈ (Outcome.replace []).nodes m, S.Keeps n := by
  intro n hn
  cases hn

theorem keeps_oneText {span : Span} {content : String} :
    ∀ n ∈ (Outcome.replace [.text span content]).nodes m, S.Keeps n := by
  intro n hn
  rw [List.mem_singleton.mp hn]
  exact S.keeps_text _ _

theorem keepsExpansion_plain : plainLifecycle.KeepsExpansion S :=
  fun cx _ _ _ hcx hm => ⟨hcx, .refl cx, hm.content⟩

theorem keepsExpansion_raw : rawLifecycle.KeepsExpansion S :=
  fun cx _ _ _ hcx hm => ⟨hcx, .refl cx, hm.content⟩

theorem keepsExpansion_unknown (head : String) : (unknownLifecycle head).KeepsExpansion S := by
  intro cx m state immediate hcx hm
  refine ⟨hcx, .refl cx, fun n hn => ?_⟩
  rcases List.mem_cons.mp hn with rfl | hn
  · split
    · exact S.keeps_text _ _
    · refine (S.paragraph _ _).mpr fun n hn => ?_
      rw [List.mem_singleton.mp hn]
      exact S.keeps_text _ _
  · exact hm.content n hn

theorem keepsPreparation_assign : assignLifecycle.KeepsPreparation S := by
  intro cx m state immediate hcx _
  have unchanged : ∀ r : assignLifecycle.State × List Message, Ensures noFault (pure r) cx
      fun _ between => between.Stores S ∧ cx.Agrees between := fun _ => ⟨hcx, .refl cx⟩
  simp only [assignLifecycle]
  split
  · exact unchanged _
  · split
    · split
      · exact unchanged _
      · exact unchanged _
    · exact unchanged _

theorem keepsExpansion_assign : assignLifecycle.KeepsExpansion S := by
  intro cx m state immediate hcx _
  cases state with
  | none => exact ⟨hcx, .refl cx, keeps_nothing⟩
  | some binding =>
    exact ⟨hcx.setVariable _ _, Context.agrees_of_macros_eq rfl, keeps_nothing⟩

theorem keepsPreparation_reference : referenceLifecycle.KeepsPreparation S := by
  intro cx m state immediate hcx _
  have unchanged : ∀ r : referenceLifecycle.State × List Message, Ensures noFault (pure r) cx
      fun _ between => between.Stores S ∧ cx.Agrees between := fun _ => ⟨hcx, .refl cx⟩
  obtain ⟨s, hs, -⟩ := hcx.macros
  simp only [referenceLifecycle]
  split
  · exact unchanged _
  · split
    · split
      · exact unchanged _
      · rw [ensures_bind, ensures_resolve hs]
        split <;> exact unchanged _
    · exact unchanged _

theorem keepsExpansion_reference : referenceLifecycle.KeepsExpansion S := by
  intro cx m state immediate hcx hm
  cases state with
  | some text => exact ⟨hcx, .refl cx, keeps_oneText⟩
  | none =>
    cases immediate with
    | true => exact ⟨hcx, .refl cx, keeps_nothing⟩
    | false => exact ⟨hcx, .refl cx, hm.content⟩

theorem keepsPreparation_conditional (expectDefined : Bool) :
    (conditionalLifecycle expectDefined).KeepsPreparation S := by
  intro cx m state immediate hcx _
  have unchanged : ∀ r : Option Bool × List Message, Ensures noFault (pure r) cx
      fun _ between => between.Stores S ∧ cx.Agrees between := fun _ => ⟨hcx, .refl cx⟩
  obtain ⟨s, hs, -⟩ := hcx.macros
  simp only [conditionalLifecycle]
  split
  · exact unchanged _
  · split
    · split
      · exact unchanged _
      · rw [ensures_bind, ensures_resolve hs]
        split <;> exact unchanged _
    · exact unchanged _

theorem keepsExpansion_conditional (expectDefined : Bool) :
    (conditionalLifecycle expectDefined).KeepsExpansion S := by
  intro cx m state immediate hcx hm
  simp only [conditionalLifecycle]
  split
  · exact ⟨hcx, .refl cx, hm.content⟩
  · exact ⟨hcx, .refl cx, keeps_nothing⟩

theorem keepsPreparation_print : printLifecycle.KeepsPreparation S := by
  intro cx m state immediate hcx _
  simp only [printLifecycle]
  split
  · exact ⟨hcx, .refl cx⟩
  · exact ⟨hcx, .refl cx⟩

theorem keepsExpansion_print : printLifecycle.KeepsExpansion S := by
  intro cx m state immediate hcx _
  simp only [printLifecycle]
  split
  · exact ⟨hcx, .refl cx, keeps_nothing⟩
  · exact ⟨hcx, .refl cx, keeps_oneText⟩

end Quiet

/-! ### Notations and modules -/

section Registers

variable {S : Stock}

theorem keepsExpansion_pushNotation : pushNotationLifecycle.KeepsExpansion S := by
  intro cx m state immediate hcx _
  obtain ⟨s, hs, hst⟩ := hcx.macros
  simp only [pushNotationLifecycle, ensures_bind, ensures_get, ensures_modifyMacros hs,
    ensures_pure]
  refine ⟨hcx.withMacros ?_, Context.agrees_of_ok hs rfl ⟨?_, ?_, rfl⟩, keeps_nothing⟩
  · refine ⟨fun r hr => ?_, hst.modules, hst.frames⟩
    rcases List.mem_cons.mp hr with rfl | hr
    · exact hcx.registries
    · exact hst.notations r hr
  · intro kind; cases kind <;> rfl
  · intro kind; cases kind <;> rfl

theorem keepsPreparation_popNotation : popNotationLifecycle.KeepsPreparation S := by
  intro cx m state immediate hcx _
  obtain ⟨s, hs, hst⟩ := hcx.macros
  simp only [popNotationLifecycle, ensures_bind, ensures_macros hs]
  cases hn : s.notations with
  | nil => exact ⟨hcx, .refl cx⟩
  | cons kept earlier =>
    simp only [ensures_bind, ensures_modifyMacros hs, Step.restore, ensures_modify, ensures_pure]
    have hkept : kept.All S.Registered := hst.notations kept (hn ▸ List.mem_cons_self)
    refine ⟨(hcx.withMacros ?_).restore hkept, Context.agrees_of_ok hs rfl ⟨?_, ?_, rfl⟩⟩
    · exact ⟨fun r hr => hst.notations r (hn ▸ List.mem_cons_of_mem _ hr), hst.modules,
        hst.frames⟩
    · intro kind; cases kind <;> rfl
    · intro kind; cases kind <;> rfl

theorem ensures_findModule {cx : Context} {m : Modifier} {immediate : Bool}
    (hcx : cx.Stores S) :
    Ensures noFault (findModule m immediate) cx fun found after => after = cx ∧
      ∀ record, found = .ok record → record.All S.Registered := by
  obtain ⟨s, hs, hst⟩ := hcx.macros
  have refused : ∀ messages : List Message, Ensures noFault
      (pure (.error messages) : Step (Except (List Message) ModuleRecord)) cx
      fun found after => after = cx ∧ ∀ record, found = .ok record → record.All S.Registered :=
    fun _ => ⟨rfl, fun _ h => by cases h⟩
  simp only [findModule]
  split
  · exact refused _
  · split
    · rw [ensures_bind, ensures_macros hs]
      split
      · exact refused _
      · rename_i record hrecord
        split
        · exact refused _
        · obtain ⟨entry, he, hv⟩ := Dict.mem_of_get? hrecord
          refine ⟨rfl, fun found hfound => ?_⟩
          cases hfound
          exact hv ▸ hst.modules entry he
    · exact refused _

theorem keepsDecision_useFromHere : useFromHereLifecycle.KeepsDecision S (· = none) := by
  intro cx m state immediate hcx hm hstate
  subst hstate
  simp only [useFromHereLifecycle, ensures_bind]
  refine (ensures_findModule hcx).mono ?_
  intro found after answer
  obtain ⟨rfl, hfound⟩ := answer
  have quiet {state : Option Registries} : useFromHereLifecycle.KeepsProcessing S m state after :=
    .of_default rfl rfl hcx
  cases found with
  | error messages => exact ⟨hcx, .refl after, hcx, .refl after, keeps_nothing, quiet⟩
  | ok record =>
    have hmerged : (after.registries.merge true record).1.All S.Registered :=
      hcx.registries.merge (hfound record rfl)
    refine ⟨hcx, .refl after, hcx.restore hmerged, Context.agrees_of_macros_eq rfl,
      keeps_nothing, ?_⟩
    exact .of_default rfl rfl (hcx.restore hmerged)

theorem keepsContent_useInside : useInsideLifecycle.KeepsContent (· = none) := by
  intro S cx m immediate hcx hm
  simp only [useInsideLifecycle, ensures_bind]
  refine (ensures_findModule hcx).mono ?_
  intro found after answer
  obtain ⟨rfl, hfound⟩ := answer
  cases found with
  | error messages => exact ⟨hcx, fun S' _ later hlater hagrees => ⟨hlater, hagrees, rfl⟩⟩
  | ok record =>
    refine ⟨hcx.restore (hcx.registries.merge (hfound record rfl)), ?_⟩
    intro S' le later hlater hagrees
    refine ⟨hlater.restore (hcx.registries.mono le.registered), ?_, rfl⟩
    exact hagrees.trans (Context.agrees_of_macros_eq rfl)

theorem keepsExpansion_useInside : useInsideLifecycle.KeepsExpansion S :=
  fun cx _ _ _ hcx hm => ⟨hcx, .refl cx, hm.content⟩

/-- A module that is noted as open where none was is closed again, whatever its body did
in between, and the registries `outer` come back. -/
theorem module_closes {outer : Registries} {cx cx' : Context} {s : MacroState} (name : String)
    (hs : cx.macros = .ok s) (hnone : s.insideModule = none) (hcx' : cx'.Stores S)
    (hs' : cx'.macros = .ok s) (houter : outer.All S.Registered) :
    moduleLifecycle.Closes (· = none) S cx (some (name, outer))
      (cx'.withMacros { s with insideModule := some name }) := by
  have hst : s.Stores S := hcx'.of_macros hs'
  refine ⟨hcx'.withMacros ⟨hst.notations, hst.modules, hst.frames⟩, ?_⟩
  intro S' le later hlater hagrees
  obtain ⟨t, ht, hopen⟩ := hagrees.exists_ok (Context.macros_withMacros _ _)
  have htst : t.Stores S' := hlater.of_macros ht
  have hrecord : (later.registries.addedSince outer).All S'.Registered :=
    hlater.registries.addedSince
  have hclosed : MacroState.Stores S' { t with
      insideModule := none
      modules := t.modules.set name (later.registries.addedSince outer) } := by
    refine ⟨htst.notations, fun entry he => ?_, htst.frames⟩
    rcases Dict.mem_entries_set he with he | he
    · exact htst.modules entry he
    · exact he ▸ hrecord
  simp only [moduleLifecycle, ensures_bind, ensures_get, ensures_modifyMacros ht, Step.restore,
    ensures_modify, ensures_pure, and_true]
  refine ⟨(hlater.withMacros hclosed).restore (houter.mono le.registered), ?_⟩
  exact Context.agrees_of_ok hs rfl ⟨hopen.delayed, hopen.frames, hnone.symm⟩

theorem keepsContent_module : moduleLifecycle.KeepsContent (· = none) := by
  intro S cx m immediate hcx hm
  obtain ⟨s, hs, hst⟩ := hcx.macros
  have refused : ∀ messages : List Message, Ensures noFault
      (pure (none, messages) : Step (Option (String × Registries) × List Message)) cx
      fun r inside => moduleLifecycle.Closes (· = none) S cx r.1 inside :=
    fun _ => ⟨hcx, fun S' _ later hlater hagrees => ⟨hlater, hagrees, rfl⟩⟩
  simp only [moduleLifecycle] at refused ⊢
  split
  · exact refused _
  · split
    · exact refused _
    · split
      · split
        · exact refused _
        · rw [ensures_bind, ensures_macros hs]
          split
          · exact refused _
          · rename_i argument _ _ _ hinside
            have hnone : s.insideModule = none := by simpa using hinside
            rw [ensures_bind, ensures_get]
            split
            · rename_i record hrecord
              obtain ⟨entry, he, hv⟩ := Dict.mem_of_get? hrecord
              have hreopened : (cx.registries.merge false record).1.All S.Registered :=
                hcx.registries.merge (hv ▸ hst.modules entry he)
              have hs' : (cx.restore (cx.registries.merge false record).1).macros = .ok s := hs
              simp only [Step.restore, ensures_bind, ensures_modify, ensures_pure,
                ensures_modifyMacros hs']
              exact module_closes argument.text hs hnone (hcx.restore hreopened) hs'
                hcx.registries
            · simp only [ensures_bind, ensures_pure, ensures_modifyMacros hs]
              exact module_closes argument.text hs hnone hcx hs hcx.registries
      · exact refused _

end Registers

/-! ### Definitions and their uses -/

section Definitions

variable {S : Stock}

/-- No body was made for the definition yet. -/
def Signature.Unmade (state : Option Signature) : Prop :=
  ∀ signature, state = some signature → signature.body = none

theorem keepsContent_define (kind : MacroKind) :
    (defineLifecycle kind).KeepsContent Signature.Unmade := by
  intro S cx m immediate hcx hm
  obtain ⟨s, hs, hst⟩ := hcx.macros
  have refused : ∀ messages : List Message, Ensures noFault
      (pure (none, messages) : Step (Option Signature × List Message)) cx
      fun r inside => (defineLifecycle kind).Closes Signature.Unmade S cx r.1 inside :=
    fun _ => ⟨hcx, fun S' _ later hlater hagrees =>
      ⟨hlater, hagrees, fun _ h => by cases h⟩⟩
  simp only [defineLifecycle] at refused ⊢
  split
  · exact refused _
  · split
    · rename_i name others _
      rw [ensures_bind, ensures_modifyMacros hs]
      refine ⟨hcx.withMacros hst.setDelayed, fun S' le later hlater hagrees => ?_⟩
      obtain ⟨t, ht, hopen⟩ := hagrees.exists_ok (Context.macros_withMacros _ _)
      have htop := hopen.delayed kind
      rw [MacroState.delayed_setDelayed] at htop
      simp only [ensures_bind, ensures_macros ht, htop, ne_eq, not_true_eq_false, if_false,
        ensures_pure, ensures_modifyMacros ht]
      refine ⟨hlater.withMacros (hlater.of_macros ht).setDelayed,
        Context.agrees_of_ok hs rfl hopen.putBackDelayed, fun signature h => ?_⟩
      cases h
      rfl
    · exact refused _

def Signature.InStock (S : Stock) (state : Option Signature) : Prop :=
  ∀ signature, state = some signature → ∀ body, signature.body = some body →
    ∀ n ∈ body, S.Keeps n

theorem Signature.Unmade.inStock {state : Option Signature} (h : Unmade state) :
    InStock S state := by
  intro signature hs body hb
  rw [h signature hs] at hb
  cases hb

theorem inStock_prepare_define {kind : MacroKind} {cx : Context} {m : Modifier}
    {state : Option Signature} {immediate : Bool} (hm : ∀ n ∈ m.content, S.Keeps n)
    (hstate : Signature.Unmade state) :
    Ensures noFault ((defineLifecycle kind).prepare m state immediate) cx
      fun r between => between = cx ∧ Signature.InStock S r.1 := by
  simp only [defineLifecycle]
  split
  · exact ⟨rfl, hstate.inStock⟩
  · split
    · exact ⟨rfl, fun _ h => by cases h⟩
    · rename_i signature
      have hbody : signature.body = none := hstate signature rfl
      split
      · refine ⟨rfl, fun made hmade body hb => ?_⟩
        cases hmade
        rw [hbody] at hb
        cases hb
      · rw [ensures_bind, ensures_get]
        cases kind with
        | block =>
          refine ⟨rfl, fun made hmade body hb => ?_⟩
          cases hmade
          rw [hbody] at hb
          cases hb
        | inline =>
          refine ⟨rfl, fun made hmade body hb => ?_⟩
          cases hmade
          cases hb
          exact Stock.keeps_flattenInline false hm

theorem keepsDecision_define (kind : MacroKind) :
    (defineLifecycle kind).KeepsDecision S Signature.Unmade := by
  intro cx m state immediate hcx hm hstate
  refine (inStock_prepare_define hm.content hstate).mono ?_
  intro answer between hanswer
  obtain ⟨state, messages⟩ := answer
  obtain ⟨rfl, hstock⟩ := hanswer
  refine ⟨hcx, .refl between, ?_⟩
  have quiet {cx : Context} {state : Option Signature} (h : cx.Stores S) :
      (defineLifecycle kind).KeepsProcessing S m state cx :=
    .of_default rfl rfl h
  cases immediate with
  | false => exact ⟨hcx, .refl between, hm.content, quiet hcx⟩
  | true =>
    cases state with
    | none => exact ⟨hcx, .refl between, keeps_nothing, quiet hcx⟩
    | some signature =>
      have hbody : ∀ n ∈ signature.body.getD m.content, S.Keeps n := by
        cases hb : signature.body with
        | none => exact hm.content
        | some body => exact hstock signature rfl body hb
      by_cases hname : (signature.name.getD "").isEmpty = true
      · simp only [defineLifecycle, Bool.not_true, Bool.false_eq_true, if_false, hname]
        exact ⟨hcx, .refl between, keeps_nothing, quiet hcx⟩
      · have hname' : signature.name.getD "" ≠ "" := fun h => hname (by rw [h]; rfl)
        have hdefined := @Context.Stores.define S _ kind _ signature.slotName
          signature.parameters _ hcx hname' hbody
        simp only [defineLifecycle, Bool.not_true, Bool.false_eq_true, if_false, hname,
          Bool.not_false, if_true, ensures_bind, ensures_modify, ensures_pure]
        exact ⟨hdefined.changed, Context.agrees_of_macros_eq rfl, keeps_nothing,
          quiet hdefined.changed⟩

/-- The invocation that is laid down before the body is processed is taken up behind it. -/
theorem keepsProcessing_custom {kind : MacroKind} {name slotName : String}
    {parameters : List String} {body : List Node} {m : Modifier} {state : Option (Dict String)}
    {cx : Context} (hcx : cx.Stores S) (hm : S.Sits m) :
    (customLifecycle kind name parameters slotName body).KeepsProcessing S m state cx := by
  obtain ⟨s, hs, hst⟩ := hcx.macros
  unfold Lifecycle.KeepsProcessing
  cases state with
  | none => exact ⟨hcx, id, fun S' _ later hlater hagrees => ⟨hlater, hagrees⟩⟩
  | some arguments =>
    simp only [customLifecycle, ensures_bind, ensures_modifyMacros hs, ensures_pure]
    have hframes : ∀ frame ∈ (⟨slotName, name, arguments, m.content⟩ :: s.frames kind : List Frame),
        ∀ n ∈ frame.content, S.Keeps n := by
      intro frame hf
      rcases List.mem_cons.mp hf with rfl | hf
      · exact hm.content
      · exact hst.frames kind frame hf
    refine ⟨hcx.withMacros (hst.setFrames hframes),
      fun hnone => hnone.withMacros hs fun _ => MacroState.delayed_setFrames _ _,
      fun S' le later hlater hagrees => ?_⟩
    obtain ⟨t, ht, hopen⟩ := hagrees.exists_ok (Context.macros_withMacros _ _)
    have htop := hopen.frames kind
    rw [MacroState.frames_setFrames] at htop
    have htst : t.Stores S' := hlater.of_macros ht
    simp only [Option.isSome_some, if_true, ensures_bind, ensures_macros ht, htop, ne_eq,
      not_true_eq_false, if_false, ensures_modifyMacros ht]
    refine ⟨hlater.withMacros (htst.setFrames fun frame hf => ?_),
      Context.agrees_of_ok hs rfl hopen.putBackFrames⟩
    exact htst.frames kind frame (htop ▸ List.mem_cons_of_mem _ hf)

theorem keepsDecision_custom {kind : MacroKind} {name slotName : String}
    {parameters : List String} {body : List Node} {rest : Option (Dict String) → Prop}
    (hbody : ∀ n ∈ body, S.Keeps n) :
    (customLifecycle kind name parameters slotName body).KeepsDecision S rest := by
  refine .of_parts ?_ ?_ fun hcx hm => keepsProcessing_custom hcx hm
  · intro cx m state immediate hcx _
    simp only [customLifecycle]
    split
    · exact ⟨hcx, .refl cx⟩
    · exact ⟨hcx, .refl cx⟩
  · intro cx m state immediate hcx _
    cases state with
    | none => exact ⟨hcx, .refl cx, keeps_nothing⟩
    | some arguments => exact ⟨hcx, .refl cx, hbody⟩

end Definitions

/-! ### Slots -/

section Slots

variable {S : Stock} {kind : MacroKind} {cx : Context} {s : MacroState} {m : Modifier}

def SlotState.Within (frames : List Frame) (state : SlotState) : Prop :=
  ∀ outer detached, state = .resolved outer detached → outer < frames.length

theorem SlotState.within_open {frames : List Frame} : Within frames .open :=
  fun _ _ h => by cases h

theorem SlotState.within_failed {frames : List Frame} : Within frames .failed :=
  fun _ _ h => by cases h

theorem SlotState.within_resolved {frames : List Frame} {outer : Nat}
    (h : outer < frames.length) : Within frames (.resolved outer []) := by
  intro outer' detached heq
  cases heq
  exact h

theorem frameInside?_of_lt {frames : List Frame} {outer : Nat} (h : outer < frames.length) :
    ∃ frame ∈ frames, frameInside? frames outer = some frame := by
  have hlt : outer < frames.reverse.length := by rwa [List.length_reverse]
  refine ⟨frames.reverse[outer], ?_, List.getElem?_eq_getElem hlt⟩
  exact List.mem_reverse.mp (List.getElem_mem hlt)

/-- A slot only ever belongs to an invocation that is being processed.  At an immediate
visit it waits for nothing but a definition that is being read. -/
theorem ensures_locateSlot {argument : Option Argument} {immediate : Bool}
    (hs : cx.macros = .ok s) (hplaced : m.span.start ≤ m.head.stop) :
    Ensures noFault (locateSlot kind m argument immediate) cx fun r between => between = cx ∧
      SlotState.Within (s.frames kind) r.1 ∧
      (immediate = true → s.delayed kind = [] → r.1 ≠ .open) := by
  simp only [locateSlot, ensures_bind, ensures_macros hs, ensures_ite]
  refine ⟨fun _ => ⟨fun _ => ?_, fun himmediate => ?_⟩,
    fun hframes => ⟨fun hany => ?_, fun _ => ?_⟩⟩
  · exact ensures_checked hplaced ⟨rfl, SlotState.within_failed, fun _ _ h => by cases h⟩
  · exact ⟨rfl, SlotState.within_open, fun h => absurd h himmediate⟩
  · refine ⟨rfl, SlotState.within_open, fun _ hnone => ?_⟩
    rw [hnone] at hany
    cases hany
  · have hpos : 0 < (s.frames kind).length := by
      rw [List.isEmpty_iff] at hframes
      exact List.length_pos_iff.mpr hframes
    cases argument with
    | none =>
      exact ⟨rfl, SlotState.within_resolved (Nat.sub_lt hpos Nat.one_pos), fun _ _ h => by cases h⟩
    | some a =>
      cases howner : findOwner? a.text (s.frames kind) with
      | some outer =>
        simp only [Option.map_some, Option.getD_some, howner]
        exact ⟨rfl, SlotState.within_resolved (findOwner?_lt howner), fun _ _ h => by cases h⟩
      | none =>
        simp only [Option.map_some, Option.getD_some, howner, ensures_ite]
        refine ⟨fun _ => ⟨rfl, SlotState.within_failed, fun _ _ h => by cases h⟩, fun h => ?_⟩
        exact ⟨rfl, SlotState.within_open, fun himmediate => absurd himmediate h⟩

theorem ensures_prepare_slot {state : SlotState} {immediate : Bool} (hs : cx.macros = .ok s)
    (hplaced : m.span.start ≤ m.head.stop) :
    Ensures noFault ((slotLifecycle kind).prepare m state immediate) cx
      fun r between => between = cx ∧ SlotState.Within (s.frames kind) r.1 ∧
        (immediate = true → s.delayed kind = [] → r.1 ≠ .open) := by
  simp only [slotLifecycle]
  split
  · cases immediate with
    | true => exact ⟨rfl, SlotState.within_failed, fun _ _ h => by cases h⟩
    | false => exact ⟨rfl, SlotState.within_open, fun h => by cases h⟩
  · split
    · exact ensures_locateSlot hs hplaced
    · simp only [ensures_ite]
      refine ⟨fun hwaits => ⟨rfl, SlotState.within_open, fun h => ?_⟩,
        fun _ => ⟨fun _ => ?_, fun _ => ?_⟩⟩
      · rw [h] at hwaits
        simp at hwaits
      · exact ⟨rfl, SlotState.within_failed, fun _ _ h => by cases h⟩
      · exact ensures_locateSlot hs hplaced

/-- The invocations that are set aside before the body is processed come back behind it. -/
theorem keepsProcessing_slot {state : SlotState} (hs : cx.macros = .ok s) (hcx : cx.Stores S)
    (hstate : state.Within (s.frames kind)) :
    (slotLifecycle kind).KeepsProcessing S m state cx := by
  have hst : s.Stores S := hcx.of_macros hs
  unfold Lifecycle.KeepsProcessing
  cases state with
  | «open» => exact ⟨hcx, id, fun S' _ later hlater hagrees => ⟨hlater, hagrees⟩⟩
  | failed => exact ⟨hcx, id, fun S' _ later hlater hagrees => ⟨hlater, hagrees⟩⟩
  | resolved outer detached =>
    have hlt : outer < (s.frames kind).length := hstate outer detached rfl
    simp only [slotLifecycle, ensures_bind, ensures_macros hs, ensures_modifyMacros hs,
      ensures_pure]
    have hrest : ∀ frame ∈ (s.frames kind).drop ((s.frames kind).length - outer),
        ∀ n ∈ frame.content, S.Keeps n :=
      fun frame hf => hst.frames kind frame (List.mem_of_mem_drop hf)
    refine ⟨hcx.withMacros (hst.setFrames hrest),
      fun hnone => hnone.withMacros hs fun _ => MacroState.delayed_setFrames _ _,
      fun S' le later hlater hagrees => ?_⟩
    obtain ⟨t, ht, hopen⟩ := hagrees.exists_ok (Context.macros_withMacros _ _)
    have hframes := hopen.frames kind
    rw [MacroState.frames_setFrames] at hframes
    have hlength : ((s.frames kind).drop ((s.frames kind).length - outer)).length = outer := by
      rw [List.length_drop]
      omega
    have htst : t.Stores S' := hlater.of_macros ht
    simp only [ensures_macros ht, hframes, hlength, ne_eq, not_true_eq_false, if_false,
      ensures_modifyMacros ht, List.take_append_drop]
    refine ⟨hlater.withMacros (htst.setFrames fun frame hf n hn => ?_),
      Context.agrees_of_ok hs rfl hopen.putBackFrames⟩
    exact le.keeps n (hst.frames kind frame hf n hn)

theorem keepsDecision_slot (kind : MacroKind) :
    (slotLifecycle kind).KeepsDecision S fun _ => True := by
  intro cx m state immediate hcx hm _
  obtain ⟨s, hs, hst⟩ := hcx.macros
  refine (ensures_prepare_slot hs hm.placed).mono ?_
  intro answer between hanswer
  obtain ⟨state, messages⟩ := answer
  obtain ⟨rfl, hwithin, -⟩ := hanswer
  refine ⟨hcx, .refl between, ?_⟩
  have hprocessing := keepsProcessing_slot (m := m) hs hcx hwithin
  cases state with
  | «open» => exact ⟨hcx, .refl between, hm.content, hprocessing⟩
  | failed => exact ⟨hcx, .refl between, keeps_nothing, hprocessing⟩
  | resolved outer detached =>
    obtain ⟨frame, hmem, hframe⟩ := frameInside?_of_lt (hwithin outer detached rfl)
    simp only [slotLifecycle, ensures_bind, ensures_macros hs, hframe, ensures_pure]
    exact ⟨hcx, .refl between, hst.frames kind frame hmem, hprocessing⟩

end Slots

/-! ### All behaviours -/

/-- The states in which a behaviour can be between its content and its expansion. -/
def Behaviour.Rests : (b : Behaviour) → b.lifecycle.State → Prop
  | .define _ => Signature.Unmade
  | b => fun state => state = b.lifecycle.idle

/-- **The points around the content leave open what they found open.** -/
theorem keepsContent (b : Behaviour) : b.lifecycle.KeepsContent b.Rests := by
  cases b with
  | define kind => exact keepsContent_define kind
  | recordModule => exact keepsContent_module
  | useInside => exact keepsContent_useInside
  | plain => exact .of_default rfl rfl
  | unknown head => exact .of_default rfl rfl
  | slot kind => exact .of_default rfl rfl
  | print => exact .of_default rfl rfl
  | raw => exact .of_default rfl rfl
  | assign => exact .of_default rfl rfl
  | reference => exact .of_default rfl rfl
  | conditional expectDefined => exact .of_default rfl rfl
  | pushNotation => exact .of_default rfl rfl
  | popNotation => exact .of_default rfl rfl
  | useFromHere => exact .of_default rfl rfl
  | custom kind name parameters slotName body =>
    exact .of_default rfl rfl

/-- **Deciding what a modifier stands for opens nothing, and what it stands for is in
stock.** -/
theorem keepsDecision {S : Stock} {d : Definition} (hd : S.Fits d) :
    d.behaviour.lifecycle.KeepsDecision S d.behaviour.Rests := by
  have hbody := S.body d hd
  obtain ⟨stamp, name, kind, slot, delaysContent, alwaysExpands, behaviour⟩ := d
  cases behaviour with
  | define kind => exact keepsDecision_define kind
  | slot kind => exact (keepsDecision_slot kind).weaken fun _ _ => trivial
  | custom kind name parameters slotName body => exact keepsDecision_custom hbody
  | useFromHere => exact keepsDecision_useFromHere
  | plain => exact .of_quiet (.of_default rfl) keepsExpansion_plain rfl rfl
  | unknown head => exact .of_quiet (.of_default rfl) (keepsExpansion_unknown head) rfl rfl
  | raw => exact .of_quiet (.of_default rfl) keepsExpansion_raw rfl rfl
  | print => exact .of_quiet keepsPreparation_print keepsExpansion_print rfl rfl
  | assign => exact .of_quiet keepsPreparation_assign keepsExpansion_assign rfl rfl
  | reference => exact .of_quiet keepsPreparation_reference keepsExpansion_reference rfl rfl
  | conditional expectDefined =>
    exact .of_quiet (keepsPreparation_conditional expectDefined)
      (keepsExpansion_conditional expectDefined) rfl rfl
  | pushNotation => exact .of_quiet (.of_default rfl) keepsExpansion_pushNotation rfl rfl
  | popNotation =>
    exact .of_quiet keepsPreparation_popNotation (.of_nothing rfl) rfl rfl
  | recordModule => exact .of_quiet (.of_default rfl) (.of_nothing rfl) rfl rfl
  | useInside => exact .of_quiet (.of_default rfl) keepsExpansion_useInside rfl rfl

end MacroMarkup
