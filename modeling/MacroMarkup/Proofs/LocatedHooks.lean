import MacroMarkup.Proofs.Hooks
import MacroMarkup.Proofs.Located

/-!
# What the points of a lifecycle do with spans

The points of a lifecycle move nodes from one place to another: from a body to a definition,
from an invocation to the stacks, and from there to where they are processed.  They make no
spans of their own but those between spans of the modifier itself.

* `Lifecycle.Locates`: at a located modifier all points keep the context located, report at
  located spans, and stand for located nodes.
* `Behaviour.Remembers`: what lies in the state of a behaviour from one point to the next.
* `locates`: **every behaviour has this law**, if its body is located.
-/

namespace MacroMarkup

/-- At a located modifier the points of the lifecycle keep the context located, start messages at
located spans, answer located nodes, and leave a state in `rests`. -/
structure Lifecycle.Locates (P : Nat → Prop) (life : Lifecycle) (rests : life.State → Prop) :
    Prop where
  beforeContent : ∀ m immediate, m.Located P →
    Step.Upholds (.located P) (fun r => rests r.1 ∧ AreRaised P r.2)
      (life.beforeContent m immediate)
  afterContent : ∀ state, rests state → Step.Upholds (.located P) rests (life.afterContent state)
  prepare : ∀ m state immediate, m.Located P → rests state →
    Step.Upholds (.located P) (fun r => rests r.1 ∧ AreRaised P r.2)
      (life.prepare m state immediate)
  expand : ∀ m state immediate, m.Located P → rests state →
    Step.Upholds (.located P) (fun d => rests d.2 ∧ ∀ n ∈ d.1.nodes m, n.Located P)
      (life.expand m state immediate)
  beforeProcessing : ∀ m state, m.Located P → rests state →
    Step.Upholds (.located P) rests (life.beforeProcessing m state)
  afterProcessing : ∀ state, rests state →
    Step.Upholds (.located P) (fun _ => True) (life.afterProcessing state)

def Signature.Located (P : Nat → Prop) (state : Option Signature) : Prop :=
  ∀ signature, state = some signature → AreRaised P signature.pending ∧
    ∀ body, signature.body = some body → ∀ n ∈ body, n.Located P

def SlotState.Located (P : Nat → Prop) (state : SlotState) : Prop :=
  ∀ outer detached, state = .resolved outer detached →
    ∀ frame ∈ detached, ∀ n ∈ frame.content, n.Located P

def Behaviour.Remembers (P : Nat → Prop) : (b : Behaviour) → b.lifecycle.State → Prop
  | .define _ => Signature.Located P
  | .slot _ => SlotState.Located P
  | .recordModule => fun state : Option (String × Registries) =>
    ∀ name outer, state = some (name, outer) → outer.All (·.Located P)
  | .useInside => fun state : Option Registries =>
    ∀ outer, state = some outer → outer.All (·.Located P)
  | .useFromHere => fun state : Option Registries =>
    ∀ merged, state = some merged → merged.All (·.Located P)
  | _ => anyState

variable {P : Nat → Prop}

/-! ### Behaviours that stand for their content, a text or nothing -/

theorem locates_plain : plainLifecycle.Locates P anyState where
  beforeContent _ _ _ := .pure ⟨trivial, areRaised_nil⟩
  afterContent _ _ := .pure trivial
  prepare _ _ _ _ _ := .pure ⟨trivial, areRaised_nil⟩
  expand _ _ _ hm _ := .pure ⟨trivial, hm.content⟩
  beforeProcessing _ _ _ _ := .pure trivial
  afterProcessing _ _ := .pure trivial

theorem locates_raw : rawLifecycle.Locates P anyState where
  beforeContent _ _ _ := .pure ⟨trivial, areRaised_nil⟩
  afterContent _ _ := .pure trivial
  prepare _ _ _ _ _ := .pure ⟨trivial, areRaised_nil⟩
  expand _ _ _ hm _ := .pure ⟨trivial, hm.content⟩
  beforeProcessing _ _ _ _ := .pure trivial
  afterProcessing _ _ := .pure trivial

theorem locates_unknown (head : String) : (unknownLifecycle head).Locates P anyState where
  beforeContent _ _ _ := .pure ⟨trivial, areRaised_nil⟩
  afterContent _ _ := .pure trivial
  prepare _ _ _ _ _ := .pure ⟨trivial, areRaised_nil⟩
  expand m _ _ hm _ := by
    refine .pure ⟨trivial, List.forall_mem_cons.mpr ⟨?_, hm.content⟩⟩
    split
    · exact .text hm.head
    · exact .paragraph hm.head (List.forall_mem_singleton.mpr (.text hm.head))
  beforeProcessing _ _ _ _ := .pure trivial
  afterProcessing _ _ := .pure trivial

theorem located_nothing {m : Modifier} : ∀ n ∈ (Outcome.replace []).nodes m, n.Located P :=
  List.forall_mem_nil _

theorem located_oneText {m : Modifier} {content : String} (hm : m.Located P) :
    ∀ n ∈ (Outcome.replace [.text m.span content]).nodes m, n.Located P :=
  List.forall_mem_singleton.mpr (.text hm.span)

theorem locates_assign : assignLifecycle.Locates P anyState where
  beforeContent _ _ _ := .pure ⟨trivial, areRaised_nil⟩
  afterContent _ _ := .pure trivial
  prepare m state immediate hm _ := by
    have harguments := hm.arguments
    simp only [assignLifecycle]
    split
    · exact .pure ⟨trivial,
        List.forall_mem_singleton.mpr (raised_checkArguments? hm (by assumption))⟩
    split
    · rename_i name value rest hname
      rw [hname] at harguments
      refine .ite (fun _ => .pure ⟨trivial, areRaised_one rfl ?_⟩) fun _ =>
        .pure ⟨trivial, areRaised_nil⟩
      exact (harguments name List.mem_cons_self).span
    · exact .pure ⟨trivial, areRaised_nil⟩
  expand m state immediate hm _ := by
    cases state with
    | none => exact .pure ⟨trivial, located_nothing⟩
    | some binding =>
      exact .bind (.modify fun _ hcx => hcx.setVariable _ _) fun _ _ =>
        .pure ⟨trivial, located_nothing⟩
  beforeProcessing _ _ _ _ := .pure trivial
  afterProcessing _ _ := .pure trivial

theorem locates_reference : referenceLifecycle.Locates P anyState where
  beforeContent _ _ _ := .pure ⟨trivial, areRaised_nil⟩
  afterContent _ _ := .pure trivial
  prepare m state immediate hm _ := by
    have harguments := hm.arguments
    simp only [referenceLifecycle]
    split
    · refine .pure ⟨trivial, AreRaised.ite (List.forall_mem_singleton.mpr ?_)⟩
      exact raised_checkArguments? hm (by assumption)
    split
    · rename_i name rest hname
      rw [hname] at harguments
      have hspan := (harguments name List.mem_cons_self).span
      refine .ite (fun _ => .pure ⟨trivial, (areRaised_one rfl hspan).ite⟩) fun _ => ?_
      refine .bind located_resolve fun resolution _ => ?_
      cases resolution with
      | value text => exact .pure ⟨trivial, areRaised_nil⟩
      | undefined => exact .pure ⟨trivial, (areRaised_one rfl hspan).ite⟩
      | deferred => exact .pure ⟨trivial, (areRaised_one rfl hspan).ite⟩
    · exact .pure ⟨trivial, areRaised_nil⟩
  expand m state immediate hm _ := by
    cases state with
    | some text => exact .pure ⟨trivial, located_oneText hm⟩
    | none =>
      cases immediate with
      | true => exact .pure ⟨trivial, located_nothing⟩
      | false => exact .pure ⟨trivial, hm.content⟩
  beforeProcessing _ _ _ _ := .pure trivial
  afterProcessing _ _ := .pure trivial

theorem locates_conditional (expectDefined : Bool) :
    (conditionalLifecycle expectDefined).Locates P anyState where
  beforeContent _ _ _ := .pure ⟨trivial, areRaised_nil⟩
  afterContent _ _ := .pure trivial
  prepare m state immediate hm _ := by
    have harguments := hm.arguments
    simp only [conditionalLifecycle]
    split
    · exact .pure ⟨trivial,
        List.forall_mem_singleton.mpr (raised_checkArguments? hm (by assumption))⟩
    split
    · rename_i name rest hname
      rw [hname] at harguments
      refine .ite (fun _ => .pure ⟨trivial, areRaised_one rfl ?_⟩) fun _ => ?_
      · exact (harguments name List.mem_cons_self).span
      refine .bind located_resolve fun resolution _ => ?_
      cases resolution <;> exact .pure ⟨trivial, areRaised_nil⟩
    · exact .pure ⟨trivial, areRaised_nil⟩
  expand m state immediate hm _ := by
    simp only [conditionalLifecycle]
    split
    · exact .pure ⟨trivial, hm.content⟩
    · exact .pure ⟨trivial, located_nothing⟩
  beforeProcessing _ _ _ _ := .pure trivial
  afterProcessing _ _ := .pure trivial

theorem locates_print : printLifecycle.Locates P anyState where
  beforeContent _ _ _ := .pure ⟨trivial, areRaised_nil⟩
  afterContent _ _ := .pure trivial
  prepare m state immediate hm _ := by
    simp only [printLifecycle]
    split
    · exact .pure ⟨trivial,
        List.forall_mem_singleton.mpr (raised_checkArguments? hm (by assumption))⟩
    · exact .pure ⟨trivial, areRaised_nil⟩
  expand m state immediate hm _ :=
    .ite (fun _ => .pure ⟨trivial, located_nothing⟩) fun _ => .pure ⟨trivial, located_oneText hm⟩
  beforeProcessing _ _ _ _ := .pure trivial
  afterProcessing _ _ := .pure trivial

/-! ### Notations and modules -/

theorem locates_pushNotation : pushNotationLifecycle.Locates P anyState where
  beforeContent _ _ _ := .pure ⟨trivial, areRaised_nil⟩
  afterContent _ _ := .pure trivial
  prepare _ _ _ _ _ := .pure ⟨trivial, areRaised_nil⟩
  expand m state immediate _ _ := by
    refine .bind located_get fun cx hcx => .bind (located_modifyMacros fun s hs => ?_) fun _ _ =>
      .pure ⟨trivial, located_nothing⟩
    exact ⟨List.forall_mem_cons.mpr ⟨hcx.registries, hs.notations⟩, hs.modules, hs.frames⟩
  beforeProcessing _ _ _ _ := .pure trivial
  afterProcessing _ _ := .pure trivial

theorem locates_popNotation : popNotationLifecycle.Locates P anyState where
  beforeContent _ _ _ := .pure ⟨trivial, areRaised_nil⟩
  afterContent _ _ := .pure trivial
  prepare m state immediate hm _ := by
    refine .bind located_macros fun s hs => ?_
    have hkept := hs.notations
    split
    · exact .pure ⟨trivial, areRaised_one rfl hm.span⟩
    · rename_i kept earlier hnotations
      rw [hnotations] at hkept
      obtain ⟨hkept, hearlier⟩ := List.forall_mem_cons.mp hkept
      refine .bind (located_modifyMacros fun t ht => ⟨hearlier, ht.modules, ht.frames⟩)
        fun _ _ => .bind (located_restore hkept) fun _ _ => .pure ⟨trivial, areRaised_nil⟩
  expand _ _ _ _ _ := .pure ⟨trivial, located_nothing⟩
  beforeProcessing _ _ _ _ := .pure trivial
  afterProcessing _ _ := .pure trivial

theorem areRaised_clashMessages {m : Modifier} (hm : m.Located P) (clashes : List String) :
    AreRaised P (clashMessages m clashes) := by
  rw [clashMessages]
  split
  · exact areRaised_nil
  · exact areRaised_one rfl hm.head

theorem located_findModule {m : Modifier} {immediate : Bool} (hm : m.Located P) :
    Step.Upholds (.located P)
      (fun found => (∀ messages, found = .error messages → AreRaised P messages) ∧
        ∀ record, found = .ok record → record.All (·.Located P)) (findModule m immediate) := by
  have harguments := hm.arguments
  have refused : ∀ messages, AreRaised P messages → Step.Upholds (.located P)
      (fun found => (∀ messages, found = .error messages → AreRaised P messages) ∧
        ∀ record, found = .ok record → record.All (·.Located P))
      (pure (.error messages) : Step (Except (List Message) ModuleRecord)) := by
    refine fun messages h => .pure ⟨fun messages' h' => ?_, fun _ h => by cases h⟩
    cases h'
    exact h
  simp only [findModule]
  split
  · refine refused _ (AreRaised.ite (List.forall_mem_singleton.mpr ?_))
    exact raised_checkArguments? hm (by assumption)
  split
  · rename_i argument rest hname
    rw [hname] at harguments
    have hspan := (harguments argument List.mem_cons_self).span
    refine .bind located_macros fun s hs => ?_
    split
    · exact refused _ (areRaised_one rfl hspan).ite
    · rename_i record hrecord
      refine .ite (fun _ => refused _ (areRaised_one rfl hspan).ite) fun _ => .pure ⟨?_, ?_⟩
      · exact fun _ h => by cases h
      · intro found hfound
        cases hfound
        obtain ⟨entry, he, hv⟩ := Dict.mem_of_get? hrecord
        exact hv ▸ hs.modules entry he
  · exact refused _ areRaised_nil

theorem located_beforeContent_module {m : Modifier} {immediate : Bool} (hm : m.Located P) :
    Step.Upholds (.located P)
      (fun r => Behaviour.Remembers P .recordModule r.1 ∧ AreRaised P r.2)
      (moduleLifecycle.beforeContent m immediate) := by
  have harguments := hm.arguments
  have refused : ∀ messages, AreRaised P messages → Step.Upholds (.located P)
      (fun r => Behaviour.Remembers P .recordModule r.1 ∧ AreRaised P r.2)
      (pure (none, messages) : Step (Option (String × Registries) × List Message)) :=
    fun _ h => .pure ⟨fun _ _ h => (by cases h), h⟩
  -- the registries around the body are remembered
  have hopens : ∀ (name : String) (outer : Registries) (messages : List Message),
      outer.All (·.Located P) → AreRaised P messages → Step.Upholds (.located P)
        (fun r => Behaviour.Remembers P .recordModule r.1 ∧ AreRaised P r.2) (do
          Step.modifyMacros fun s => { s with insideModule := some name }
          return (some (name, outer), messages)) := by
    intro name outer messages houter hmessages
    refine .bind (located_modifyMacros fun s hs => ⟨hs.notations, hs.modules, hs.frames⟩)
      fun _ _ => .pure ⟨fun name' outer' h => ?_, hmessages⟩
    cases h
    exact houter
  have hreports : ∀ messages : List Message, AreRaised P messages →
      Step.Upholds (.located P) (AreRaised P) (pure messages : Step (List Message)) :=
    fun _ h => .pure h
  simp only [moduleLifecycle] at refused hopens ⊢
  refine .ite (fun _ => refused _ areRaised_nil) fun _ => ?_
  split
  · exact refused _ (List.forall_mem_singleton.mpr (raised_checkArguments? hm (by assumption)))
  split
  · rename_i argument rest hname
    rw [hname] at harguments
    have hspan := (harguments argument List.mem_cons_self).span
    refine .ite (fun _ => refused _ (areRaised_one rfl hspan)) fun _ => ?_
    refine .bind located_macros fun s hs => ?_
    refine .ite (fun _ => refused _ (areRaised_one rfl hm.head)) fun _ => ?_
    refine .bind located_get fun cx hcx => ?_
    split
    · rename_i record hrecord
      obtain ⟨entry, he, hv⟩ := Dict.mem_of_get? hrecord
      have hrecord := hv ▸ hs.modules entry he
      refine .bind (located_restore (hcx.registries.merge hrecord)) fun _ _ => ?_
      exact .bind (hreports _ (areRaised_clashMessages hm _)) fun _ h =>
        hopens _ _ _ hcx.registries h
    · exact .bind (hreports _ areRaised_nil) fun _ h => hopens _ _ _ hcx.registries h
  · exact refused _ areRaised_nil

theorem locates_module : moduleLifecycle.Locates P (Behaviour.Remembers P .recordModule) where
  beforeContent _ _ hm := located_beforeContent_module hm
  afterContent state hstate := by
    have hrests : Behaviour.Remembers P .recordModule (none : Option (String × Registries)) :=
      fun _ _ h => by cases h
    cases state with
    | none => exact .pure hrests
    | some module =>
      refine .bind located_get fun cx hcx => .bind (located_modifyMacros fun s hs => ?_) fun _ _ =>
        .bind (located_restore (hstate module.1 module.2 rfl)) fun _ _ => .pure hrests
      refine ⟨hs.notations, fun entry he => ?_, hs.frames⟩
      rcases Dict.mem_entries_set he with he | he
      · exact hs.modules entry he
      · exact he ▸ hcx.registries.addedSince
  prepare _ _ _ _ hstate := .pure ⟨hstate, areRaised_nil⟩
  expand _ _ _ _ hstate := .pure ⟨hstate, located_nothing⟩
  beforeProcessing _ _ _ hstate := .pure hstate
  afterProcessing _ _ := .pure trivial

theorem locates_useInside : useInsideLifecycle.Locates P (Behaviour.Remembers P .useInside) where
  beforeContent m immediate hm := by
    refine .bind (located_findModule hm) fun found hfound => ?_
    cases found with
    | error messages => exact .pure ⟨fun _ h => (by cases h), hfound.1 messages rfl⟩
    | ok record =>
      refine .bind located_get fun cx hcx => ?_
      refine .bind (located_restore (hcx.registries.merge (hfound.2 record rfl))) fun _ _ => ?_
      refine .pure ⟨fun outer h => ?_, (areRaised_clashMessages hm _).ite⟩
      cases h
      exact hcx.registries
  afterContent state hstate := by
    have hrests : Behaviour.Remembers P .useInside (none : Option Registries) :=
      fun _ h => by cases h
    cases state with
    | none => exact .pure hrests
    | some outer => exact .bind (located_restore (hstate outer rfl)) fun _ _ => .pure hrests
  prepare _ _ _ _ hstate := .pure ⟨hstate, areRaised_nil⟩
  expand _ _ _ hm hstate := .pure ⟨hstate, hm.content⟩
  beforeProcessing _ _ _ hstate := .pure hstate
  afterProcessing _ _ := .pure trivial

theorem locates_useFromHere :
    useFromHereLifecycle.Locates P (Behaviour.Remembers P .useFromHere) where
  beforeContent _ _ _ := .pure ⟨fun _ h => (by cases h), areRaised_nil⟩
  afterContent _ hstate := .pure hstate
  prepare m state immediate hm hstate := by
    refine .bind (located_findModule hm) fun found hfound => ?_
    cases found with
    | error messages => exact .pure ⟨hstate, hfound.1 messages rfl⟩
    | ok record =>
      refine .bind located_get fun cx hcx => .pure ⟨fun merged h => ?_,
        areRaised_clashMessages hm _⟩
      cases h
      exact hcx.registries.merge (hfound.2 record rfl)
  expand m state immediate hm hstate := by
    have hrests : Behaviour.Remembers P .useFromHere (none : Option Registries) :=
      fun _ h => by cases h
    cases state with
    | none => exact .pure ⟨hrests, located_nothing⟩
    | some merged =>
      exact .bind (located_restore (hstate merged rfl)) fun _ _ => .pure ⟨hrests, located_nothing⟩
  beforeProcessing _ _ _ hstate := .pure hstate
  afterProcessing _ _ := .pure trivial

/-! ### Definitions, their uses, and slots -/

theorem Signature.areRaised_ofArguments {name : Argument} {others : List Argument}
    (h : ∀ a ∈ others, a.Located P) : AreRaised P (Signature.ofArguments name others).pending := by
  have hslot : AreRaised P (slotOf others).2 := by
    simp only [slotOf]
    split
    · exact areRaised_nil
    · rename_i last hlast
      split
      · exact areRaised_nil
      · exact areRaised_one rfl (h last (List.mem_of_getLast? hlast)).span
  refine hslot.append fun message hmessage => ?_
  obtain ⟨argument, hargument, rfl⟩ := List.mem_map.mp hmessage
  have htaken : ∀ (c : Prop) [Decidable c],
      argument ∈ (if c then others else others.dropLast) → argument ∈ others := by
    intro c _ hmem
    split at hmem
    · exact hmem
    · exact List.dropLast_subset _ hmem
  exact Message.raised rfl (h argument (htaken _ (List.mem_of_mem_filter hargument))).span

theorem located_prepare_define (kind : MacroKind) {m : Modifier} {state : Option Signature}
    {immediate : Bool} (hm : m.Located P) (hstate : Signature.Located P state) :
    Step.Upholds (.located P) (fun r => Signature.Located P r.1 ∧ AreRaised P r.2)
      ((defineLifecycle kind).prepare m state immediate) := by
  simp only [defineLifecycle]
  refine .ite (fun _ => .pure ⟨hstate, areRaised_nil⟩) fun _ => ?_
  cases state with
  | none => exact .pure ⟨hstate, areRaised_nil⟩
  | some signature =>
    obtain ⟨hpending, hbody⟩ := hstate signature rfl
    have hdone : Signature.Located P (some { signature with pending := [] }) := by
      intro made h
      cases h
      exact ⟨areRaised_nil, hbody⟩
    refine .ite (fun _ => .pure ⟨hdone, hpending.append (areRaised_one rfl hm.place)⟩) fun _ => ?_
    refine .bind located_get fun cx _ => ?_
    have htaken := hpending.append (@AreRaised.ite P
      ((cx.configuration.modifiers kind.modifierKind).has (signature.name.getD "") = true) _ _
      (areRaised_one (p := .nameTaken (signature.name.getD "")) rfl hm.place))
    cases kind with
    | block => exact .pure ⟨hdone, htaken⟩
    | inline =>
      obtain ⟨hnodes, hproblems⟩ := located_flattenInline false hm.content
      refine .pure ⟨fun made h => ?_, htaken.append hproblems⟩
      cases h
      refine ⟨areRaised_nil, fun body h => ?_⟩
      cases h
      exact hnodes

theorem located_expand_define (kind : MacroKind) {m : Modifier} {state : Option Signature}
    {immediate : Bool} (hm : m.Located P) (hstate : Signature.Located P state) :
    Step.Upholds (.located P)
      (fun d => Signature.Located P d.2 ∧ ∀ n ∈ d.1.nodes m, n.Located P)
      ((defineLifecycle kind).expand m state immediate) := by
  simp only [defineLifecycle]
  refine .ite (fun _ => .pure ⟨hstate, hm.content⟩) fun _ => ?_
  cases state with
  | none => exact .pure ⟨hstate, located_nothing⟩
  | some signature =>
    have hbody : ∀ n ∈ signature.body.getD m.content, n.Located P := by
      cases hb : signature.body with
      | none => exact hm.content
      | some body => exact (hstate signature rfl).2 body hb
    refine .ite (fun _ => ?_) fun _ => .pure ⟨hstate, located_nothing⟩
    exact .bind (.modify fun _ hcx => hcx.define hbody) fun _ _ => .pure ⟨hstate, located_nothing⟩

theorem locates_define (kind : MacroKind) :
    (defineLifecycle kind).Locates P (Signature.Located P) where
  beforeContent m immediate hm := by
    have harguments := hm.arguments
    have hnone : Signature.Located P none := fun _ h => by cases h
    simp only [defineLifecycle]
    split
    · exact .pure ⟨hnone, List.forall_mem_singleton.mpr (raised_checkCount? hm (by assumption))⟩
    split
    · rename_i name others hname
      rw [hname] at harguments
      refine .bind (located_modifyMacros fun s hs => hs.setDelayed) fun _ _ =>
        .pure ⟨fun signature h => ?_, areRaised_nil⟩
      cases h
      exact ⟨Signature.areRaised_ofArguments (List.forall_mem_cons.mp harguments).2,
        fun _ h => by cases h⟩
    · exact .pure ⟨hnone, areRaised_nil⟩
  afterContent state hstate := by
    cases state with
    | none => exact .pure hstate
    | some signature =>
      refine .bind located_macros fun s hs => ?_
      split
      · exact .bind (.throw trivial : Step.Upholds (.located P) (fun _ : PUnit => True) _)
          fun _ _ => .pure hstate
      · refine .ite (fun _ => ?_) fun _ => ?_
        · exact .bind (.throw trivial : Step.Upholds (.located P) (fun _ : PUnit => True) _)
            fun _ _ => .bind (located_modifyMacros fun s hs => hs.setDelayed) fun _ _ =>
              .pure hstate
        · exact .bind (located_modifyMacros fun s hs => hs.setDelayed) fun _ _ => .pure hstate
  prepare _ _ _ hm hstate := located_prepare_define kind hm hstate
  expand _ _ _ hm hstate := located_expand_define kind hm hstate
  beforeProcessing _ _ _ hstate := .pure hstate
  afterProcessing _ _ := .pure trivial

theorem locates_custom {kind : MacroKind} {name : String} {parameters : List String}
    {slotName : String} {body : List Node} (hbody : ∀ n ∈ body, n.Located P) :
    (customLifecycle kind name parameters slotName body).Locates P anyState where
  beforeContent _ _ _ := .pure ⟨trivial, areRaised_nil⟩
  afterContent _ _ := .pure trivial
  prepare m state immediate hm _ := by
    simp only [customLifecycle]
    split
    · exact .pure ⟨trivial,
        List.forall_mem_singleton.mpr (raised_checkArguments? hm (by assumption))⟩
    · exact .pure ⟨trivial, areRaised_nil⟩
  expand m state immediate hm _ :=
    .ite (fun _ => .pure ⟨trivial, located_nothing⟩) fun _ => .pure ⟨trivial, hbody⟩
  beforeProcessing m state hm _ := by
    cases state with
    | none => exact .pure trivial
    | some arguments =>
      refine .bind (located_modifyMacros fun s hs => hs.setFrames ?_) fun _ _ => .pure trivial
      exact List.forall_mem_cons.mpr ⟨hm.content, hs.frames kind⟩
  afterProcessing state _ := by
    refine .ite (fun _ => .bind located_macros fun s hs => ?_) fun _ => .pure trivial
    have hframes := hs.frames kind
    split
    · exact .throw trivial
    · rename_i frame outer houter
      rw [houter] at hframes
      refine .ite (fun _ => .bind (.throw trivial : Step.Upholds (.located P)
        (fun _ : PUnit => True) _) fun _ _ => ?_) fun _ => ?_
      · exact located_modifyMacros fun t ht => ht.setFrames (List.forall_mem_cons.mp hframes).2
      · exact located_modifyMacros fun t ht => ht.setFrames (List.forall_mem_cons.mp hframes).2

theorem SlotState.located_of_detached {outer : Nat} {detached : List Frame}
    (h : ∀ frame ∈ detached, ∀ n ∈ frame.content, n.Located P) :
    (SlotState.resolved outer detached).Located P := by
  intro outer' detached' heq
  cases heq
  exact h

/-- A slot is wrong at its head or at its argument. -/
theorem located_locateSlot {kind : MacroKind} {m : Modifier} {argument : Option Argument}
    {immediate : Bool} (hm : m.Located P) (ha : ∀ a, argument = some a → a.span.Located P) :
    Step.Upholds (.located P) (fun r => r.1.Located P ∧ AreRaised P r.2)
      (locateSlot kind m argument immediate) := by
  have hopen : SlotState.Located P .open := fun _ _ h => by cases h
  have hfailed : SlotState.Located P .failed := fun _ _ h => by cases h
  have hfound : ∀ outer, SlotState.Located P (.resolved outer []) :=
    fun _ => SlotState.located_of_detached (List.forall_mem_nil _)
  simp only [locateSlot]
  refine .bind located_macros fun s _ => .ite (fun _ => .ite (fun _ => ?_) fun _ => ?_) fun _ => ?_
  · exact .bind (located_lift fun _ h => .checked hm.span.start hm.head.stop h) fun _ hspan =>
      .pure ⟨hfailed, areRaised_one rfl hspan⟩
  · exact .pure ⟨hopen, areRaised_nil⟩
  refine .ite (fun _ => .pure ⟨hopen, areRaised_nil⟩) fun _ => ?_
  cases argument with
  | none => exact .pure ⟨hfound _, areRaised_nil⟩
  | some a =>
    simp only
    split
    · exact .pure ⟨hfound _, areRaised_nil⟩
    · exact .ite (fun _ => .pure ⟨hfailed, areRaised_one rfl (ha a rfl)⟩) fun _ =>
        .pure ⟨hopen, areRaised_nil⟩

theorem locates_slot (kind : MacroKind) : (slotLifecycle kind).Locates P (SlotState.Located P) where
  beforeContent _ _ _ := .pure ⟨fun _ _ h => (by cases h), areRaised_nil⟩
  afterContent _ hstate := .pure hstate
  prepare m state immediate hm _ := by
    have harguments := hm.arguments
    have hopen : SlotState.Located P .open := fun _ _ h => by cases h
    have hfailed : SlotState.Located P .failed := fun _ _ h => by cases h
    simp only [slotLifecycle]
    split
    · cases immediate with
      | true =>
        exact .pure ⟨hfailed, List.forall_mem_singleton.mpr (raised_checkCount? hm (by assumption))⟩
      | false => exact .pure ⟨hopen, areRaised_nil⟩
    split
    · exact located_locateSlot hm fun _ h => by cases h
    · rename_i a ha
      have hspan := (harguments a (List.mem_of_mem_head? ha)).span
      refine .ite (fun _ => .pure ⟨hopen, areRaised_nil⟩) fun _ => ?_
      refine .ite (fun _ => .pure ⟨hfailed, areRaised_one rfl hspan⟩) fun _ => ?_
      refine located_locateSlot hm fun a' h => ?_
      cases h
      exact hspan
  expand m state immediate hm hstate := by
    cases state with
    | «open» => exact .pure ⟨hstate, hm.content⟩
    | failed => exact .pure ⟨hstate, located_nothing⟩
    | resolved outer detached =>
      refine .bind located_macros fun s hs => ?_
      split
      · rename_i frame hframe
        refine .pure ⟨hstate, hs.frames kind frame ?_⟩
        exact List.mem_reverse.mp (List.mem_of_getElem? hframe)
      · exact .throw trivial
  beforeProcessing m state _ hstate := by
    cases state with
    | «open» => exact .pure hstate
    | failed => exact .pure hstate
    | resolved outer detached =>
      refine .bind located_macros fun s hs =>
        .bind (located_modifyMacros fun t ht => ht.setFrames ?_) fun _ _ =>
          .pure (SlotState.located_of_detached ?_)
      · exact fun frame hframe => hs.frames kind frame (List.mem_of_mem_drop hframe)
      · exact fun frame hframe => hs.frames kind frame (List.mem_of_mem_take hframe)
  afterProcessing state hstate := by
    cases state with
    | «open» => exact .pure trivial
    | failed => exact .pure trivial
    | resolved outer detached =>
      refine .bind located_macros fun s hs => ?_
      have hframes : ∀ frame ∈ detached ++ s.frames kind, ∀ n ∈ frame.content, n.Located P :=
        List.forall_mem_append.mpr ⟨hstate outer detached rfl, hs.frames kind⟩
      refine .ite (fun _ => .bind (.throw trivial : Step.Upholds (.located P)
        (fun _ : PUnit => True) _) fun _ _ => ?_) fun _ => ?_
      · exact located_modifyMacros fun t ht => ht.setFrames hframes
      · exact located_modifyMacros fun t ht => ht.setFrames hframes

/-- **At a located modifier nothing is done that is not located.** -/
theorem locates {d : Definition} (hd : d.Located P) :
    d.behaviour.lifecycle.Locates P (d.behaviour.Remembers P) := by
  obtain ⟨stamp, name, kind, slot, delaysContent, alwaysExpands, behaviour⟩ := d
  cases behaviour with
  | plain => exact locates_plain
  | unknown head => exact locates_unknown head
  | define kind => exact locates_define kind
  | slot kind => exact locates_slot kind
  | print => exact locates_print
  | raw => exact locates_raw
  | assign => exact locates_assign
  | reference => exact locates_reference
  | conditional expectDefined => exact locates_conditional expectDefined
  | pushNotation => exact locates_pushNotation
  | popNotation => exact locates_popNotation
  | recordModule => exact locates_module
  | useInside => exact locates_useInside
  | useFromHere => exact locates_useFromHere
  | custom kind name parameters slotName body => exact locates_custom hd

end MacroMarkup
