import MacroMarkup.Proofs.Hooks

/-!
# Visits that are final

A visit is final when it is immediate and no definition is being read.  Then every name is
bound or not, every slot has its invocation or none, and so each modifier can decide what it
stands for.

* `Lifecycle.Decides`: a final visit defers nothing, and only what always stays is kept.
* `Lifecycle.OpensNothing`: the point before the content starts no definition.
* `decides`, `opensNothing`: which behaviours have these laws.
-/

namespace MacroMarkup

theorem ensures_of_forall {σ α : Type} {x : StateT σ (Except Fault) α} {s : σ}
    {post : α → σ → Prop} (h : ∀ a s', post a s') : Ensures anyFault x s post :=
  ensures_iff.mpr ⟨fun a s' _ => h a s', fun _ _ => trivial⟩

def Outcome.IsDecided (stays : Prop) : Outcome → Prop
  | .keep => stays
  | .defer => False
  | .replace _ => True

namespace Lifecycle

/-- A final visit decides what a modifier stands for, and keeps it only if it always
stays. -/
def Decides (life : Lifecycle) (stays : Prop) : Prop :=
  ∀ (cx : Context) (m : Modifier) (state : life.State), cx.NothingDelayed →
    m.span.start ≤ m.head.stop →
    Ensures anyFault (life.prepare m state true) cx fun r between =>
      Ensures anyFault (life.expand m r.1 true) between fun d _ => d.1.IsDecided stays

/-- If no definition is being read, none is being read in the content either. -/
def OpensNothing (life : Lifecycle) : Prop :=
  ∀ (S : Stock) (cx : Context) (m : Modifier) (immediate : Bool), cx.Stores S →
    cx.NothingDelayed →
    Ensures anyFault (life.beforeContent m immediate) cx fun _ inside => inside.NothingDelayed

variable {life : Lifecycle} {stays : Prop}

/-- What an immediate visit decides in every state, a final one decides. -/
theorem Decides.of_expand (h : ∀ (cx : Context) (m : Modifier) (state : life.State),
      Ensures anyFault (life.expand m state true) cx fun d _ => d.1.IsDecided stays) :
    life.Decides stays :=
  fun _ m _ _ _ => ensures_of_forall fun r between => h between m r.1

theorem OpensNothing.of_default (hb : life.beforeContent = fun _ _ => pure (life.idle, [])) :
    life.OpensNothing := by
  intro S cx m immediate _ hnone
  rw [hb]
  exact hnone

end Lifecycle

/-! ### Deciding -/

theorem decides_slot (kind : MacroKind) {stays : Prop} : (slotLifecycle kind).Decides stays := by
  intro cx m state hnone hplaced
  obtain ⟨s, hs, hdelayed⟩ := hnone
  refine ((ensures_prepare_slot hs hplaced).allow fun _ _ => trivial).mono ?_
  intro answer between hanswer
  obtain ⟨state, messages⟩ := answer
  obtain ⟨rfl, hwithin, hopen⟩ := hanswer
  cases state with
  | «open» => exact absurd rfl (hopen rfl (hdelayed kind))
  | failed => exact trivial
  | resolved outer detached =>
    obtain ⟨frame, -, hframe⟩ := frameInside?_of_lt (hwithin outer detached rfl)
    simp only [slotLifecycle, ensures_bind, ensures_macros hs, hframe, ensures_pure,
      Outcome.IsDecided]

theorem decides_define (kind : MacroKind) {stays : Prop} :
    (defineLifecycle kind).Decides stays := by
  refine .of_expand fun cx m state => ?_
  cases state with
  | none => exact trivial
  | some signature =>
    simp only [defineLifecycle, Bool.not_true, Bool.false_eq_true, if_false]
    split
    · exact trivial
    · exact trivial

theorem decides_useFromHere {stays : Prop} : useFromHereLifecycle.Decides stays := by
  refine .of_expand fun cx m state => ?_
  cases state with
  | none => exact trivial
  | some registries => exact trivial

theorem decides_assign {stays : Prop} : assignLifecycle.Decides stays := by
  refine .of_expand fun cx m state => ?_
  cases state with
  | none => exact trivial
  | some binding => exact trivial

theorem decides_reference {stays : Prop} : referenceLifecycle.Decides stays := by
  refine .of_expand fun cx m state => ?_
  cases state with
  | none => exact trivial
  | some text => exact trivial

theorem decides_conditional (expectDefined : Bool) {stays : Prop} :
    (conditionalLifecycle expectDefined).Decides stays := by
  refine .of_expand fun cx m state => ?_
  simp only [conditionalLifecycle, ensures_ite]
  exact ⟨fun _ => trivial, fun _ => trivial⟩

theorem decides_print {stays : Prop} : printLifecycle.Decides stays := by
  refine .of_expand fun cx m state => ?_
  simp only [printLifecycle, ensures_ite]
  exact ⟨fun _ => trivial, fun _ => trivial⟩

theorem decides_pushNotation {stays : Prop} : pushNotationLifecycle.Decides stays := by
  refine .of_expand fun cx m state => ?_
  simp only [pushNotationLifecycle, ensures_bind]
  exact ensures_of_forall fun _ _ => ensures_of_forall fun _ _ => trivial

theorem decides_custom {kind : MacroKind} {name slotName : String} {parameters : List String}
    {body : List Node} {stays : Prop} :
    (customLifecycle kind name parameters slotName body).Decides stays := by
  refine .of_expand fun cx m state => ?_
  simp only [customLifecycle, ensures_ite]
  exact ⟨fun _ => trivial, fun _ => trivial⟩

/-- **A final visit decides**, and keeps nothing but plain modifiers. -/
theorem decides (b : Behaviour) : b.lifecycle.Decides (b = .plain) := by
  cases b with
  | plain => exact .of_expand fun _ _ _ => rfl
  | unknown head => exact .of_expand fun _ _ _ => trivial
  | define kind => exact decides_define kind
  | slot kind => exact decides_slot kind
  | print => exact decides_print
  | raw => exact .of_expand fun _ _ _ => trivial
  | assign => exact decides_assign
  | reference => exact decides_reference
  | conditional expectDefined => exact decides_conditional expectDefined
  | pushNotation => exact decides_pushNotation
  | popNotation => exact .of_expand fun _ _ _ => trivial
  | recordModule => exact .of_expand fun _ _ _ => trivial
  | useInside => exact .of_expand fun _ _ _ => trivial
  | useFromHere => exact decides_useFromHere
  | custom kind name parameters slotName body => exact decides_custom

/-! ### Opening -/

theorem opensNothing_useInside : useInsideLifecycle.OpensNothing := by
  intro S cx m immediate hcx hnone
  simp only [useInsideLifecycle, ensures_bind]
  refine ((ensures_findModule hcx).allow fun _ _ => trivial).mono ?_
  intro found after hanswer
  obtain ⟨rfl, -⟩ := hanswer
  cases found with
  | error messages => exact hnone
  | ok record => exact hnone

theorem opensNothing_module : moduleLifecycle.OpensNothing := by
  intro S cx m immediate hcx hnone
  obtain ⟨s, hs, -⟩ := hcx.macros
  have noted : ∀ (cx' : Context) (name : String),
      (cx'.withMacros { s with insideModule := some name }).NothingDelayed := by
    intro cx' name
    exact hnone.withMacros hs fun kind => by cases kind <;> rfl
  simp only [moduleLifecycle]
  split
  · exact hnone
  · split
    · exact hnone
    · split
      · split
        · exact hnone
        · rw [ensures_bind, ensures_macros hs]
          split
          · exact hnone
          · rw [ensures_bind, ensures_get]
            split
            · rename_i record _
              have hs' : (cx.restore (cx.registries.merge false record).1).macros = .ok s := hs
              simp only [Step.restore, ensures_bind, ensures_modify, ensures_pure,
                ensures_modifyMacros hs']
              exact noted _ _
            · simp only [ensures_bind, ensures_pure, ensures_modifyMacros hs]
              exact noted _ _
      · exact hnone

/-- **Only a definition starts a definition.** -/
theorem opensNothing {b : Behaviour} (h : ∀ kind, b ≠ .define kind) :
    b.lifecycle.OpensNothing := by
  cases b with
  | define kind => exact absurd rfl (h kind)
  | recordModule => exact opensNothing_module
  | useInside => exact opensNothing_useInside
  | plain => exact .of_default rfl
  | unknown head => exact .of_default rfl
  | slot kind => exact .of_default rfl
  | print => exact .of_default rfl
  | raw => exact .of_default rfl
  | assign => exact .of_default rfl
  | reference => exact .of_default rfl
  | conditional expectDefined => exact .of_default rfl
  | pushNotation => exact .of_default rfl
  | popNotation => exact .of_default rfl
  | useFromHere => exact .of_default rfl
  | custom kind name parameters slotName body => exact .of_default rfl

end MacroMarkup
