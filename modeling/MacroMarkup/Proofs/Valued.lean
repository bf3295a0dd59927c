import MacroMarkup.Proofs.Defining

/-!
# What is reported of arguments with values

Most behaviours ask for the values of their arguments, and report it if one has none.  They
report this for no other reason, and at a visit that is not immediate they do not report it.

* `NoneUnresolved`: none of the messages is about an argument without a value.
* `checkArguments?_eq_checkCount?`: if all arguments have values only their number can be wrong.
* `noneUnresolved_beforeContent`, `noneUnresolved_prepare`: **an argument without a value is
  reported only at an immediate visit of a modifier that has one.**
-/

namespace MacroMarkup

def NoneUnresolved (messages : List Message) : Prop :=
  ∀ message ∈ messages, message.About (· ≠ .unresolvedArgument)

section Messages

variable {messages messages' : List Message} {m : Modifier} {least : Nat} {most : Option Nat}
  {problem : Message}

theorem noneUnresolved_nil : NoneUnresolved [] := List.forall_mem_nil _

theorem noneUnresolved_one {p : Problem} {span : Span} (hp : p ≠ .unresolvedArgument) :
    NoneUnresolved [p.message span] :=
  List.forall_mem_singleton.mpr (Message.about_message (P := (· ≠ .unresolvedArgument)) hp span)

theorem noneUnresolved_of_about {P : Problem → Prop} (h : ∀ message ∈ messages, message.About P)
    (hp : ¬ P .unresolvedArgument) : NoneUnresolved messages :=
  fun message hmessage => (h message hmessage).mono fun _ hq heq => hp (heq ▸ hq)

theorem not_hasty_unresolvedArgument : ¬ Problem.Hasty .unresolvedArgument := by
  rintro (h | h) <;> cases h

theorem not_ofDefinition_unresolvedArgument : ¬ Problem.OfDefinition .unresolvedArgument := by
  rintro (h | ⟨name, h⟩ | h)
  · exact not_hasty_unresolvedArgument h
  · cases h
  · cases h

/-- If all arguments have values only their number can be wrong. -/
theorem checkArguments?_eq_checkCount? (hvalues : ∀ a ∈ m.arguments, a.value.isSome = true)
    (least : Nat) (most : Option Nat) :
    checkArguments? m least most = checkCount? m least most := by
  have hnone : m.arguments.find? (·.value.isNone) = none := by
    refine List.find?_eq_none.mpr fun a ha => ?_
    rw [Option.isNone_iff_eq_none]
    exact Option.isSome_iff_ne_none.mp (hvalues a ha)
  rw [checkArguments?, hnone]

theorem noneUnresolved_count (h : checkCount? m least most = some problem) :
    NoneUnresolved [problem] := by
  have hcount : ∀ p, some ((Problem.argumentCount least most).message m.head) = some p →
      NoneUnresolved [p] := by
    intro p hp
    cases hp
    exact noneUnresolved_one (by simp)
  simp only [checkCount?] at h
  split at h
  · exact hcount problem h
  · split at h
    · cases h
    · split at h
      · exact hcount problem h
      · cases h

theorem noneUnresolved_arguments (hvalues : ∀ a ∈ m.arguments, a.value.isSome = true)
    (h : checkArguments? m least most = some problem) : NoneUnresolved [problem] :=
  noneUnresolved_count (checkArguments?_eq_checkCount? hvalues least most ▸ h)

end Messages

/-! ### Immediate visits -/

section Immediate

variable {cx : Context} {m : Modifier}

/-- A module that is not found is not reported for want of a value. -/
theorem noneUnresolved_findModule (hvalues : ∀ a ∈ m.arguments, a.value.isSome = true) :
    Ensures anyFault (findModule m true) cx fun found _ =>
      ∀ messages, found = .error messages → NoneUnresolved messages := by
  have refused : ∀ {messages : List Message}, NoneUnresolved messages →
      ∀ messages', (Except.error messages : Except (List Message) ModuleRecord) = .error messages' →
        NoneUnresolved messages' := by
    rintro messages h _ ⟨⟩
    exact h
  simp only [findModule]
  split
  · exact refused (noneUnresolved_arguments hvalues (by assumption))
  split
  · rw [ensures_bind]
    refine ensures_of_forall fun macros _ => ?_
    split
    · exact refused (noneUnresolved_one (by simp))
    · rw [ensures_ite]
      exact ⟨fun _ => refused (noneUnresolved_one (by simp)), fun _ _ h => by cases h⟩
  · exact refused noneUnresolved_nil

theorem noneUnresolved_clashes (clashes : List String) :
    NoneUnresolved (clashMessages m clashes) := by
  rw [clashMessages]
  split
  · exact noneUnresolved_nil
  · exact noneUnresolved_one (by simp)

theorem noneUnresolved_beforeContent_module (hvalues : ∀ a ∈ m.arguments, a.value.isSome = true) :
    Ensures anyFault (moduleLifecycle.beforeContent m true) cx fun r _ => NoneUnresolved r.2 := by
  simp only [moduleLifecycle, Bool.not_true, Bool.false_eq_true, if_false]
  split
  · exact noneUnresolved_arguments hvalues (by assumption)
  split
  · rw [ensures_ite]
    refine ⟨fun _ => noneUnresolved_one (by simp), fun _ => ?_⟩
    rw [ensures_bind]
    refine ensures_of_forall fun macros _ => ?_
    rw [ensures_ite]
    refine ⟨fun _ => noneUnresolved_one (by simp), fun _ => ?_⟩
    simp only [ensures_bind, ensures_get]
    split
    · simp only [ensures_bind, ensures_pure]
      refine ensures_of_forall fun _ _ => ensures_of_forall fun _ _ => ?_
      exact noneUnresolved_clashes _
    · simp only [ensures_bind, ensures_pure]
      exact ensures_of_forall fun _ _ => noneUnresolved_nil
  · exact noneUnresolved_nil

theorem noneUnresolved_beforeContent_useInside
    (hvalues : ∀ a ∈ m.arguments, a.value.isSome = true) :
    Ensures anyFault (useInsideLifecycle.beforeContent m true) cx
      fun r _ => NoneUnresolved r.2 := by
  simp only [useInsideLifecycle, ensures_bind]
  refine (noneUnresolved_findModule hvalues).mono ?_
  intro found after hfound
  cases found with
  | error messages => exact hfound messages rfl
  | ok record =>
    simp only [ensures_bind, ensures_get]
    exact ensures_of_forall fun _ _ => noneUnresolved_clashes _

theorem noneUnresolved_beforeContent_define (kind : MacroKind) :
    Ensures anyFault ((defineLifecycle kind).beforeContent m true) cx
      fun r _ => NoneUnresolved r.2 := by
  simp only [defineLifecycle]
  split
  · exact noneUnresolved_count (by assumption)
  split
  · rw [ensures_bind]
    exact ensures_of_forall fun _ _ => noneUnresolved_nil
  · exact noneUnresolved_nil

theorem noneUnresolved_prepare_assign {state : Option (String × String)}
    (hvalues : ∀ a ∈ m.arguments, a.value.isSome = true) :
    Ensures anyFault (assignLifecycle.prepare m state true) cx fun r _ => NoneUnresolved r.2 := by
  simp only [assignLifecycle]
  split
  · exact noneUnresolved_arguments hvalues (by assumption)
  split
  · rw [ensures_ite]
    exact ⟨fun _ => noneUnresolved_one (by simp), fun _ => noneUnresolved_nil⟩
  · exact noneUnresolved_nil

theorem noneUnresolved_prepare_reference {state : Option String}
    (hvalues : ∀ a ∈ m.arguments, a.value.isSome = true) :
    Ensures anyFault (referenceLifecycle.prepare m state true) cx
      fun r _ => NoneUnresolved r.2 := by
  simp only [referenceLifecycle, if_true]
  split
  · exact noneUnresolved_arguments hvalues (by assumption)
  split
  · rw [ensures_ite]
    refine ⟨fun _ => noneUnresolved_one (by simp), fun _ => ?_⟩
    rw [ensures_bind]
    refine ensures_of_forall fun resolution _ => ?_
    cases resolution with
    | value text => exact noneUnresolved_nil
    | undefined => exact noneUnresolved_one (by simp)
    | deferred => exact noneUnresolved_one (by simp)
  · exact noneUnresolved_nil

theorem noneUnresolved_prepare_conditional {expectDefined : Bool} {state : Option Bool}
    (hvalues : ∀ a ∈ m.arguments, a.value.isSome = true) :
    Ensures anyFault ((conditionalLifecycle expectDefined).prepare m state true) cx
      fun r _ => NoneUnresolved r.2 := by
  simp only [conditionalLifecycle]
  split
  · exact noneUnresolved_arguments hvalues (by assumption)
  split
  · rw [ensures_ite]
    refine ⟨fun _ => noneUnresolved_one (by simp), fun _ => ?_⟩
    rw [ensures_bind]
    refine ensures_of_forall fun resolution _ => ?_
    cases resolution <;> exact noneUnresolved_nil
  · exact noneUnresolved_nil

theorem noneUnresolved_prepare_print {state : String}
    (hvalues : ∀ a ∈ m.arguments, a.value.isSome = true) :
    Ensures anyFault (printLifecycle.prepare m state true) cx fun r _ => NoneUnresolved r.2 := by
  simp only [printLifecycle]
  split
  · exact noneUnresolved_arguments hvalues (by assumption)
  · exact noneUnresolved_nil

theorem noneUnresolved_prepare_popNotation :
    Ensures anyFault (popNotationLifecycle.prepare m () true) cx
      fun r _ => NoneUnresolved r.2 := by
  simp only [popNotationLifecycle]
  rw [ensures_bind]
  refine ensures_of_forall fun macros _ => ?_
  split
  · exact noneUnresolved_one (by simp)
  · simp only [ensures_bind]
    exact ensures_of_forall fun _ _ => ensures_of_forall fun _ _ => noneUnresolved_nil

theorem noneUnresolved_prepare_useFromHere {state : Option Registries}
    (hvalues : ∀ a ∈ m.arguments, a.value.isSome = true) :
    Ensures anyFault (useFromHereLifecycle.prepare m state true) cx
      fun r _ => NoneUnresolved r.2 := by
  simp only [useFromHereLifecycle, ensures_bind]
  refine (noneUnresolved_findModule hvalues).mono ?_
  intro found after hfound
  cases found with
  | error messages => exact hfound messages rfl
  | ok record =>
    simp only [ensures_bind, ensures_get]
    exact noneUnresolved_clashes _

theorem noneUnresolved_locateSlot {kind : MacroKind} {argument : Option Argument} :
    Ensures anyFault (locateSlot kind m argument true) cx fun r _ => NoneUnresolved r.2 := by
  simp only [locateSlot, ensures_bind, if_true]
  refine ensures_of_forall fun macros _ => ?_
  rw [ensures_ite]
  refine ⟨fun _ => ?_, fun _ => ?_⟩
  · rw [ensures_bind]
    exact ensures_of_forall fun span _ => noneUnresolved_one (by simp)
  rw [ensures_ite]
  refine ⟨fun _ => noneUnresolved_nil, fun _ => ?_⟩
  split
  · exact noneUnresolved_nil
  split
  · exact noneUnresolved_nil
  · exact noneUnresolved_one (by simp)

theorem noneUnresolved_prepare_slot {kind : MacroKind} {state : SlotState} :
    Ensures anyFault ((slotLifecycle kind).prepare m state true) cx
      fun r _ => NoneUnresolved r.2 := by
  simp only [slotLifecycle, if_true, Bool.not_true, Bool.and_false, Bool.false_eq_true, if_false]
  split
  · exact noneUnresolved_count (by assumption)
  split
  · exact noneUnresolved_locateSlot
  · rw [ensures_ite]
    exact ⟨fun _ => noneUnresolved_one (by simp), fun _ => noneUnresolved_locateSlot⟩

theorem noneUnresolved_prepare_custom {kind : MacroKind} {name slotName : String}
    {parameters : List String} {body : List Node} {state : Option (Dict String)}
    (hvalues : ∀ a ∈ m.arguments, a.value.isSome = true) :
    Ensures anyFault ((customLifecycle kind name parameters slotName body).prepare m state true) cx
      fun r _ => NoneUnresolved r.2 := by
  simp only [customLifecycle]
  split
  · exact noneUnresolved_arguments hvalues (by assumption)
  · exact noneUnresolved_nil

end Immediate

/-! ### All visits -/

section Visits

variable {cx : Context} {s : MacroState} {m : Modifier} {b : Behaviour} {immediate : Bool}

/-- **Before its content a modifier is not reported for want of a value**, unless the visit is
immediate and an argument has none. -/
theorem noneUnresolved_beforeContent (hs : cx.macros = .ok s)
    (hvalues : immediate = true → ∀ a ∈ m.arguments, a.value.isSome = true) :
    Ensures anyFault (b.lifecycle.beforeContent m immediate) cx fun r _ => NoneUnresolved r.2 := by
  cases immediate with
  | false =>
    refine (returns b cx s m hs).mono fun r _ h => ?_
    rw [h.1]
    exact noneUnresolved_of_about (b.about_opensWith m) not_hasty_unresolvedArgument
  | true =>
    have hall := hvalues rfl
    cases b with
    | define kind => exact noneUnresolved_beforeContent_define kind
    | recordModule => exact noneUnresolved_beforeContent_module hall
    | useInside => exact noneUnresolved_beforeContent_useInside hall
    | _ => exact noneUnresolved_nil

/-- **When it is decided what it stands for a modifier is not reported for want of a value**,
unless the visit is immediate and an argument has none. -/
theorem noneUnresolved_prepare {plain : Prop} {state : b.lifecycle.State} (hs : cx.macros = .ok s)
    (hplaced : m.span.start ≤ m.head.stop) (hquotes : b.Quotes m.arguments state)
    (hahead : immediate = false → b.GoesAhead plain)
    (hvalues : immediate = true → ∀ a ∈ m.arguments, a.value.isSome = true) :
    Ensures anyFault (b.lifecycle.prepare m state immediate) cx fun r _ => NoneUnresolved r.2 := by
  cases immediate with
  | false =>
    refine (idles (hahead rfl) cx s m state hs hplaced).mono fun r _ h => ?_
    rw [h.2.1]
    exact noneUnresolved_of_about (b.about_triedWith m) not_hasty_unresolvedArgument
  | true =>
    have hall := hvalues rfl
    cases b with
    | define kind =>
      refine (ensures_prepare_define (Signature.Quotes.reads hquotes)).mono fun r _ h => ?_
      exact noneUnresolved_of_about h.2.2 not_ofDefinition_unresolvedArgument
    | slot kind => exact noneUnresolved_prepare_slot
    | print => exact noneUnresolved_prepare_print hall
    | assign => exact noneUnresolved_prepare_assign hall
    | reference => exact noneUnresolved_prepare_reference hall
    | conditional expectDefined => exact noneUnresolved_prepare_conditional hall
    | popNotation => exact noneUnresolved_prepare_popNotation
    | useFromHere => exact noneUnresolved_prepare_useFromHere hall
    | custom kind name parameters slotName body => exact noneUnresolved_prepare_custom hall
    | _ => exact noneUnresolved_nil

end Visits

end MacroMarkup
