import MacroMarkup.Proofs.Walk

/-!
# Walking settled nodes

Nodes in which nothing waits are not changed by another walk, and neither is anything else:
the walk can only find that they are nested too deep, and count that.

* `Engine.Refuses`: the second engine differs from the first by refusals only.
* `steady_process`: a walk over settled nodes answers them, and only refuses.
-/

namespace MacroMarkup

/-- The second engine differs from the first by refusals only; a walk that ends so is
complete if there are none. -/
structure Engine.Refuses (e : Engine) (complete : Bool) (e' : Engine) : Prop where
  same : e' = { e with refusals := e'.refusals, losses := e'.losses }
  le : e.refusals ≤ e'.refusals
  complete : e'.refusals = e.refusals → complete = true ∧ e'.losses = e.losses

namespace Engine

variable {e e' e'' : Engine} {complete complete' : Bool}

theorem Refuses.refl (e : Engine) : e.Refuses true e :=
  ⟨rfl, Nat.le_refl _, fun _ => ⟨rfl, rfl⟩⟩

theorem Refuses.trans (h : e.Refuses complete e') (g : e'.Refuses complete' e'') :
    e.Refuses (complete' && complete) e'' := by
  have hle := h.le
  have hle' := g.le
  refine ⟨?_, by omega, fun hsame => ?_⟩
  · rw [g.same, h.same]
  · obtain ⟨hcomplete, hlosses⟩ := h.complete (by omega)
    obtain ⟨hcomplete', hlosses'⟩ := g.complete (by omega)
    exact ⟨by rw [hcomplete, hcomplete']; rfl, hlosses'.trans hlosses⟩

/-- The flag of an earlier walk may be forgotten. -/
theorem Refuses.after (h : e.Refuses complete e') (g : e'.Refuses complete' e'') :
    e.Refuses complete' e'' := by
  have htrans := h.trans g
  refine ⟨htrans.same, htrans.le, fun hsame => ?_⟩
  obtain ⟨hcomplete, hlosses⟩ := htrans.complete hsame
  exact ⟨(Bool.and_eq_true_iff.mp hcomplete).1, hlosses⟩

theorem Refuses.eq (h : e.Refuses complete e') (hsame : e'.refusals = e.refusals) : e' = e := by
  rw [h.same, hsame, (h.complete hsame).2]

end Engine

theorem expandArguments_of_values {arguments : List Argument}
    (h : ∀ a ∈ arguments, a.value.isSome = true) (e : Engine) :
    expandArguments arguments e = .ok (arguments, e) := by
  induction arguments with
  | nil => rfl
  | cons argument rest ih =>
    obtain ⟨span, content, value⟩ := argument
    have hrest := ih fun a ha => h a (List.mem_cons_of_mem _ ha)
    cases value with
    | none => exact absurd (h _ List.mem_cons_self) Bool.false_ne_true
    | some value =>
      rw [expandArguments, expandArgument]
      show Except.bind (expandArguments rest e) _ = _
      rw [hrest]
      rfl

/-- A walk over settled nodes answers them, and only refuses. -/
def Walk.Steady (E : List Node → Prop) (walk : Walk) : Prop :=
  ∀ (e : Engine) (nodes : List Node), (∀ n ∈ nodes, n.Settled E) →
    Ensures noFault (walk nodes) e fun r e' => r.1 = nodes ∧ e.Refuses r.2 e'

section Steady

variable {E : List Node → Prop} {walk : Walk}

/-- What a modifier stands for, if nothing is done before and behind it. -/
theorem steady_processNodes (hw : walk.Steady E) (outermost : Bool) {m : Modifier} {e : Engine}
    {state : m.definition.behaviour.lifecycle.State}
    (hb : m.definition.behaviour.lifecycle.beforeProcessing = fun _ state => pure state)
    (ha : m.definition.behaviour.lifecycle.afterProcessing = fun _ => pure ())
    {nodes : List Node} (hnodes : ∀ n ∈ nodes, n.Settled E) :
    Ensures noFault (processNodes walk outermost m state nodes) e fun r e' =>
      r.1 = nodes ∧ (outermost = false → e.Refuses r.2 e') ∧
        (e'.refusals = e.refusals → e' = e) := by
  rw [ensures_processNodes_iff]
  refine ⟨fun hempty => ⟨(List.isEmpty_iff.mp hempty).symm, fun _ => .refl e, fun _ => rfl⟩,
    fun _ => ?_⟩
  simp only [hb, ha, ensures_inContext, ensures_pure]
  refine (hw _ nodes hnodes).mono ?_
  intro answer later hanswer
  obtain ⟨nodes', complete⟩ := answer
  obtain ⟨rfl, hrefuses⟩ := hanswer
  obtain ⟨refusals, losses, rfl⟩ : ∃ refusals losses, later = { e with
      referring := m.span :: e.referring, refusals := refusals, losses := losses } :=
    ⟨later.refusals, later.losses, hrefuses.same⟩
  have hback : e.Refuses complete { e with refusals := refusals, losses := losses } :=
    ⟨rfl, hrefuses.le, hrefuses.complete⟩
  rw [ensures_leaveReplacement rfl]
  refine ⟨fun hreport => ?_, fun _ => ⟨rfl, fun _ => hback, hback.eq⟩⟩
  simp only [Bool.and_eq_true, Bool.not_eq_true'] at hreport
  refine ⟨rfl, fun hinner => ?_, fun hsame => ?_⟩
  · rw [hreport.2] at hinner
    cases hinner
  · have hcomplete := (hback.complete hsame).1
    rw [hreport.1] at hcomplete
    cases hcomplete

theorem steady_walkContent (hw : walk.Steady E) {m : Modifier} {e : Engine}
    (hcontent : ∀ n ∈ m.content, n.Settled E) :
    Ensures noFault (walkContent walk m) e fun content e' =>
      content = m.content ∧ ∃ complete, e.Refuses complete e' := by
  rw [ensures_walkContent_iff]
  refine ⟨fun hempty => ⟨(List.isEmpty_iff.mp hempty).symm, true, .refl e⟩,
    fun _ => (hw _ m.content hcontent).mono ?_⟩
  intro answer later hanswer
  obtain ⟨content, complete⟩ := answer
  obtain ⟨rfl, hrefuses⟩ := hanswer
  obtain ⟨refusals, losses, rfl⟩ : ∃ refusals losses, later = { e with
      delayDepth := e.delayDepth + m.definition.delaysContent.toNat
      refusals := refusals
      losses := losses } :=
    ⟨later.refusals, later.losses, hrefuses.same⟩
  have hback : e.Refuses complete { e with refusals := refusals, losses := losses } :=
    ⟨rfl, hrefuses.le, hrefuses.complete⟩
  simp only [Nat.add_sub_cancel]
  refine ⟨fun hincomplete => ⟨trivial, complete, rfl, hback.le, fun hsame => ?_⟩,
    fun _ => ⟨trivial, complete, hback⟩⟩
  have hcomplete := (hback.complete hsame).1
  rw [hcomplete] at hincomplete
  cases hincomplete

theorem steady_finishPlain (hw : walk.Steady E) {span head : Span} {stamp : Nat} {name : String}
    {kind : ModifierKind} {slot : SlotType} {delaysContent alwaysExpands : Bool}
    {arguments : List Argument} {content : List Node} {e : Engine}
    (hcontent : ∀ n ∈ content, n.Settled E) :
    let m : Modifier := ⟨span, head, ⟨stamp, name, kind, slot, delaysContent, alwaysExpands,
      .plain⟩, arguments, content, none⟩
    Ensures noFault (finishModifier walk false m ()) e fun r e' => r.1 = m ∧ e.Refuses r.2 e' := by
  intro m
  have hprepare : m.definition.behaviour.lifecycle.prepare =
    fun _ state _ => pure (state, []) := rfl
  have hexpand : m.definition.behaviour.lifecycle.expand =
      fun _ state _ => pure (.keep, state) := rfl
  refine ensures_finishModifier_iff.mpr ?_
  simp only [hprepare, hexpand, ensures_reporting, ensures_inContext, ensures_pure,
    Engine.emit_nil]
  refine (steady_processNodes (m := m) hw false rfl rfl hcontent).mono ?_
  intro answer e' hanswer
  obtain ⟨content', complete⟩ := answer
  obtain ⟨rfl, hrefuses, -⟩ := hanswer
  exact ⟨rfl, hrefuses rfl⟩

theorem steady_plain (hw : walk.Steady E) {m : Modifier} {e : Engine} (hwaits : m.expansion = none)
    (hplain : m.definition.behaviour = .plain)
    (hvalues : ∀ a ∈ m.arguments, a.value.isSome = true)
    (hcontent : ∀ n ∈ m.content, n.Settled E) :
    Ensures noFault (expandGenerated walk m) e fun r e' => r.1 = m ∧ e.Refuses r.2 e' := by
  obtain ⟨span, head, definition, arguments, content, expansion⟩ := m
  obtain ⟨stamp, name, kind, slot, delaysContent, alwaysExpands, behaviour⟩ := definition
  cases hwaits
  cases hplain
  refine ensures_expandGenerated_iff.mpr ⟨fun hsome => absurd hsome Bool.false_ne_true,
    fun _ => ?_⟩
  rw [ensures_of_eq (expandArguments_of_values hvalues e)]
  refine ⟨fun _ => ⟨rfl, .refl e⟩, fun _ => ?_⟩
  have hbefore : Behaviour.plain.lifecycle.beforeContent =
      fun _ _ => pure (Behaviour.plain.lifecycle.idle, []) := rfl
  have hafter : Behaviour.plain.lifecycle.afterContent = pure := rfl
  simp only [ensures_reporting, ensures_inContext, hbefore, hafter, ensures_pure, Engine.emit_nil]
  refine (steady_walkContent (e := e) hw hcontent).mono ?_
  intro content' between hanswer
  obtain ⟨rfl, complete, hrefuses⟩ := hanswer
  refine (steady_finishPlain hw hcontent).mono ?_
  intro answer e' hanswer
  obtain ⟨m, complete'⟩ := answer
  obtain ⟨rfl, hrefuses'⟩ := hanswer
  exact ⟨rfl, hrefuses.after hrefuses'⟩

theorem steady_processNode (hw : walk.Steady E) {node : Node} (hnode : node.Settled E)
    (e : Engine) :
    Ensures noFault (processNode walk node) e fun r e' => r.1 = node ∧ e.Refuses r.2 e' := by
  cases hnode with
  | leaf hleaf =>
    cases node with
    | paragraph _ _ => cases hleaf
    | modifier _ => cases hleaf
    | _ => exact ⟨rfl, .refl e⟩
  | @paragraph span content hcontent =>
    rw [ensures_processNode_paragraph]
    refine (hw e content hcontent).mono ?_
    intro answer e' hanswer
    obtain ⟨content', complete⟩ := answer
    obtain ⟨rfl, hrefuses⟩ := hanswer
    exact ⟨rfl, hrefuses⟩
  | @plain m hwaits hplain hvalues hcontent =>
    rw [ensures_processNode_modifier]
    refine (steady_plain hw hwaits hplain hvalues hcontent).mono ?_
    intro answer e' hanswer
    obtain ⟨m', complete⟩ := answer
    obtain ⟨rfl, hrefuses⟩ := hanswer
    exact ⟨rfl, hrefuses⟩
  | @expanded m nodes hexpanded _ =>
    rw [ensures_processNode_modifier, ensures_expandGenerated_iff, hexpanded]
    exact ⟨fun _ => ⟨rfl, .refl e⟩, fun hnone => absurd rfl hnone⟩

theorem steady_processEach (hw : walk.Steady E) : Walk.Steady E (processEach walk) := by
  intro e nodes
  induction nodes generalizing e with
  | nil => exact fun _ => ⟨rfl, .refl e⟩
  | cons node rest ih =>
    intro hnodes
    rw [ensures_processEach_cons]
    refine (steady_processNode hw (hnodes node List.mem_cons_self) e).mono ?_
    intro answer e' hanswer
    obtain ⟨node', complete⟩ := answer
    obtain ⟨rfl, hrefuses⟩ := hanswer
    refine (ih e' fun n hn => hnodes n (List.mem_cons_of_mem _ hn)).mono ?_
    intro answer e'' hanswer
    obtain ⟨rest', others⟩ := answer
    obtain ⟨rfl, hrefuses'⟩ := hanswer
    exact ⟨rfl, hrefuses.trans hrefuses'⟩

/-- **A walk over settled nodes changes nothing**; it can only find that they are nested too
deep. -/
theorem steady_process (levels : Nat) : Walk.Steady E (process levels) := by
  induction levels with
  | zero =>
    intro e nodes _
    refine ⟨rfl, rfl, Nat.le_succ _, fun hsame => ?_⟩
    exact absurd hsame (Nat.succ_ne_self _)
  | succ levels ih => exact steady_processEach ih

end Steady

end MacroMarkup
