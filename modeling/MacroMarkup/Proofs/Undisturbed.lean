import MacroMarkup.Proofs.Evaluation

/-!
# Expansion leaves alone what was read

A modifier that is expanded gets values for its arguments and nodes that it stands for.
Where it lies in the source does not change, nor does what lies in it, however deep the walk
goes and wherever it ends.

* `Likeness`: a relation of nodes that does not mind values and nodes that are added.
  `Likeness.stays`: nodes stay where they are.
* `Walk.Undisturbing`: every node of a list stays alike as a walk passes over it.
* `undisturbing_process`: every walk is such, for every likeness.
* `ensures_expandRead_alike`: the law of a modifier that was read.
-/

namespace MacroMarkup

/-- A relation of a node before and after a walk.  It does not mind if arguments get values and
modifiers get nodes to stand for. -/
structure Likeness where
  Like : Node → Node → Prop
  refl : ∀ n, Like n n
  trans : ∀ {n n' n''}, Like n n' → Like n' n'' → Like n n''
  paragraph : ∀ {span nodes nodes'}, nodes.Forall₂ Like nodes' →
    Like (.paragraph span nodes) (.paragraph span nodes')
  modifier : ∀ {m m' : Modifier}, m'.span = m.span → m'.head = m.head →
    m'.definition = m.definition → m.arguments.Forall₂ Argument.Stays m'.arguments →
    m.content.Forall₂ Like m'.content → (m.expansion = none ∨ m'.expansion = m.expansion) →
    Like (.modifier m) (.modifier m')

def Likeness.stays : Likeness where
  Like := Node.Stays
  refl := .refl
  trans := .trans
  paragraph := .paragraph
  modifier hspan hhead _ harguments hcontent _ := .modifier hspan hhead harguments hcontent

theorem Likeness.forall₂_refl (L : Likeness) (nodes : List Node) : nodes.Forall₂ L.Like nodes :=
  List.forall₂_same.mpr fun n _ => L.refl n

def Walk.Undisturbing (L : Likeness) (walk : Walk) : Prop :=
  ∀ (nodes : List Node) (e : Engine),
    Ensures anyFault (walk nodes) e fun r _ => nodes.Forall₂ L.Like r.1

section Modifiers

variable {L : Likeness} {walk : Walk} {e : Engine} {m : Modifier}

theorem ensures_processNodes_alike (hw : walk.Undisturbing L) (outermost : Bool)
    {state : m.definition.behaviour.lifecycle.State} {nodes : List Node} :
    Ensures anyFault (processNodes walk outermost m state nodes) e fun r _ =>
      nodes.Forall₂ L.Like r.1 := by
  rw [ensures_processNodes_iff]
  refine ⟨fun hempty => ?_, fun _ => ?_⟩
  · rw [List.isEmpty_iff.mp hempty]
    exact .nil
  refine ensures_of_forall fun _ e₁ => (hw nodes _).mono ?_
  intro r e₂ hlike
  exact ensures_of_forall fun _ e₃ => ensures_of_forall fun _ e₄ => ⟨fun _ => hlike, fun _ => hlike⟩

theorem ensures_finishModifier_alike (hw : walk.Undisturbing L) (outermost : Bool)
    {state : m.definition.behaviour.lifecycle.State} (hwaits : m.expansion = none) :
    Ensures anyFault (finishModifier walk outermost m state) e fun r _ =>
      L.Like (.modifier m) (.modifier r.1) := by
  have harguments : m.arguments.Forall₂ Argument.Stays m.arguments :=
    List.forall₂_same.mpr fun a _ => .refl a
  rw [ensures_finishModifier_iff]
  refine ensures_of_forall fun prepared e₁ => ensures_of_forall fun decided e₂ => ?_
  obtain ⟨outcome, state⟩ := decided
  cases outcome with
  | defer => exact L.refl _
  | keep =>
    refine (ensures_processNodes_alike hw outermost).mono ?_
    exact fun _ _ hcontent => L.modifier rfl rfl rfl harguments hcontent (.inl hwaits)
  | replace nodes =>
    have hlike : ∀ nodes' : List Node,
        L.Like (.modifier m) (.modifier { m with expansion := some nodes' }) :=
      fun _ => L.modifier rfl rfl rfl harguments (L.forall₂_refl _) (.inl hwaits)
    exact ensures_of_forall fun answer e₃ => ⟨fun _ => hlike _, fun _ => hlike _⟩

/-- **A modifier that was read stays alike** as it is expanded. -/
theorem ensures_expandRead_alike (hw : walk.Undisturbing L)
    {state : m.definition.behaviour.lifecycle.State} (hwaits : m.expansion = none) :
    Ensures anyFault (expandRead walk m state) e fun r _ =>
      L.Like (.modifier m) (.modifier r.1) :=
  ensures_expandRead_iff.mpr
    ⟨fun _ => L.refl _, fun _ => ensures_finishModifier_alike hw true hwaits⟩

theorem ensures_walkContent_alike (hw : walk.Undisturbing L) :
    Ensures anyFault (walkContent walk m) e fun content _ =>
      m.content.Forall₂ L.Like content := by
  rw [ensures_walkContent_iff]
  refine ⟨fun hempty => ?_, fun _ => (hw m.content _).mono ?_⟩
  · rw [List.isEmpty_iff.mp hempty]
    exact .nil
  · intro answer e' hlike
    exact ⟨fun _ => hlike, fun _ => hlike⟩

theorem ensures_expandGenerated_alike (hw : walk.Undisturbing L) :
    Ensures anyFault (expandGenerated walk m) e fun r _ =>
      L.Like (.modifier m) (.modifier r.1) := by
  rw [ensures_expandGenerated_iff]
  refine ⟨fun _ => L.refl _, fun hnone => ?_⟩
  have hwaits : m.expansion = none := by simpa using hnone
  refine (ensures_expandArguments m.arguments e fun _ _ => trivial).mono ?_
  intro arguments e₁ hanswer
  obtain ⟨-, harguments, -⟩ := hanswer
  have hlike : ∀ content, m.content.Forall₂ L.Like content → L.Like (.modifier m)
      (.modifier { m with arguments := arguments, content := content }) :=
    fun _ hcontent => L.modifier rfl rfl rfl harguments hcontent (.inl hwaits)
  refine ⟨fun _ => hlike m.content (L.forall₂_refl _), fun _ => ?_⟩
  refine ensures_of_forall fun state e₂ => ?_
  refine (ensures_walkContent_alike (m := { m with arguments := arguments }) hw).mono ?_
  intro content e₃ hcontent
  refine ensures_of_forall fun state e₄ => ?_
  refine (ensures_finishModifier_alike
    (m := { m with arguments := arguments, content := content }) hw false hwaits).mono ?_
  exact fun r e' hfinished => L.trans (hlike content hcontent) hfinished

end Modifiers

theorem undisturbing_processEach {L : Likeness} {walk : Walk} (hw : walk.Undisturbing L) :
    Walk.Undisturbing L (processEach walk) := by
  intro nodes
  induction nodes with
  | nil => exact fun e => .nil
  | cons node rest ih =>
    intro e
    have hnode : Ensures anyFault (processNode walk node) e fun r _ => L.Like node r.1 := by
      cases node with
      | paragraph span content =>
        exact ensures_processNode_paragraph.mpr ((hw content e).mono fun _ _ h => L.paragraph h)
      | modifier m => exact ensures_processNode_modifier.mpr (ensures_expandGenerated_alike hw)
      | text _ _ => exact L.refl _
      | escaped _ _ => exact L.refl _
      | preformatted _ _ _ => exact L.refl _
    rw [ensures_processEach_cons]
    refine hnode.mono ?_
    intro answer e₁ hlike
    exact (ih e₁).mono fun _ _ hrest => .cons hlike hrest

/-- **Every walk leaves all nodes like what they were**, with what lies in them. -/
theorem undisturbing_process (L : Likeness) (levels : Nat) :
    Walk.Undisturbing L (process levels) := by
  induction levels with
  | zero => exact fun nodes e => L.forall₂_refl nodes
  | succ levels ih => exact undisturbing_processEach ih

end MacroMarkup
