import MacroMarkup.Proofs.Reading

/-!
# How deep plain modifiers may nest

A plain modifier stays in the tree with its content, and this content is walked as generated
content is.  So the limit on how deep generated content may nest is met by plain modifiers and
paragraphs alone, with nothing generated at all.

* `arePlain`: the nodes hold no modifiers but plain ones.
* `levelsOf`: how many levels a walk over the nodes needs.
* `limitReports`: the plain modifiers at which a parse reports that the limit was met.
* `measures_process`: a walk over plain nodes is complete if it has the levels that it needs,
  and reports no limit itself.
* `plain_limit_messages`: **where the limit is reported in a source of plain modifiers.**
-/

namespace MacroMarkup

mutual

def Node.isPlain : Node → Bool
  | .paragraph _ content => arePlain content
  | .preformatted _ _ _ => true
  | .text _ _ => true
  | .escaped _ _ => true
  | .modifier ⟨_, _, definition, _, content, _⟩ => definition.isPlain && arePlain content

def arePlain : List Node → Bool
  | [] => true
  | node :: rest => node.isPlain && arePlain rest

end

mutual

/-- How many levels a walk needs below the node. -/
def Node.levels (immediate : Bool) : Node → Nat
  | .paragraph _ content => levelsOf immediate content
  | .preformatted _ _ _ => 0
  | .text _ _ => 0
  | .escaped _ _ => 0
  | .modifier ⟨_, _, definition, _, content, _⟩ =>
    if !content.isEmpty && (immediate || definition.alwaysExpands) then levelsOf immediate content
    else 0

def levelsOf (immediate : Bool) : List Node → Nat
  | [] => 1
  | node :: rest => max (node.levels immediate + 1) (levelsOf immediate rest)

end

mutual

/-- What a parse under the limit reports for the plain modifiers in the node: those are too deep
whose content needs more levels than a modifier from the source has. -/
def Node.limitReports (limit : Nat) (immediate : Bool) : Node → List Message
  | .paragraph _ content => limitReports limit immediate content
  | .preformatted _ _ _ => []
  | .text _ _ => []
  | .escaped _ _ => []
  | .modifier ⟨span, _, definition, _, content, _⟩ =>
    limitReports limit (immediate && !definition.delaysContent) content ++
      if (immediate || definition.alwaysExpands) && limit + 1 < levelsOf immediate content then
        [(Problem.recursionLimit limit definition.name).message span]
      else []

def limitReports (limit : Nat) (immediate : Bool) : List Node → List Message
  | [] => []
  | node :: rest => node.limitReports limit immediate ++ limitReports limit immediate rest

end

/-! ### Small laws of the measures -/

section Measures

variable {a b nodes nodes' : List Node} {limit : Nat} {immediate : Bool}

theorem arePlain_append : arePlain (a ++ b) = (arePlain a && arePlain b) := by
  induction a with
  | nil => simp [arePlain]
  | cons node rest ih => simp [arePlain, ih, Bool.and_assoc]

theorem limitReports_append : limitReports limit immediate (a ++ b)
    = limitReports limit immediate a ++ limitReports limit immediate b := by
  induction a with
  | nil => simp [limitReports]
  | cons node rest ih => simp [limitReports, ih, List.append_assoc]

theorem levelsOf_pos : 1 ≤ levelsOf immediate nodes := by
  induction nodes with
  | nil => simp [levelsOf]
  | cons node rest ih =>
    rw [levelsOf]
    omega

theorem Node.isPlain_of_isLeaf {n : Node} (h : n.isLeaf = true) : n.isPlain = true := by
  cases n with
  | paragraph _ _ => cases h
  | modifier _ => cases h
  | _ => simp [Node.isPlain]

theorem Node.limitReports_of_isLeaf {n : Node} (h : n.isLeaf = true) :
    n.limitReports limit immediate = [] := by
  cases n with
  | paragraph _ _ => cases h
  | modifier _ => cases h
  | _ => simp [Node.limitReports]

/-- Leaves count for nothing. -/
theorem arePlain_compounds : arePlain (compounds nodes) = arePlain nodes := by
  induction nodes with
  | nil => rfl
  | cons node rest ih =>
    cases hleaf : node.isLeaf with
    | true =>
      have hcompounds : compounds (node :: rest) = compounds rest :=
        List.filter_cons_of_neg (by simp [hleaf])
      rw [hcompounds, ih, arePlain, Node.isPlain_of_isLeaf hleaf, Bool.true_and]
    | false =>
      have hcompounds : compounds (node :: rest) = node :: compounds rest :=
        List.filter_cons_of_pos (by simp [hleaf])
      rw [hcompounds, arePlain, ih, arePlain]

theorem limitReports_compounds :
    limitReports limit immediate (compounds nodes) = limitReports limit immediate nodes := by
  induction nodes with
  | nil => rfl
  | cons node rest ih =>
    cases hleaf : node.isLeaf with
    | true =>
      have hcompounds : compounds (node :: rest) = compounds rest :=
        List.filter_cons_of_neg (by simp [hleaf])
      rw [hcompounds, ih, limitReports, Node.limitReports_of_isLeaf hleaf, List.nil_append]
    | false =>
      have hcompounds : compounds (node :: rest) = node :: compounds rest :=
        List.filter_cons_of_pos (by simp [hleaf])
      rw [hcompounds, limitReports, ih, limitReports]

end Measures

/-! ### The measures of a node that is walked over -/

/-- A node and the same after a walk measure alike. -/
structure Node.Measures (n n' : Node) : Prop where
  isPlain : n'.isPlain = n.isPlain
  levels : ∀ immediate, n'.levels immediate = n.levels immediate
  limitReports : ∀ limit immediate, n'.limitReports limit immediate = n.limitReports limit immediate

theorem measures_lists {nodes nodes' : List Node} (h : nodes.Forall₂ Node.Measures nodes') :
    arePlain nodes' = arePlain nodes ∧
      (∀ immediate, levelsOf immediate nodes' = levelsOf immediate nodes) ∧
      (∀ limit immediate,
        limitReports limit immediate nodes' = limitReports limit immediate nodes) ∧
      nodes'.isEmpty = nodes.isEmpty := by
  induction h with
  | nil => exact ⟨rfl, fun _ => rfl, fun _ _ => rfl, rfl⟩
  | cons hnode hrest ih =>
    obtain ⟨hplain, hlevels, hreports, -⟩ := ih
    refine ⟨?_, fun immediate => ?_, fun limit immediate => ?_, rfl⟩
    · rw [arePlain, arePlain, hnode.isPlain, hplain]
    · rw [levelsOf, levelsOf, hnode.levels, hlevels]
    · rw [limitReports, limitReports, hnode.limitReports, hreports]

def Likeness.measures : Likeness where
  Like := Node.Measures
  refl _ := ⟨rfl, fun _ => rfl, fun _ _ => rfl⟩
  trans h g := ⟨g.isPlain.trans h.isPlain, fun i => (g.levels i).trans (h.levels i),
    fun limit i => (g.limitReports limit i).trans (h.limitReports limit i)⟩
  paragraph h := by
    obtain ⟨hplain, hlevels, hreports, -⟩ := measures_lists h
    refine ⟨?_, fun immediate => ?_, fun limit immediate => ?_⟩
    · rw [Node.isPlain, Node.isPlain, hplain]
    · rw [Node.levels, Node.levels, hlevels]
    · rw [Node.limitReports, Node.limitReports, hreports]
  modifier {m m'} hspan _ hdefinition _ hcontent _ := by
    obtain ⟨span, head, definition, arguments, content, expansion⟩ := m
    obtain ⟨span', head', definition', arguments', content', expansion'⟩ := m'
    cases hspan
    cases hdefinition
    obtain ⟨hplain, hlevels, hreports, hempty⟩ := measures_lists hcontent
    refine ⟨?_, fun immediate => ?_, fun limit immediate => ?_⟩
    · rw [Node.isPlain, Node.isPlain, hplain]
    · rw [Node.levels, Node.levels, hlevels, hempty]
    · rw [Node.limitReports, Node.limitReports, hreports, hlevels]

/-- No modifier stands in the node but plain ones, and they have not been expanded. -/
inductive Node.Plain : Node → Prop
  | leaf {n : Node} : n.isLeaf = true → Plain n
  | paragraph {span : Span} {content : List Node} : (∀ n ∈ content, Plain n) →
    Plain (.paragraph span content)
  | modifier {m : Modifier} : m.expansion = none → m.definition.behaviour = .plain →
    (∀ n ∈ m.content, Plain n) → Plain (.modifier m)

/-! ### Walks -/

/-- From the first point to the second nothing changed but what was reported and how often the
limit was met, and no message reported the limit. -/
structure Engine.Idle (e e' : Engine) : Prop where
  context : e'.context = e.context
  delayDepth : e'.delayDepth = e.delayDepth
  referring : e'.referring = e.referring
  limits : e'.limitMessages = e.limitMessages

namespace Engine.Idle

variable {e e' e'' : Engine}

theorem refl (e : Engine) : e.Idle e := ⟨rfl, rfl, rfl, rfl⟩

theorem trans (h : e.Idle e') (g : e'.Idle e'') : e.Idle e'' :=
  ⟨g.context.trans h.context, g.delayDepth.trans h.delayDepth, g.referring.trans h.referring,
    g.limits.trans h.limits⟩

theorem immediate (h : e.Idle e') : e'.immediate = e.immediate := by
  rw [Engine.immediate, h.delayDepth, Engine.immediate]

theorem levels (h : e.Idle e') : e'.levels = e.levels := by
  rw [Engine.levels, h.context, Engine.levels]

theorem of_reports (h : e.Reports e') : e.Idle e' := by
  obtain ⟨⟨emitted, rfl⟩, -, hlimits⟩ := h
  exact ⟨rfl, rfl, rfl, hlimits⟩

end Engine.Idle

/-- A walk over plain nodes leaves plain nodes, reports no limit and is complete just if it has the
levels that it needs. -/
def Walk.MeasuresPlain (levels : Nat) (walk : Walk) : Prop :=
  ∀ (e : Engine) (nodes : List Node), (∀ n ∈ nodes, n.Plain) →
    Ensures anyFault (walk nodes) e fun r e' => (∀ n ∈ r.1, n.Plain) ∧ e.Idle e' ∧
      r.2 = decide (levelsOf e.immediate nodes ≤ levels)

section Walks

variable {levels : Nat} {walk : Walk} {e : Engine}

theorem measures_processNodes (hw : walk.MeasuresPlain levels) (outermost : Bool) {m : Modifier}
    {state : m.definition.behaviour.lifecycle.State}
    (hb : m.definition.behaviour.lifecycle.beforeProcessing = fun _ state => pure state)
    (ha : m.definition.behaviour.lifecycle.afterProcessing = fun _ => pure ())
    {nodes : List Node} (hnodes : ∀ n ∈ nodes, n.Plain) :
    Ensures anyFault (processNodes walk outermost m state nodes) e fun r e' =>
      (∀ n ∈ r.1, n.Plain) ∧
      r.2 = (nodes.isEmpty || decide (levelsOf e.immediate nodes ≤ levels)) ∧
      e'.context = e.context ∧ e'.delayDepth = e.delayDepth ∧ e'.referring = e.referring ∧
      e'.limitMessages = e.limitMessages ++ if !r.2 && outermost then
        [e.referring.foldl Message.referred ((Problem.recursionLimit
          e.context.configuration.depthLimit m.definition.name).message m.span)] else [] := by
  rw [ensures_processNodes_iff]
  refine ⟨fun hempty => ⟨List.forall_mem_nil _, by rw [hempty, Bool.true_or], rfl, rfl, rfl,
    (List.append_nil _).symm⟩, fun hnonempty => ?_⟩
  simp only [hb, ha, ensures_inContext, ensures_pure]
  refine (hw _ nodes hnodes).mono ?_
  intro answer later hanswer
  obtain ⟨nodes', complete⟩ := answer
  obtain ⟨hplain, hidle, hcomplete⟩ := hanswer
  have hcontext : later.context = e.context := hidle.context
  rw [ensures_leaveReplacement hidle.referring]
  have hflag : complete = (nodes.isEmpty || decide (levelsOf e.immediate nodes ≤ levels)) := by
    rw [Bool.eq_false_iff.mpr hnonempty, Bool.false_or]
    exact hcomplete
  refine ⟨fun hreport => ?_, fun hquiet => ?_⟩
  · refine ⟨hplain, hflag, hcontext, hidle.delayDepth, rfl, ?_⟩
    rw [if_pos hreport, Engine.limitMessages_emit, hcontext]
    exact congrArg (· ++ _) hidle.limits
  · refine ⟨hplain, hflag, hcontext, hidle.delayDepth, rfl, ?_⟩
    rw [if_neg hquiet, List.append_nil]
    exact hidle.limits

theorem measures_finishPlain (hw : walk.MeasuresPlain levels) (outermost : Bool)
    {span head : Span} {stamp : Nat} {name : String} {kind : ModifierKind} {slot : SlotType}
    {delaysContent alwaysExpands : Bool} {arguments : List Argument} {content : List Node}
    (hcontent : ∀ n ∈ content, n.Plain) :
    let m : Modifier := ⟨span, head, ⟨stamp, name, kind, slot, delaysContent, alwaysExpands,
      .plain⟩, arguments, content, none⟩
    Ensures anyFault (finishModifier walk outermost m ()) e fun r e' =>
      (Node.modifier r.1).Plain ∧
      r.2 = (content.isEmpty || decide (levelsOf e.immediate content ≤ levels)) ∧
      e'.context = e.context ∧ e'.delayDepth = e.delayDepth ∧ e'.referring = e.referring ∧
      e'.limitMessages = e.limitMessages ++ if !r.2 && outermost then
        [e.referring.foldl Message.referred ((Problem.recursionLimit
          e.context.configuration.depthLimit name).message span)] else [] := by
  intro m
  have hprepare : m.definition.behaviour.lifecycle.prepare =
    fun _ state _ => pure (state, []) := rfl
  have hexpand : m.definition.behaviour.lifecycle.expand =
      fun _ state _ => pure (.keep, state) := rfl
  refine ensures_finishModifier_iff.mpr ?_
  simp only [hprepare, hexpand, ensures_reporting, ensures_inContext, ensures_pure]
  refine (measures_processNodes (m := m) hw outermost rfl rfl hcontent).mono ?_
  intro answer e' hanswer
  obtain ⟨content', complete⟩ := answer
  obtain ⟨hplain, hrest⟩ := hanswer
  exact ⟨.modifier rfl rfl hplain, hrest⟩

theorem measures_walkContent (hw : walk.MeasuresPlain levels) {m : Modifier}
    (hcontent : ∀ n ∈ m.content, n.Plain) :
    Ensures anyFault (walkContent walk m) e fun content e' =>
      (∀ n ∈ content, n.Plain) ∧ e.Idle e' := by
  rw [ensures_walkContent_iff]
  refine ⟨fun _ => ⟨List.forall_mem_nil _, .refl e⟩, fun _ => (hw _ m.content hcontent).mono ?_⟩
  intro answer later hanswer
  obtain ⟨content, complete⟩ := answer
  obtain ⟨hplain, hidle, -⟩ := hanswer
  have hdepth : later.delayDepth - m.definition.delaysContent.toNat = e.delayDepth := by
    have := hidle.delayDepth
    simp only at this
    omega
  exact ⟨fun _ => ⟨hplain, hidle.context, hdepth, hidle.referring, hidle.limits⟩,
    fun _ => ⟨hplain, hidle.context, hdepth, hidle.referring, hidle.limits⟩⟩

theorem measures_plain (hw : walk.MeasuresPlain levels) (hlike : walk.Undisturbing .measures)
    {m : Modifier} (hwaits : m.expansion = none) (hplain : m.definition.behaviour = .plain)
    (hcontent : ∀ n ∈ m.content, n.Plain) :
    Ensures anyFault (expandGenerated walk m) e fun r e' => (Node.modifier r.1).Plain ∧
      e.Idle e' ∧ r.2 = decide ((Node.modifier m).levels e.immediate ≤ levels) := by
  obtain ⟨span, head, definition, arguments, content, expansion⟩ := m
  obtain ⟨stamp, name, kind, slot, delaysContent, alwaysExpands, behaviour⟩ := definition
  cases hwaits
  cases hplain
  refine ensures_expandGenerated_iff.mpr ⟨fun hsome => absurd hsome Bool.false_ne_true,
    fun _ => ?_⟩
  refine (ensures_expandArguments arguments e fun _ _ => trivial).mono ?_
  intro arguments' e₁ hanswer
  obtain ⟨⟨hreports, -⟩, -, -⟩ := hanswer
  have hidle₁ : e.Idle e₁ := .of_reports hreports
  rw [hidle₁.immediate]
  refine ⟨fun halone => ⟨.modifier rfl rfl hcontent, hidle₁, ?_⟩, fun hhere => ?_⟩
  · -- it is left alone, and needs no level
    have hnever : (e.immediate || alwaysExpands) = false := by simpa using halone
    rw [Node.levels, hnever, Bool.and_false, if_neg Bool.false_ne_true]
    exact (decide_eq_true (Nat.zero_le _)).symm
  have htried : (e.immediate || alwaysExpands) = true := by
    revert hhere
    cases e.immediate <;> cases alwaysExpands <;> simp
  have hlevels : decide ((Node.modifier ⟨span, head, ⟨stamp, name, kind, slot, delaysContent,
      alwaysExpands, .plain⟩, arguments, content, none⟩).levels e.immediate ≤ levels)
        = (content.isEmpty || decide (levelsOf e.immediate content ≤ levels)) := by
    rw [Node.levels, htried, Bool.and_true]
    cases content with
    | nil => simp
    | cons node rest => simp
  have hbefore : Behaviour.plain.lifecycle.beforeContent =
      fun _ _ => pure (Behaviour.plain.lifecycle.idle, []) := rfl
  have hafter : Behaviour.plain.lifecycle.afterContent = pure := rfl
  simp only [ensures_reporting, ensures_inContext, hbefore, hafter, ensures_pure]
  refine ((measures_walkContent hw hcontent).and (ensures_walkContent_alike hlike)).mono ?_
  intro content' e₂ hanswer
  obtain ⟨⟨hcontent', hidle₂⟩, halike⟩ := hanswer
  obtain ⟨-, hsame, -, hempty⟩ := measures_lists halike
  have hidle₂' : e.Idle e₂ := hidle₁.trans hidle₂
  refine (measures_finishPlain hw false hcontent').mono ?_
  intro answer e₃ hanswer
  obtain ⟨m, complete⟩ := answer
  obtain ⟨hm, hcomplete, hcontext, hdepth, hreferring, hlimits⟩ := hanswer
  simp only [Bool.and_false, Bool.false_eq_true, if_false, List.append_nil] at hlimits
  refine ⟨hm, hidle₂'.trans ⟨hcontext, hdepth, hreferring, hlimits⟩, ?_⟩
  rw [hlevels, hcomplete, hidle₂'.immediate, hsame, hempty]

theorem measures_processNode (hw : walk.MeasuresPlain levels) (hlike : walk.Undisturbing .measures)
    {node : Node} (hnode : node.Plain) (e : Engine) :
    Ensures anyFault (processNode walk node) e fun r e' => r.1.Plain ∧ e.Idle e' ∧
      r.2 = decide (node.levels e.immediate ≤ levels) := by
  cases hnode with
  | leaf hleaf =>
    have hzero : decide (node.levels e.immediate ≤ levels) = true := by
      cases node with
      | paragraph _ _ => cases hleaf
      | modifier _ => cases hleaf
      | _ => simp [Node.levels]
    cases node with
    | paragraph _ _ => cases hleaf
    | modifier _ => cases hleaf
    | _ => exact ⟨.leaf rfl, .refl e, hzero.symm⟩
  | @paragraph span content hcontent =>
    rw [ensures_processNode_paragraph]
    refine (hw e content hcontent).mono ?_
    intro answer e' hanswer
    obtain ⟨content', complete⟩ := answer
    obtain ⟨hplain, hidle, hcomplete⟩ := hanswer
    exact ⟨.paragraph hplain, hidle, by rw [Node.levels]; exact hcomplete⟩
  | @modifier m hwaits hplain hcontent =>
    exact ensures_processNode_modifier.mpr (measures_plain hw hlike hwaits hplain hcontent)

theorem measures_processEach (hw : walk.MeasuresPlain levels)
    (hlike : walk.Undisturbing .measures) :
    Walk.MeasuresPlain (levels + 1) (processEach walk) := by
  intro e nodes
  induction nodes generalizing e with
  | nil => exact fun _ => ⟨List.forall_mem_nil _, .refl e, by simp [levelsOf]⟩
  | cons node rest ih =>
    intro hnodes
    rw [ensures_processEach_cons]
    refine (measures_processNode hw hlike (hnodes node List.mem_cons_self) e).mono ?_
    intro answer e' hanswer
    obtain ⟨node', complete⟩ := answer
    obtain ⟨hnode, hidle, rfl⟩ := hanswer
    refine (ih e' fun n hn => hnodes n (List.mem_cons_of_mem _ hn)).mono ?_
    intro answer e'' hanswer
    obtain ⟨rest', others⟩ := answer
    obtain ⟨hrest, hidle', rfl⟩ := hanswer
    refine ⟨fun n hn => ?_, hidle.trans hidle', ?_⟩
    · rcases List.mem_cons.mp hn with rfl | hn
      · exact hnode
      · exact hrest n hn
    · rw [hidle.immediate, levelsOf, ← Bool.decide_and]
      exact decide_eq_decide.mpr (by omega)

/-- **A walk over plain nodes is complete just if it has the levels that it needs**, and reports
no limit itself. -/
theorem measures_process (levels : Nat) : Walk.MeasuresPlain levels (process levels) := by
  induction levels with
  | zero =>
    intro e nodes hnodes
    refine ⟨hnodes, ⟨rfl, rfl, rfl, rfl⟩, ?_⟩
    have hpos := @levelsOf_pos nodes e.immediate
    exact (decide_eq_false (by omega)).symm
  | succ levels ih => exact measures_processEach ih (undisturbing_process .measures levels)

end Walks

/-! ### Reading -/

/-- Between the two points plain nodes were read, and the limit was reported where they say. -/
structure Engine.ReadsPlain (e : Engine) (nodes : List Node) (e' : Engine) : Prop where
  plain : ∀ n ∈ nodes, n.Plain
  context : e'.context = e.context
  delayDepth : e'.delayDepth = e.delayDepth
  referring : e'.referring = e.referring
  limits : e'.limitMessages = e.limitMessages ++
    (limitReports e.context.configuration.depthLimit e.immediate nodes).map
      (e.referring.foldl Message.referred)

/-- Behind its body the life of a plain modifier goes on where it was opened: all that was added is
what was reported in the body. -/
theorem Engine.ReadsPlain.behind {e opened later : Engine} {content : List Node}
    {delays : Bool} (hopened : e.Idle opened)
    (h : (opened.inBody delays).ReadsPlain content later)
    (outside : Engine)
    (hleaves : outside = { later with delayDepth := later.delayDepth - delays.toNat }) :
    outside.context = e.context ∧ outside.delayDepth = e.delayDepth ∧
      outside.referring = e.referring ∧ outside.limitMessages = e.limitMessages ++
        (limitReports e.context.configuration.depthLimit (e.immediate && !delays) content).map
          (e.referring.foldl Message.referred) := by
  subst hleaves
  have hsame := hopened.delayDepth
  have hdepth : later.delayDepth - delays.toNat = e.delayDepth := by
    have hinside := h.delayDepth
    simp only [Engine.inBody] at hinside
    omega
  have hinner : (opened.inBody delays).immediate = (e.immediate && !delays) := by
    simp only [Engine.immediate, Engine.inBody, hsame]
    cases delays <;> cases e.delayDepth <;> simp
  have hlimits := h.limits
  rw [hinner] at hlimits
  simp only [Engine.inBody, hopened.context, hopened.referring] at hlimits
  exact ⟨h.context.trans hopened.context, hdepth, h.referring.trans hopened.referring,
    hlimits.trans (congrArg (· ++ _) hopened.limits)⟩

/-- What is reported in the content of a modifier, and at the modifier itself. -/
theorem limitReports_modifier (limit : Nat) (immediate : Bool) (m : Modifier) :
    limitReports limit immediate [.modifier m]
      = limitReports limit (immediate && !m.definition.delaysContent) m.content ++
        if (immediate || m.definition.alwaysExpands) &&
            limit + 1 < levelsOf immediate m.content then
          [(Problem.recursionLimit limit m.definition.name).message m.span] else [] := by
  obtain ⟨span, head, definition, arguments, content, expansion⟩ := m
  rw [limitReports, limitReports, List.append_nil, Node.limitReports]

/-- A walk that has levels fails just if it needs more. -/
theorem not_complete_eq (immediate : Bool) (nodes : List Node) (limit : Nat) :
    (!(nodes.isEmpty || decide (levelsOf immediate nodes ≤ limit + 1)))
      = decide (limit + 1 < levelsOf immediate nodes) := by
  cases nodes with
  | nil => simp [levelsOf]
  | cons node rest =>
    rw [List.isEmpty_cons, Bool.false_or, ← decide_not]
    exact decide_eq_decide.mpr Nat.not_le

theorem readsPlain_expandRead {e opened later : Engine} {m : Modifier} {content : List Node}
    {span : Span} {state : m.definition.behaviour.lifecycle.State}
    (hplain : m.definition.behaviour = .plain) (hwaits : m.expansion = none)
    (hopened : e.Idle opened)
    (h : (opened.inBody m.definition.delaysContent).ReadsPlain content later) :
    let outside : Engine :=
      { later with delayDepth := later.delayDepth - m.definition.delaysContent.toNat }
    Ensures anyFault
      (expandRead (process outside.levels) { m with span := span, content := content } state)
      outside fun r e' => e.ReadsPlain [.modifier r.1] e' := by
  intro outside
  obtain ⟨span₀, head, definition, arguments, content₀, expansion⟩ := m
  obtain ⟨stamp, name, kind, slot, delaysContent, alwaysExpands, behaviour⟩ := definition
  cases hwaits
  cases hplain
  obtain ⟨hcontext, hdepth, hreferring, hlimits⟩ := h.behind hopened outside rfl
  have himmediate : outside.immediate = e.immediate := by
    rw [Engine.immediate, hdepth, Engine.immediate]
  have hcontent := h.plain
  refine ensures_expandRead_iff.mpr ?_
  rw [himmediate]
  refine ⟨fun halone => ?_, fun hhere => ?_⟩
  · have hnever : (e.immediate || alwaysExpands) = false := by simpa using halone
    refine ⟨fun n hn => ?_, hcontext, hdepth, hreferring, ?_⟩
    · rw [List.mem_singleton.mp hn]
      exact .modifier rfl rfl hcontent
    · rw [hlimits, limitReports_modifier, hnever, Bool.false_and, if_neg Bool.false_ne_true,
        List.append_nil]
  have htried : (e.immediate || alwaysExpands) = true := by
    revert hhere
    cases e.immediate <;> cases alwaysExpands <;> simp
  refine ((measures_finishPlain (measures_process _) true hcontent).and
    (ensures_finishModifier_alike (undisturbing_process .measures _) true rfl)).mono ?_
  intro answer e' hanswer
  obtain ⟨m, complete⟩ := answer
  obtain ⟨⟨hm, rfl, hcontext', hdepth', hreferring', hlimits'⟩, halike⟩ := hanswer
  refine ⟨fun n hn => ?_, hcontext'.trans hcontext, hdepth'.trans hdepth,
    hreferring'.trans hreferring, ?_⟩
  · rw [List.mem_singleton.mp hn]
    exact hm
  · obtain ⟨-, -, hsame, -⟩ := measures_lists (.cons halike .nil)
    simp only [Bool.and_true, himmediate, Engine.levels, hcontext, not_complete_eq] at hlimits'
    rw [hlimits', hlimits, hsame, limitReports_modifier, htried, Bool.true_and, hreferring,
      List.map_append, List.append_assoc]
    congr 2
    split <;> rfl

theorem Definition.behaviour_of_isPlain {d : Definition} (h : d.isPlain = true) :
    d.behaviour = .plain := by
  unfold isPlain at h
  split at h
  · assumption
  · cases h

theorem plain_beforeContent (m : Modifier) (e : Engine) :
    Ensures anyFault
      (Expand.reporting (m.definition.behaviour.lifecycle.beforeContent m e.immediate)) e
      fun _ opened => m.definition.behaviour = .plain → e.Idle opened := by
  rw [ensures_reporting]
  by_cases hplain : m.definition.behaviour = .plain
  · obtain ⟨span, head, definition, arguments, content, expansion⟩ := m
    obtain ⟨stamp, name, kind, slot, delaysContent, alwaysExpands, behaviour⟩ := definition
    cases hplain
    exact fun _ => .refl e
  · exact ensures_of_forall fun _ _ h => absurd h hplain

theorem plain_afterContent {d : Definition} (state : d.behaviour.lifecycle.State) (e : Engine) :
    Ensures anyFault (Expand.inContext (d.behaviour.lifecycle.afterContent state)) e
      fun _ outside => d.behaviour = .plain → outside = e := by
  rw [ensures_inContext]
  by_cases hplain : d.behaviour = .plain
  · obtain ⟨stamp, name, kind, slot, delaysContent, alwaysExpands, behaviour⟩ := d
    cases hplain
    exact fun _ => rfl
  · exact ensures_of_forall fun _ _ h => absurd h hplain

def World.plain : World where
  allows := anyFault
  Sound _ := True
  Fits _ _ := True
  Yields e nodes e' := arePlain nodes = true → e.ReadsPlain nodes e'
  readable _ := (World.anything.readable trivial)
  fits _ _ := trivial
  sound _ := trivial
  leaves {e nodes} _ hleaves _ := by
    have hreports : ∀ limit immediate, limitReports limit immediate nodes = [] := by
      intro limit immediate
      rw [← limitReports_compounds, compounds_eq_nil hleaves, limitReports]
    refine ⟨fun n hn => .leaf (hleaves n hn), rfl, rfl, rfl, ?_⟩
    rw [hreports]
    exact (List.append_nil _).symm
  earlier {e e' e'' nodes} hreports h hplain := by
    obtain ⟨hnodes, hcontext, hdepth, hreferring, hlimits⟩ := h hplain
    obtain ⟨⟨emitted, rfl⟩, -, hsame⟩ := hreports
    exact ⟨hnodes, hcontext, hdepth, hreferring, by rw [hlimits, hsame]; rfl⟩
  later {e e' e'' nodes} h hreports hplain := by
    obtain ⟨hnodes, hcontext, hdepth, hreferring, hlimits⟩ := h hplain
    obtain ⟨⟨emitted, rfl⟩, -, hsame⟩ := hreports
    exact ⟨hnodes, hcontext, hdepth, hreferring, hsame.trans hlimits⟩
  append {e e' e'' nodes nodes'} h h' hplain := by
    rw [arePlain_append, Bool.and_eq_true] at hplain
    obtain ⟨hnodes, hcontext, hdepth, hreferring, hlimits⟩ := h hplain.1
    obtain ⟨hnodes', hcontext', hdepth', hreferring', hlimits'⟩ := h' hplain.2
    have himmediate : e'.immediate = e.immediate := by
      rw [Engine.immediate, hdepth, Engine.immediate]
    refine ⟨fun n hn => (List.mem_append.mp hn).elim (hnodes n) (hnodes' n),
      hcontext'.trans hcontext, hdepth'.trans hdepth, hreferring'.trans hreferring, ?_⟩
    rw [hlimits', hlimits, himmediate, hcontext, hreferring, limitReports_append, List.map_append,
      List.append_assoc]
  same {e e' nodes nodes'} h hsame hplain := by
    rw [← arePlain_compounds, hsame, arePlain_compounds] at hplain
    obtain ⟨hnodes, hcontext, hdepth, hreferring, hlimits⟩ := h hplain
    refine ⟨fun n hn => (mem_or_isLeaf hsame hn).elim (hnodes n) .leaf, hcontext, hdepth,
      hreferring, ?_⟩
    rw [hlimits, ← limitReports_compounds, ← hsame, limitReports_compounds]
  paragraph {e e' nodes} span h hplain := by
    rw [arePlain, arePlain, Bool.and_true, Node.isPlain] at hplain
    obtain ⟨hnodes, hcontext, hdepth, hreferring, hlimits⟩ := h hplain
    refine ⟨fun n hn => ?_, hcontext, hdepth, hreferring, ?_⟩
    · rw [List.mem_singleton.mp hn]
      exact .paragraph hnodes
    · rw [limitReports, limitReports, List.append_nil, Node.limitReports]
      exact hlimits
  modifier {e m} _ _ _ _ hwaits _ := by
    refine (plain_beforeContent m e).mono ?_
    intro state opened hopened
    refine ⟨trivial, fun content later span hlater _ => ?_⟩
    refine (plain_afterContent state _).mono ?_
    intro state' outside houtside
    by_cases hplain : m.definition.behaviour = .plain ∧ arePlain content = true
    · rw [houtside hplain.1]
      exact (readsPlain_expandRead hplain.1 hwaits (hopened hplain.1) (hlater hplain.2)).mono
        fun _ _ h _ => h
    · -- what is not plain does not become so
      refine (ensures_expandRead_alike (m := { m with span := span, content := content })
        (undisturbing_process .measures _) hwaits).mono ?_
      intro r e' halike hr
      rw [arePlain, arePlain, Bool.and_true, halike.isPlain, Node.isPlain, Bool.and_eq_true] at hr
      exact absurd ⟨Definition.behaviour_of_isPlain hr.1, hr.2⟩ hplain

/-! ### Shallow nodes -/

section Shallow

variable {nodes : List Node} {limit : Nat} {immediate : Bool}

theorem levelsOf_mono {j : Bool} (h : ∀ n ∈ nodes, n.levels immediate ≤ n.levels j) :
    levelsOf immediate nodes ≤ levelsOf j nodes := by
  induction nodes with
  | nil => exact Nat.le_refl 1
  | cons node rest ih =>
    have hnode := h node List.mem_cons_self
    have hrest := ih fun n hn => h n (List.mem_cons_of_mem _ hn)
    rw [levelsOf, levelsOf]
    omega

theorem levels_lt_levelsOf {n : Node} (hn : n ∈ nodes) :
    n.levels immediate < levelsOf immediate nodes := by
  induction nodes with
  | nil => cases hn
  | cons node rest ih =>
    rw [levelsOf]
    rcases List.mem_cons.mp hn with rfl | hn
    · omega
    · have := ih hn
      omega

theorem limitReports_eq_nil (h : ∀ n ∈ nodes, n.limitReports limit immediate = []) :
    limitReports limit immediate nodes = [] := by
  induction nodes with
  | nil => rw [limitReports]
  | cons node rest ih =>
    rw [limitReports, h node List.mem_cons_self, ih fun n hn => h n (List.mem_cons_of_mem _ hn)]
    rfl

/-- Visits that are not immediate go less deep. -/
theorem Node.Plain.levels_le {n : Node} (h : n.Plain) (immediate : Bool) :
    n.levels immediate ≤ n.levels true := by
  induction h with
  | @leaf n hleaf =>
    cases n with
    | paragraph _ _ => cases hleaf
    | modifier _ => cases hleaf
    | _ => simp [Node.levels]
  | paragraph _ ih =>
    rw [Node.levels, Node.levels]
    exact levelsOf_mono ih
  | @modifier m _ _ _ ih =>
    obtain ⟨span, head, definition, arguments, content, expansion⟩ := m
    have hcontent : levelsOf immediate content ≤ levelsOf true content := levelsOf_mono ih
    rw [Node.levels, Node.levels, Bool.true_or, Bool.and_true]
    split
    · rename_i hvisited
      rw [if_pos (Bool.and_eq_true_iff.mp hvisited).1]
      exact hcontent
    · exact Nat.zero_le _

theorem Node.Plain.limitReports_eq_nil {n : Node} (h : n.Plain) :
    ∀ immediate, n.levels true ≤ limit + 1 → n.limitReports limit immediate = [] := by
  induction h with
  | leaf hleaf => exact fun _ _ => Node.limitReports_of_isLeaf hleaf
  | @paragraph span content _ ih =>
    intro immediate hlevels
    rw [Node.levels] at hlevels
    rw [Node.limitReports]
    refine MacroMarkup.limitReports_eq_nil fun n hn => ih n hn immediate ?_
    have : n.levels true < levelsOf true _ := levels_lt_levelsOf hn
    omega
  | @modifier m _ _ hcontent ih =>
    intro immediate hlevels
    obtain ⟨span, head, definition, arguments, content, expansion⟩ := m
    have hcontent : ∀ n ∈ content, n.Plain := hcontent
    have hinner : levelsOf true content ≤ limit + 1 := by
      cases content with
      | nil => simp [levelsOf]
      | cons node rest => simpa [Node.levels] using hlevels
    have houter : levelsOf immediate content ≤ levelsOf true content :=
      levelsOf_mono fun n hn => (hcontent n hn).levels_le immediate
    have hnot : ¬ limit + 1 < levelsOf immediate content := by omega
    rw [Node.limitReports, decide_eq_false hnot, Bool.and_false, if_neg Bool.false_ne_true,
      List.append_nil]
    refine MacroMarkup.limitReports_eq_nil fun n hn => ih n hn _ ?_
    have : n.levels true < levelsOf true _ := levels_lt_levelsOf hn
    omega

end Shallow

/-- **Where the limit is reported in a source of plain modifiers**: at each modifier whose
content needs more levels than the limit leaves it, and nowhere else.  So no message reports the
limit if the plain modifiers and paragraphs of the source do not nest that deep. -/
theorem plain_limit_messages {cx : Context} {source : String} {d : Document}
    (hd : cx.parse source = .ok d) (hplain : arePlain d.content = true) :
    d.messages.filter Message.reportsLimit
      = limitReports cx.configuration.depthLimit true d.content ∧
    (levelsOf true d.content ≤ cx.configuration.depthLimit + 2 →
      ∀ message ∈ d.messages, message.reportsLimit = false) := by
  rw [Context.parse_eq_read] at hd
  obtain ⟨hok, -⟩ := @read_law World.plain cx trivial source []
  obtain ⟨e, hyields, -, hmessages, -⟩ := hok d hd
  obtain ⟨hnodes, -, -, -, hlimits⟩ := hyields hplain
  have hall : d.messages.filter Message.reportsLimit
      = limitReports cx.configuration.depthLimit true d.content := by
    rw [hmessages]
    exact hlimits.trans (List.map_id _)
  refine ⟨hall, fun hlevels message hmessage => ?_⟩
  have hnone : limitReports cx.configuration.depthLimit true d.content = [] := by
    refine limitReports_eq_nil fun n hn => (hnodes n hn).limitReports_eq_nil true ?_
    have : n.levels true < levelsOf true _ := levels_lt_levelsOf hn
    omega
  rw [hnone] at hall
  exact Bool.eq_false_iff.mpr (List.filter_eq_nil_iff.mp hall message hmessage)

/-- Two plain blocks, one in the other, are too deep for the limit 1. -/
theorem plain_limit_messages_nested :
    let c := { Configuration.empty with depthLimit := 1 }.set (.plain "b" .block .normal)
    ∃ cx d, Context.start c .empty = .ok cx ∧ cx.parse "[.b][.b]x" = .ok d ∧
      arePlain d.content = true ∧
      d.messages.filter Message.reportsLimit = limitReports 1 true d.content ∧
      d.messages.any Message.reportsLimit = true := by
  intro c
  have hrun : ((Context.start c .empty).bind fun cx => cx.parse "[.b][.b]x").toOption.map
      (fun d => (arePlain d.content, d.messages.any Message.reportsLimit)) = some (true, true) := by
    decide +kernel
  obtain ⟨cx, hcx⟩ : ∃ cx, Context.start c .empty = .ok cx := ⟨_, rfl⟩
  rw [hcx, Except.bind] at hrun
  obtain ⟨d, hd, hanswer⟩ := exists_ok_of_toOption hrun
  have hplain : arePlain d.content = true := congrArg Prod.fst hanswer
  have hlimit : cx.configuration.depthLimit = 1 := by
    cases hcx
    rfl
  refine ⟨cx, d, hcx, hd, hplain, ?_, congrArg Prod.snd hanswer⟩
  rw [← hlimit]
  exact (plain_limit_messages hd hplain).1

end MacroMarkup
