import MacroMarkup.Parser.Block
import MacroMarkup.Proofs.Run

/-!
# The stages of a modifier's life

A modifier is opened, its content is read or walked, it is closed, it is prepared and expanded,
and what it stands for is processed.  Each function that takes it through some of these stages
is given here by what the stages ensure, so that laws of walks and of reading follow a run from
stage to stage.

* `ensures_processNodes_iff`, `ensures_finishModifier_iff`: the end of a life.
* `ensures_expandRead_iff`, `ensures_readModifier_iff`: a modifier in the source.
* `ensures_walkContent_iff`, `ensures_expandGenerated_iff`: a modifier in generated content.
* `ensures_processNode_paragraph`, `ensures_processNode_modifier`, `ensures_processEach_cons`: a
  walk from node to node.
-/

namespace MacroMarkup

section Walks

variable {allows : Fault → Prop} {walk : Walk} {outermost : Bool} {e : Engine} {m : Modifier}
  {state : m.definition.behaviour.lifecycle.State} {nodes : List Node}

@[simp] theorem ensures_immediate {post : Bool → Engine → Prop} :
    Ensures allows Expand.immediate e post ↔ post e.immediate e := Iff.rfl

theorem ensures_isDelayed {post : Bool → Engine → Prop} :
    Ensures allows m.isDelayed e post ↔ post (!e.immediate && !m.definition.alwaysExpands) e :=
  Iff.rfl

theorem ensures_leaveReplacement {post : Unit → Engine → Prop} {span : Span} {outer : List Span}
    (h : e.referring = span :: outer) :
    Ensures allows Expand.leaveReplacement e post ↔ post () { e with referring := outer } := by
  simp only [Expand.leaveReplacement, ensures_bind, ensures_get, h, ensures_modify]

theorem ensures_leaveReplacement_any {post : Unit → Engine → Prop}
    (h : ∀ outer, post () { e with referring := outer }) :
    Ensures anyFault Expand.leaveReplacement e post := by
  simp only [Expand.leaveReplacement, ensures_bind, ensures_get]
  cases e.referring with
  | nil => exact trivial
  | cons span outer => exact h outer

/-- Nodes in the place of a modifier are walked between the points before and after the
processing, and a refusal that nothing around reports is reported. -/
theorem ensures_processNodes_iff {post : List Node × Bool → Engine → Prop} :
    Ensures allows (processNodes walk outermost m state nodes) e post ↔
      (nodes.isEmpty = true → post ([], true) e) ∧
      (¬ nodes.isEmpty = true → Ensures allows
        (Expand.inContext (m.definition.behaviour.lifecycle.beforeProcessing m state)) e
        fun state' inside => Ensures allows (walk nodes)
          { inside with referring := m.span :: inside.referring } fun r later =>
            Ensures allows Expand.leaveReplacement later fun _ closed => Ensures allows
              (Expand.inContext (m.definition.behaviour.lifecycle.afterProcessing state')) closed
              fun _ outside =>
                ((!r.2 && outermost) = true → post r (outside.emit [(Problem.recursionLimit
                  outside.context.configuration.depthLimit m.definition.name).message m.span])) ∧
                (¬ (!r.2 && outermost) = true → post r outside)) := by
  simp only [processNodes, ensures_ite, ensures_bind, Expand.enterReplacement, ensures_modify,
    ensures_get, Expand.emit, ensures_pure]

theorem ensures_processNodes_nil {post : List Node × Bool → Engine → Prop} :
    Ensures allows (processNodes walk outermost m state []) e post ↔ post ([], true) e := Iff.rfl

/-- A modifier is prepared, and then it is decided what stands in its place. -/
theorem ensures_finishModifier_iff {post : Modifier × Bool → Engine → Prop} :
    Ensures allows (finishModifier walk outermost m state) e post ↔ Ensures allows
      (Expand.reporting (m.definition.behaviour.lifecycle.prepare m state e.immediate)) e
      fun prepared between => Ensures allows
        (Expand.inContext (m.definition.behaviour.lifecycle.expand m prepared e.immediate)) between
        fun decision decided =>
          match decision.1 with
          | .defer => post (m, true) decided
          | .keep => Ensures allows (processNodes walk outermost m decision.2 m.content) decided
            fun r e' => post ({ m with content := r.1 }, r.2) e'
          | .replace nodes => Ensures allows (processNodes walk outermost m decision.2 nodes)
            decided fun r e' =>
              ((!e.immediate && !areResolved r.1) = true →
                post ({ m with expansion := some r.1 }, r.2)
                  { e' with anticipations := e'.anticipations + 1 }) ∧
              (¬ (!e.immediate && !areResolved r.1) = true →
                post ({ m with expansion := some r.1 }, r.2) e') := by
  simp only [finishModifier, ensures_bind, ensures_immediate]
  refine ensures_congr fun prepared between => ensures_congr fun decision decided => ?_
  obtain ⟨outcome, state'⟩ := decision
  cases outcome with
  | defer => exact Iff.rfl
  | keep => simp only [ensures_bind, ensures_pure]
  | replace nodes =>
    simp only [ensures_bind, ensures_ite, Expand.anticipate, ensures_modify, ensures_pure]

theorem ensures_expandRead_iff {post : Modifier × Bool → Engine → Prop} :
    Ensures allows (expandRead walk m state) e post ↔
      ((!e.immediate && !m.definition.alwaysExpands) = true → post (m, true) e) ∧
      (¬ (!e.immediate && !m.definition.alwaysExpands) = true →
        Ensures allows (finishModifier walk true m state) e post) := by
  simp only [expandRead, ensures_bind, ensures_isDelayed, ensures_ite, ensures_pure]

theorem ensures_expandRead_now {post : Modifier × Bool → Engine → Prop}
    (hnow : e.immediate = true) (h : Ensures allows (finishModifier walk true m state) e post) :
    Ensures allows (expandRead walk m state) e post :=
  ensures_expandRead_iff.mpr ⟨fun hdelayed => by simp [hnow] at hdelayed, fun _ => h⟩

/-- The content of a modifier is walked as its body is read, and a refusal in it is lost. -/
theorem ensures_walkContent_iff {post : List Node → Engine → Prop} :
    Ensures allows (walkContent walk m) e post ↔
      (m.content.isEmpty = true → post [] e) ∧
      (¬ m.content.isEmpty = true → Ensures allows (walk m.content)
        { e with delayDepth := e.delayDepth + m.definition.delaysContent.toNat } fun r later =>
          ((!r.2) = true → post r.1 { later with
            delayDepth := later.delayDepth - m.definition.delaysContent.toNat
            losses := later.losses + 1 }) ∧
          (¬ (!r.2) = true → post r.1 { later with
            delayDepth := later.delayDepth - m.definition.delaysContent.toNat })) := by
  simp only [walkContent, ensures_ite, Expand.enterBody, Expand.leaveBody, Expand.lose,
    ensures_bind, ensures_modify, ensures_pure]

/-- A modifier that a walk meets ended its life before, is left alone, or goes through all of
its life. -/
theorem ensures_expandGenerated_iff {post : Modifier × Bool → Engine → Prop} :
    Ensures allows (expandGenerated walk m) e post ↔
      (m.expansion.isSome = true → post (m, true) e) ∧
      (¬ m.expansion.isSome = true → Ensures allows (expandArguments m.arguments) e
        fun arguments e₁ =>
          ((!e₁.immediate && !m.definition.alwaysExpands) = true →
            post ({ m with arguments := arguments }, true) e₁) ∧
          (¬ (!e₁.immediate && !m.definition.alwaysExpands) = true → Ensures allows
            (Expand.reporting (m.definition.behaviour.lifecycle.beforeContent
              { m with arguments := arguments } e₁.immediate)) e₁
            fun state opened => Ensures allows (walkContent walk { m with arguments := arguments })
              opened fun content closed => Ensures allows
                (Expand.inContext (m.definition.behaviour.lifecycle.afterContent state)) closed
                fun state' later => Ensures allows (finishModifier walk false
                  { m with arguments := arguments, content := content } state') later post)) := by
  simp only [expandGenerated, ensures_ite, ensures_bind, ensures_isDelayed, ensures_immediate,
    ensures_pure]

/-- A modifier that a walk meets at an immediate visit goes through all of its life. -/
theorem ensures_expandGenerated_now {arguments : List Argument} {e₁ : Engine}
    {post : Modifier × Bool → Engine → Prop} (hwaits : ¬ m.expansion.isSome = true)
    (harguments : expandArguments m.arguments e = .ok (arguments, e₁))
    (hnow : e₁.immediate = true) :
    Ensures allows (expandGenerated walk m) e post ↔ Ensures allows
      (Expand.reporting (m.definition.behaviour.lifecycle.beforeContent
        { m with arguments := arguments } true)) e₁
      fun state opened => Ensures allows (walkContent walk { m with arguments := arguments })
        opened fun content closed => Ensures allows
          (Expand.inContext (m.definition.behaviour.lifecycle.afterContent state)) closed
          fun state' later => Ensures allows (finishModifier walk false
            { m with arguments := arguments, content := content } state') later post := by
  simp only [ensures_expandGenerated_iff, hwaits, ensures_of_eq harguments, hnow, Bool.not_true,
    Bool.false_and, Bool.false_eq_true, false_implies, true_and, not_false_eq_true, true_implies]

@[simp] theorem ensures_processNode_paragraph {span : Span} {content : List Node}
    {post : Node × Bool → Engine → Prop} :
    Ensures allows (processNode walk (.paragraph span content)) e post ↔
      Ensures allows (walk content) e fun r e' => post (.paragraph span r.1, r.2) e' := by
  simp only [processNode, ensures_bind, ensures_pure]

@[simp] theorem ensures_processNode_modifier {post : Node × Bool → Engine → Prop} :
    Ensures allows (processNode walk (.modifier m)) e post ↔
      Ensures allows (expandGenerated walk m) e fun r e' => post (.modifier r.1, r.2) e' := by
  simp only [processNode, ensures_bind, ensures_pure]

theorem ensures_processEach_cons {node : Node} {post : List Node × Bool → Engine → Prop} :
    Ensures allows (processEach walk (node :: nodes)) e post ↔
      Ensures allows (processNode walk node) e fun r e' =>
        Ensures allows (processEach walk nodes) e' fun s e'' =>
          post (r.1 :: s.1, s.2 && r.2) e'' := by
  simp only [processEach, ensures_bind, ensures_pure]

end Walks

/-- A modifier in the source: its head is read and it is opened, its body is read, it is closed
and expanded. -/
theorem ensures_readModifier_iff {allows : Fault → Prop} {fuel : Nat} {kind : ModifierKind}
    {r : Reader} {post : Modifier × Bool → Reader → Prop} :
    Ensures allows (Parse.readModifier (fuel + 1) kind) r post ↔
      Ensures allows (Parse.readHead kind) r fun head r₁ => Ensures allows
        (Expand.reporting (head.modifier.definition.behaviour.lifecycle.beforeContent head.modifier
          r₁.engine.immediate)) r₁.engine
        fun state opened => Ensures allows (Parse.readBody fuel kind head) { r₁ with engine :=
            { opened with
              delayDepth := opened.delayDepth + head.modifier.definition.delaysContent.toNat } }
          fun body r₂ => Ensures allows (Parse.wholeSpan head) r₂ fun span r₃ => Ensures allows
            (Expand.inContext (head.modifier.definition.behaviour.lifecycle.afterContent state))
            { r₃.engine with
              delayDepth := r₃.engine.delayDepth - head.modifier.definition.delaysContent.toNat }
            fun state' outside => Ensures allows (expandRead (process outside.levels)
              { head.modifier with span := span, content := body.1 } state') outside
              fun answer e => post (answer.1, body.2) { r₃ with engine := e } := by
  simp only [Parse.readModifier, ensures_bind, ensures_expanding, ensures_immediate,
    Expand.enterBody, Expand.leaveBody, ensures_modify, ensures_get, ensures_pure]

end MacroMarkup
