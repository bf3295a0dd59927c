import MacroMarkup.Proofs.Frames

/-!
# What a walk comes to

A walk over a list of nodes asks for further walks: over the content of a paragraph, over
the content of a modifier, and over what a modifier stands for.  A `Visit` is one such
walk, `Visit.Asks` says which ones it asks for, and `Visit.Reaches` follows them to any
depth, with the trail of processings that lie between.

* `Visit.Meets`, `Modifier.Opens`, `Modifier.Processes`, `Processing.Starts`: the points
  that a walk passes on the way.
* `Visit.Reaches.fails`: what is asked for is run; a fault there is a fault of the whole.
* `processEach_congr`: nothing else is run; a walk depends only on what it asks for.
* `Visit.Meets.frames`, `Modifier.Processes.frames`, `Processing.Starts.frames`: the stacks of
  invocations at these points.
-/

namespace MacroMarkup

/-- A list of nodes to be walked, in which `levels` more levels may nest. -/
structure Visit where
  levels : Nat
  nodes : List Node
  engine : Engine

/-- A modifier right before what it stands for is processed. -/
structure Processing where
  modifier : Modifier
  state : modifier.definition.behaviour.lifecycle.State
  /-- What it stands for. -/
  nodes : List Node
  engine : Engine

/-- The walk comes to the node, with these levels left below it. -/
def Visit.Meets (v : Visit) (levels : Nat) (node : Node) (e : Engine) : Prop :=
  v.levels = levels + 1 ∧ ∃ before after walked, v.nodes = before ++ node :: after ∧
    processEach (process levels) before v.engine = .ok (walked, e)

namespace Modifier

/-- The modifier is opened: its arguments have been evaluated, it is not left alone, and the
point before its content is passed. -/
def Opens (m : Modifier) (e : Engine) (arguments : List Argument)
    (state : m.definition.behaviour.lifecycle.State) (opened : Engine) : Prop :=
  m.expansion = none ∧ ∃ e₁, expandArguments m.arguments e = .ok (arguments, e₁) ∧
    (!e₁.immediate && !m.definition.alwaysExpands) = false ∧
    Expand.reporting (m.definition.behaviour.lifecycle.beforeContent
      { m with arguments := arguments } e₁.immediate) e₁ = .ok (state, opened)

/-- The engine in which the content of an opened modifier is walked. -/
def bodyEngine (m : Modifier) (opened : Engine) : Engine :=
  { opened with delayDepth := opened.delayDepth + m.definition.delaysContent.toNat }

/-- Behind its content, it is decided what the modifier stands for. -/
inductive Decides (m : Modifier) (state : m.definition.behaviour.lifecycle.State) (e : Engine) :
    Processing → Prop
  | intro {prepared decided : m.definition.behaviour.lifecycle.State} {outcome : Outcome}
      {between e' : Engine} :
      Expand.reporting (m.definition.behaviour.lifecycle.prepare m state e.immediate) e
        = .ok (prepared, between) →
      Expand.inContext (m.definition.behaviour.lifecycle.expand m prepared e.immediate) between
        = .ok ((outcome, decided), e') →
      outcome ≠ .defer → Decides m state e ⟨m, decided, outcome.nodes m, e'⟩

def Processes (m : Modifier) (levels : Nat) (e : Engine) (P : Processing) : Prop :=
  ∃ arguments state opened content closed state' later, m.Opens e arguments state opened ∧
    walkContent (process levels) { m with arguments := arguments } opened
      = .ok (content, closed) ∧
    Expand.inContext (m.definition.behaviour.lifecycle.afterContent state) closed
      = .ok (state', later) ∧
    Decides { m with arguments := arguments, content := content } state' later P

end Modifier

namespace Processing

def move (P : Processing) (kind : MacroKind) : Move :=
  P.modifier.definition.behaviour.move kind P.modifier P.state

def Starts (P : Processing) (inside : Engine) : Prop :=
  P.nodes ≠ [] ∧ ∃ state context,
    P.modifier.definition.behaviour.lifecycle.beforeProcessing P.modifier P.state
      P.engine.context = .ok (state, context) ∧
    inside = { P.engine with
      context := context, referring := P.modifier.span :: P.engine.referring }

end Processing

/-- The walks that the walk of `v` itself asks for, each with the processing that starts with
it, if there is one. -/
inductive Visit.Asks (v : Visit) : List Processing → Visit → Prop
  | paragraph {levels : Nat} {span : Span} {content : List Node} {e : Engine} :
      v.Meets levels (.paragraph span content) e → v.Asks [] ⟨levels, content, e⟩
  | content {levels : Nat} {m : Modifier} {e : Engine} {arguments : List Argument}
      {state : m.definition.behaviour.lifecycle.State} {opened : Engine} :
      v.Meets levels (.modifier m) e → m.Opens e arguments state opened → m.content ≠ [] →
      v.Asks [] ⟨levels, m.content, m.bodyEngine opened⟩
  | replacement {levels : Nat} {m : Modifier} {e : Engine} {P : Processing} {inside : Engine} :
      v.Meets levels (.modifier m) e → m.Processes levels e P → P.Starts inside →
      v.Asks [P] ⟨levels, P.nodes, inside⟩

/-- The walks that the walk of `v` asks for at any depth, each with the processings in which it
lies, the outermost first. -/
inductive Visit.Reaches (v : Visit) : List Processing → Visit → Prop
  | start : v.Reaches [] v
  | ask {trail entered : List Processing} {w u : Visit} : v.Reaches trail w →
      w.Asks entered u → v.Reaches (trail ++ entered) u

/-- A walk has one level less than the one that asks for it. -/
theorem Visit.Asks.levels {v w : Visit} {entered : List Processing} (h : v.Asks entered w) :
    v.levels = w.levels + 1 := by
  cases h with
  | paragraph hmet => exact hmet.1
  | content hmet _ _ => exact hmet.1
  | replacement hmet _ _ => exact hmet.1

/-! ### What is asked for is run -/

section Reached

variable {levels : Nat} {walk : Walk} {e e₁ e₂ : Engine} {m : Modifier} {fault : Fault}

theorem processEach_fault {before after walked : List Node} {complete : Bool}
    (h : processEach walk before e = .ok ((walked, complete), e₁))
    (hfault : processEach walk after e₁ = .error fault) :
    processEach walk (before ++ after) e = .error fault := by
  induction before generalizing e walked complete with
  | nil =>
    cases h
    exact hfault
  | cons node rest ih =>
    obtain ⟨r, e', hnode, h⟩ := ok_of_bind h
    obtain ⟨r', e'', hrest, h⟩ := ok_of_bind h
    cases h
    refine (bind_of_ok hnode).trans ?_
    exact bind_of_error (ih hrest)

theorem processEach_snoc {before walked : List Node} {node node' : Node} {complete others : Bool}
    (h : processEach walk before e = .ok ((walked, complete), e₁))
    (hnode : processNode walk node e₁ = .ok ((node', others), e₂)) :
    ∃ r, processEach walk (before ++ [node]) e = .ok (r, e₂) := by
  induction before generalizing e walked complete with
  | nil =>
    cases h
    exact ⟨_, bind_of_ok hnode⟩
  | cons first rest ih =>
    obtain ⟨r, e', hfirst, h⟩ := ok_of_bind h
    obtain ⟨r', e'', hrest, h⟩ := ok_of_bind h
    cases h
    obtain ⟨r'', hr⟩ := ih hrest
    exact ⟨_, (bind_of_ok hfirst).trans (bind_of_ok hr)⟩

/-- A fault at a node that is met is a fault of the walk. -/
theorem Visit.Meets.fails {v : Visit} {node : Node} (h : v.Meets levels node e)
    (hfault : processNode (process levels) node e = .error fault) :
    process v.levels v.nodes v.engine = .error fault := by
  obtain ⟨hlevels, before, after, walked, hnodes, hbefore⟩ := h
  rw [hlevels, hnodes]
  exact processEach_fault hbefore (bind_of_error hfault)

theorem expandGenerated_of_opens {arguments : List Argument}
    {state : m.definition.behaviour.lifecycle.State} {opened : Engine}
    (h : m.Opens e arguments state opened) :
    expandGenerated walk m e = (do
      let content ← walkContent walk { m with arguments := arguments }
      let state ← Expand.inContext (m.definition.behaviour.lifecycle.afterContent state)
      finishModifier walk false { m with arguments := arguments, content := content } state)
        opened := by
  obtain ⟨hnone, e₁, harguments, hdelayed, hopened⟩ := h
  have hwaits : ¬ m.expansion.isSome = true := by simp [hnone]
  rw [expandGenerated, if_neg hwaits, bind_of_ok harguments]
  have hhere : Modifier.isDelayed { m with arguments := arguments } e₁ = .ok (false, e₁) := by
    rw [← hdelayed]
    rfl
  rw [bind_of_ok hhere, if_neg Bool.false_ne_true]
  exact (bind_of_ok (x := Expand.immediate) rfl).trans (bind_of_ok hopened)

theorem finishModifier_fault {state : m.definition.behaviour.lifecycle.State} {P : Processing}
    {outermost : Bool} (h : m.Decides state e P)
    (hfault : processNodes walk outermost P.modifier P.state P.nodes P.engine = .error fault) :
    finishModifier walk outermost m state e = .error fault := by
  cases h with
  | intro hprepare hexpand hdefer =>
    refine (bind_of_ok (x := Expand.immediate) rfl).trans ?_
    refine (bind_of_ok hprepare).trans ((bind_of_ok hexpand).trans ?_)
    rename_i outcome _ _
    cases outcome with
    | defer => exact absurd rfl hdefer
    | keep => exact bind_of_error hfault
    | replace nodes => exact bind_of_error hfault

theorem processNodes_fault {P : Processing} {inside : Engine} {outermost : Bool}
    (h : P.Starts inside) (hfault : walk P.nodes inside = .error fault) :
    processNodes walk outermost P.modifier P.state P.nodes P.engine = .error fault := by
  obtain ⟨hnonempty, state, context, hbefore, rfl⟩ := h
  have hnodes : ¬ P.nodes.isEmpty = true := by simpa using hnonempty
  rw [processNodes, if_neg hnodes]
  have hentered : Expand.inContext (P.modifier.definition.behaviour.lifecycle.beforeProcessing
      P.modifier P.state) P.engine = .ok (state, { P.engine with context := context }) := by
    simp only [Expand.inContext, hbefore, bind, Except.bind]
    rfl
  rw [bind_of_ok hentered]
  refine (bind_of_ok (x := Expand.enterReplacement P.modifier.span) rfl).trans ?_
  exact bind_of_error hfault

/-- **What is asked for is run**: a fault there is a fault of the whole walk. -/
theorem Visit.Asks.fails {v w : Visit} {entered : List Processing} (h : v.Asks entered w)
    (hfault : process w.levels w.nodes w.engine = .error fault) :
    process v.levels v.nodes v.engine = .error fault := by
  cases h with
  | paragraph hmet => exact hmet.fails (bind_of_error hfault)
  | @content levels m e arguments state opened hmet hopens hcontent =>
    refine hmet.fails (bind_of_error ?_)
    rw [expandGenerated_of_opens hopens]
    have hnonempty : ¬ m.content.isEmpty = true := by simpa using hcontent
    refine bind_of_error ?_
    rw [walkContent, if_neg hnonempty]
    refine (bind_of_ok (x := Expand.enterBody m.definition.delaysContent) rfl).trans ?_
    exact bind_of_error hfault
  | replacement hmet hprocesses hstarts =>
    obtain ⟨arguments, state, opened, content, closed, state', later, hopens, hcontent, hafter,
      hdecides⟩ := hprocesses
    refine hmet.fails (bind_of_error ?_)
    rw [expandGenerated_of_opens hopens, bind_of_ok hcontent, bind_of_ok hafter]
    exact finishModifier_fault hdecides (processNodes_fault hstarts hfault)

theorem Visit.Reaches.fails {v w : Visit} {trail : List Processing} (h : v.Reaches trail w)
    (hfault : process w.levels w.nodes w.engine = .error fault) :
    process v.levels v.nodes v.engine = .error fault := by
  induction h with
  | start => exact hfault
  | ask _ hasks ih => exact ih (hasks.fails hfault)

/-! ### Nothing else is run -/

theorem walkContent_congr {opened : Engine}
    (h : m.content ≠ [] → walk m.content (m.bodyEngine opened)
      = process levels m.content (m.bodyEngine opened)) :
    walkContent walk m opened = walkContent (process levels) m opened := by
  simp only [walkContent]
  by_cases hempty : m.content.isEmpty = true
  · rw [if_pos hempty, if_pos hempty]
  · rw [if_neg hempty, if_neg hempty]
    refine bind_congr_of_ok fun _ e₁ hentered => ?_
    cases hentered
    exact bind_congr_left (h (by simpa using hempty))

theorem processNodes_congr {P : Processing} {outermost : Bool}
    (h : ∀ inside, P.Starts inside → walk P.nodes inside = process levels P.nodes inside) :
    processNodes walk outermost P.modifier P.state P.nodes P.engine
      = processNodes (process levels) outermost P.modifier P.state P.nodes P.engine := by
  simp only [processNodes]
  by_cases hempty : P.nodes.isEmpty = true
  · rw [if_pos hempty, if_pos hempty]
  · rw [if_neg hempty, if_neg hempty]
    refine bind_congr_of_ok fun state e₁ hentered => ?_
    obtain ⟨context, hbefore, rfl⟩ := ok_of_inContext hentered
    refine bind_congr_of_ok fun _ e₂ hentered => ?_
    cases hentered
    exact bind_congr_left (h _ ⟨by simpa using hempty, state, context, hbefore, rfl⟩)

theorem finishModifier_congr {state : m.definition.behaviour.lifecycle.State} {outermost : Bool}
    (h : ∀ P inside, m.Decides state e P → P.Starts inside →
      walk P.nodes inside = process levels P.nodes inside) :
    finishModifier walk outermost m state e
      = finishModifier (process levels) outermost m state e := by
  refine bind_congr_of_ok fun immediate e' himmediate => ?_
  cases himmediate
  refine bind_congr_of_ok fun prepared between hprepare => ?_
  refine bind_congr_of_ok fun decision e' hexpand => ?_
  obtain ⟨outcome, decided⟩ := decision
  have hdecides := fun houtcome => Modifier.Decides.intro hprepare hexpand houtcome
  cases outcome with
  | defer => rfl
  | keep =>
    exact bind_congr_left (processNodes_congr (P := ⟨m, decided, m.content, e'⟩)
      fun inside => h _ inside (hdecides (by simp)))
  | replace nodes =>
    exact bind_congr_left (processNodes_congr (P := ⟨m, decided, nodes, e'⟩)
      fun inside => h _ inside (hdecides (by simp)))

theorem expandGenerated_congr
    (hcontent : ∀ arguments state opened, m.Opens e arguments state opened → m.content ≠ [] →
      walk m.content (m.bodyEngine opened) = process levels m.content (m.bodyEngine opened))
    (hnodes : ∀ P inside, m.Processes levels e P → P.Starts inside →
      walk P.nodes inside = process levels P.nodes inside) :
    expandGenerated walk m e = expandGenerated (process levels) m e := by
  simp only [expandGenerated]
  by_cases hsome : m.expansion.isSome = true
  · rw [if_pos hsome, if_pos hsome]
  rw [if_neg hsome, if_neg hsome]
  refine bind_congr_of_ok fun arguments e₁ harguments => ?_
  refine bind_congr_of_ok fun delayed e₁' hdelayed => ?_
  cases hdelayed
  by_cases halone : (!e₁.immediate && !m.definition.alwaysExpands) = true
  · rw [if_pos halone, if_pos halone]
  rw [if_neg halone, if_neg halone]
  refine bind_congr_of_ok fun immediate e₁' himmediate => ?_
  cases himmediate
  refine bind_congr_of_ok fun state opened hopened => ?_
  have hopens : m.Opens e arguments state opened :=
    ⟨by simpa using hsome, e₁, harguments, by simpa using halone, hopened⟩
  have hsame : walkContent walk { m with arguments := arguments } opened
      = walkContent (process levels) { m with arguments := arguments } opened :=
    walkContent_congr (hcontent arguments state opened hopens)
  refine (bind_congr_left hsame).trans (bind_congr_of_ok fun content closed hwalked => ?_)
  refine bind_congr_of_ok fun state' later hafter => ?_
  refine finishModifier_congr fun P inside hdecides => hnodes P inside ?_
  exact ⟨arguments, state, opened, content, closed, state', later, hopens, hwalked, hafter,
    hdecides⟩

/-- **Nothing else is run**: if the walks that are asked for do the same, the whole ends the
same. -/
theorem processEach_congr {v : Visit} (hlevels : v.levels = levels + 1)
    (h : ∀ entered nodes e, v.Asks entered ⟨levels, nodes, e⟩ →
      walk nodes e = process levels nodes e) :
    processEach walk v.nodes v.engine = process v.levels v.nodes v.engine := by
  have hrest : ∀ (rest before walked : List Node) (complete : Bool) (e : Engine),
      v.nodes = before ++ rest →
      processEach (process levels) before v.engine = .ok ((walked, complete), e) →
      processEach walk rest e = processEach (process levels) rest e := by
    intro rest
    induction rest with
    | nil => exact fun _ _ _ _ _ _ => rfl
    | cons node rest ih =>
      intro before walked complete e hnodes hbefore
      have hmet : v.Meets levels node e := ⟨hlevels, before, rest, _, hnodes, hbefore⟩
      have hnode : processNode walk node e = processNode (process levels) node e := by
        cases node with
        | paragraph span content =>
          exact bind_congr_left (h _ _ _ (.paragraph hmet))
        | modifier m =>
          refine bind_congr_left (expandGenerated_congr ?_ ?_)
          · exact fun _ _ _ hopens hcontent => h _ _ _ (.content hmet hopens hcontent)
          · exact fun _ _ hprocesses hstarts => h _ _ _ (.replacement hmet hprocesses hstarts)
        | text _ _ => rfl
        | escaped _ _ => rfl
        | preformatted _ _ _ => rfl
      refine (bind_congr_left hnode).trans (bind_congr_of_ok fun r e' hr => ?_)
      obtain ⟨answer, hsnoc⟩ := processEach_snoc hbefore hr
      refine bind_congr_left (ih (before ++ [node]) answer.1 answer.2 e' ?_ hsnoc)
      rw [hnodes, List.append_assoc, List.singleton_append]
  rw [hlevels]
  exact hrest v.nodes [] [] true v.engine rfl rfl

end Reached

/-! ### Stacks of invocations on the way -/

section Frames

variable {levels : Nat} {e : Engine} {m : Modifier}

theorem Visit.Meets.frames {v : Visit} {node : Node} (h : v.Meets levels node e) :
    e.context.frames = v.engine.context.frames := by
  obtain ⟨-, before, _, _, _, hbefore⟩ := h
  have hw := upholds_processEach upholds_frames (keepsFrames_process levels)
  exact ((hw before v.engine trivial).of_ok hbefore).keeps

theorem Step.KeepsFrames.of_reporting {α : Type} {step : Step (α × List Message)}
    (h : step.KeepsFrames) {e e' : Engine} {a : α} (hrun : Expand.reporting step e = .ok (a, e')) :
    e'.context.frames = e.context.frames := by
  have hreports := @upholds_reporting .frames _ e (fun _ _ => True) step (h e.context trivial)
  exact (hreports.of_ok hrun).1.keeps

theorem Step.KeepsFrames.of_inContext {α : Type} {step : Step α} (h : step.KeepsFrames)
    {e e' : Engine} {a : α} (hrun : Expand.inContext step e = .ok (a, e')) :
    e'.context.frames = e.context.frames := by
  have hacts := @upholds_inContext .frames _ e (fun _ _ => True) step (h e.context trivial)
  exact (hacts.of_ok hrun).1.keeps

theorem Modifier.Opens.frames {arguments : List Argument}
    {state : m.definition.behaviour.lifecycle.State} {opened : Engine}
    (h : m.Opens e arguments state opened) : opened.context.frames = e.context.frames := by
  obtain ⟨-, e₁, harguments, -, hopened⟩ := h
  obtain ⟨⟨⟨⟨emitted, rfl⟩, -⟩, -⟩, -, -⟩ := (@ensures_expandArguments anyFault m.arguments e
    fun _ _ => trivial).of_ok harguments
  have hkept := ((keepsFrames m.definition.behaviour).beforeContent _ _).of_reporting hopened
  exact hkept

theorem Modifier.Decides.frames {state : m.definition.behaviour.lifecycle.State}
    {P : Processing} (h : m.Decides state e P) :
    P.engine.context.frames = e.context.frames := by
  have hlife := keepsFrames m.definition.behaviour
  cases h with
  | intro hprepare hexpand hdefer =>
    have hbetween := (hlife.prepare _ _ _).of_reporting hprepare
    exact ((hlife.expand _ _ _).of_inContext hexpand).trans hbetween

theorem Modifier.Processes.frames {P : Processing} (h : m.Processes levels e P) :
    P.engine.context.frames = e.context.frames := by
  obtain ⟨arguments, state, opened, content, closed, state', later, hopens, hcontent, hafter,
    hdecides⟩ := h
  have hclosed := (upholds_walkContent (keepsFrames_process levels) trivial).of_ok hcontent
  have hlater := ((keepsFrames m.definition.behaviour).afterContent _).of_inContext hafter
  exact hdecides.frames.trans (hlater.trans (hclosed.keeps.trans hopens.frames))

theorem Processing.Starts.frames {P : Processing} {inside : Engine} (h : P.Starts inside)
    (kind : MacroKind) :
    inside.context.frames kind = (P.move kind).follow id (P.engine.context.frames kind) := by
  obtain ⟨-, state, context, hbefore, rfl⟩ := h
  exact ((moves P.modifier.definition.behaviour P.modifier P.state _).of_ok hbefore).1 kind

end Frames

end MacroMarkup
