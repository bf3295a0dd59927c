import MacroMarkup.Proofs.Places

/-!
# The scenes of a parse

Whatever a parse does to its context it does at the points of lifecycles, and these points are
nested: between the point at which a modifier begins its life and the one at which it ends,
other modifiers live whole lives.  A `Scene` is a context with the modifiers that are alive
there, and `Scene.Step` is one point of one lifecycle.

* `Behaviour.visits`: the modules that a point makes visible; each step is labelled with them.
* `Scene.Goes`: steps one after another, with all their labels.
* `Context.Leads`: steps that end with the modifiers that were alive at their start.
* `leads_process`, `World.scenes`: **walking and reading are such steps.**
* `Reader.Onward`: places where a parse reads one after another; `Onward.goes`.
* `Context.Reads.goes`, `Context.Walks.goes`, `Context.goes_parse`: steps that lead to the places
  of a parse, and to its end.
-/

namespace MacroMarkup

open Parse

/-- A modifier whose life has begun. -/
structure Alive where
  behaviour : Behaviour
  state : behaviour.lifecycle.State
  /-- Its content lies behind. -/
  closed : Bool

/-- A context and the modifiers that are alive there, innermost first. -/
structure Scene where
  alive : List Alive
  context : Context

/-- The modules that a modifier makes visible when it comes to have the state: the one that it
opens or uses. -/
def Behaviour.visits (m : Modifier) : (b : Behaviour) → b.lifecycle.State → List String
  | .recordModule => fun state : Option (String × Registries) => (state.map Prod.fst).toList
  | .useInside => fun state : Option Registries =>
    if state.isSome then m.arguments.map (·.text) else []
  | .useFromHere => fun state : Option Registries =>
    if state.isSome then m.arguments.map (·.text) else []
  | _ => fun _ => []

namespace Scene

/-- One point of the life of a modifier, labelled with the modules that it makes visible. -/
inductive Step : Scene → List String → Scene → Prop
  | opens {alive : List Alive} {cx cx' : Context} {b : Behaviour} {m : Modifier}
      {immediate : Bool} {state : b.lifecycle.State} {messages : List Message} :
      b.lifecycle.beforeContent m immediate cx = .ok ((state, messages), cx') →
      Step ⟨alive, cx⟩ (b.visits m state) ⟨⟨b, state, false⟩ :: alive, cx'⟩
  | closes {alive : List Alive} {cx cx' : Context} {b : Behaviour}
      {state state' : b.lifecycle.State} :
      b.lifecycle.afterContent state cx = .ok (state', cx') →
      Step ⟨⟨b, state, false⟩ :: alive, cx⟩ [] ⟨⟨b, state', true⟩ :: alive, cx'⟩
  | prepares {alive : List Alive} {cx cx' : Context} {b : Behaviour} {m : Modifier}
      {immediate : Bool} {state state' : b.lifecycle.State} {messages : List Message} :
      b.lifecycle.prepare m state immediate cx = .ok ((state', messages), cx') →
      Step ⟨⟨b, state, true⟩ :: alive, cx⟩ (b.visits m state') ⟨⟨b, state', true⟩ :: alive, cx'⟩
  | expands {alive : List Alive} {cx cx' : Context} {b : Behaviour} {m : Modifier}
      {immediate : Bool} {state state' : b.lifecycle.State} {outcome : Outcome} :
      b.lifecycle.expand m state immediate cx = .ok ((outcome, state'), cx') →
      Step ⟨⟨b, state, true⟩ :: alive, cx⟩ [] ⟨⟨b, state', true⟩ :: alive, cx'⟩
  | enters {alive : List Alive} {cx cx' : Context} {b : Behaviour} {m : Modifier}
      {state state' : b.lifecycle.State} :
      b.lifecycle.beforeProcessing m state cx = .ok (state', cx') →
      Step ⟨⟨b, state, true⟩ :: alive, cx⟩ [] ⟨⟨b, state', true⟩ :: alive, cx'⟩
  | leaves {alive : List Alive} {cx cx' : Context} {b : Behaviour} {state : b.lifecycle.State} :
      b.lifecycle.afterProcessing state cx = .ok ((), cx') →
      Step ⟨⟨b, state, true⟩ :: alive, cx⟩ [] ⟨alive, cx'⟩
  /-- A life ends without processing. -/
  | ends {alive : List Alive} {cx : Context} {b : Behaviour} {state : b.lifecycle.State} :
      Step ⟨⟨b, state, true⟩ :: alive, cx⟩ [] ⟨alive, cx⟩

/-- Steps one after another, and the modules that they make visible. -/
inductive Goes (s : Scene) : List String → Scene → Prop
  | stays : s.Goes [] s
  | step {names more : List String} {s' s'' : Scene} : s.Goes names s' → s'.Step more s'' →
      s.Goes (names ++ more) s''

variable {s s' s'' : Scene} {names more : List String}

theorem Step.goes (h : s.Step names s') : s.Goes names s' := Goes.stays.step h

theorem Goes.trans (h : s.Goes names s') (g : s'.Goes more s'') : s.Goes (names ++ more) s'' := by
  induction g with
  | stays => rwa [List.append_nil]
  | step _ hstep ih =>
    rw [← List.append_assoc]
    exact ih.step hstep

end Scene

/-- Steps lead from the first context, where the modifiers `before` are alive, to the second,
where `after` are, whatever else is alive around them. -/
def Context.Leads (before after : List Alive) (cx cx' : Context) : Prop :=
  ∃ names, ∀ alive, Scene.Goes ⟨before ++ alive, cx⟩ names ⟨after ++ alive, cx'⟩

section Leads

variable {before between after : List Alive} {cx cx' cx'' : Context}

theorem Context.Leads.refl : cx.Leads before before cx := ⟨[], fun _ => .stays⟩

theorem Context.Leads.trans (h : cx.Leads before between cx') (g : cx'.Leads between after cx'') :
    cx.Leads before after cx'' := by
  obtain ⟨names, h⟩ := h
  obtain ⟨more, g⟩ := g
  exact ⟨names ++ more, fun alive => (h alive).trans (g alive)⟩

/-- Steps lead on in the same way where one more modifier is alive. -/
theorem Context.Leads.inside {a : Alive} (h : cx.Leads [] [] cx') : cx.Leads [a] [a] cx' := by
  obtain ⟨names, h⟩ := h
  exact ⟨names, fun alive => h (a :: alive)⟩

theorem Context.leads_of_step {names : List String}
    (h : ∀ alive, Scene.Step ⟨before ++ alive, cx⟩ names ⟨after ++ alive, cx'⟩) :
    cx.Leads before after cx' :=
  ⟨names, fun alive => (h alive).goes⟩

end Leads

/-! ### The points of a life -/

section Points

variable {e : Engine} {b : Behaviour} {m : Modifier} {immediate : Bool} {state : b.lifecycle.State}

theorem ensures_of_run {σ α : Type} {x : StateT σ (Except Fault) α} {s : σ}
    {post : α → σ → Prop} (h : ∀ a s', x s = .ok (a, s') → post a s') :
    Ensures anyFault x s post :=
  ensures_iff.mpr ⟨h, fun _ _ => trivial⟩

theorem leads_opens : Ensures anyFault (Expand.reporting (b.lifecycle.beforeContent m immediate)) e
    fun state e' => e.context.Leads [] [⟨b, state, false⟩] e'.context :=
  ensures_reporting.mpr (ensures_of_run fun _ _ hrun =>
    Context.leads_of_step fun _ => .opens hrun)

theorem leads_closes : Ensures anyFault (Expand.inContext (b.lifecycle.afterContent state)) e
    fun state' e' => e.context.Leads [⟨b, state, false⟩] [⟨b, state', true⟩] e'.context :=
  ensures_inContext.mpr (ensures_of_run fun _ _ hrun =>
    Context.leads_of_step fun _ => .closes hrun)

theorem leads_prepares :
    Ensures anyFault (Expand.reporting (b.lifecycle.prepare m state immediate)) e
      fun state' e' => e.context.Leads [⟨b, state, true⟩] [⟨b, state', true⟩] e'.context :=
  ensures_reporting.mpr (ensures_of_run fun _ _ hrun =>
    Context.leads_of_step fun _ => .prepares hrun)

theorem leads_expands :
    Ensures anyFault (Expand.inContext (b.lifecycle.expand m state immediate)) e
      fun d e' => e.context.Leads [⟨b, state, true⟩] [⟨b, d.2, true⟩] e'.context :=
  ensures_inContext.mpr (ensures_of_run fun _ _ hrun =>
    Context.leads_of_step fun _ => .expands hrun)

theorem leads_enters :
    Ensures anyFault (Expand.inContext (b.lifecycle.beforeProcessing m state)) e
      fun state' e' => e.context.Leads [⟨b, state, true⟩] [⟨b, state', true⟩] e'.context ∧
        e'.referring = e.referring :=
  ensures_inContext.mpr (ensures_of_run fun _ _ hrun =>
    ⟨Context.leads_of_step fun _ => .enters hrun, rfl⟩)

theorem leads_leaves : Ensures anyFault (Expand.inContext (b.lifecycle.afterProcessing state)) e
    fun _ e' => e.context.Leads [⟨b, state, true⟩] [] e'.context :=
  ensures_inContext.mpr (ensures_of_run fun _ _ hrun =>
    Context.leads_of_step fun _ => .leaves hrun)

theorem leads_ends : e.context.Leads [⟨b, state, true⟩] [] e.context :=
  Context.leads_of_step fun _ => .ends

end Points

/-! ### Walks -/

def Walk.Leads (walk : Walk) : Prop :=
  ∀ nodes e, Ensures anyFault (walk nodes) e fun _ e' => e.context.Leads [] [] e'.context

section Walks

variable {walk : Walk} {e : Engine} {m : Modifier} {outermost : Bool}
  {state : m.definition.behaviour.lifecycle.State}

theorem leads_processNodes (hw : walk.Leads) (nodes : List Node) :
    Ensures anyFault (processNodes walk outermost m state nodes) e
      fun _ e' => e.context.Leads [⟨_, state, true⟩] [] e'.context := by
  rw [ensures_processNodes_iff]
  refine ⟨fun _ => leads_ends, fun _ => ?_⟩
  refine leads_enters.mono ?_
  intro state' inside henters
  refine (hw nodes { inside with referring := m.span :: inside.referring }).mono ?_
  intro answer later hwalks
  refine ensures_leaveReplacement_any fun outer => ?_
  refine leads_leaves.mono ?_
  intro _ outside hleaves
  have hleads := henters.1.trans (hwalks.inside.trans hleaves)
  exact ⟨fun _ => hleads, fun _ => hleads⟩

theorem leads_finishModifier (hw : walk.Leads) :
    Ensures anyFault (finishModifier walk outermost m state) e
      fun _ e' => e.context.Leads [⟨_, state, true⟩] [] e'.context := by
  rw [ensures_finishModifier_iff]
  refine leads_prepares.mono ?_
  intro prepared between hprepares
  refine leads_expands.mono ?_
  intro answer decided hexpands
  obtain ⟨outcome, state'⟩ := answer
  have hleads := hprepares.trans hexpands
  cases outcome with
  | defer => exact hleads.trans leads_ends
  | keep => exact (leads_processNodes hw m.content).mono fun _ _ h => hleads.trans h
  | replace nodes =>
    refine (leads_processNodes hw nodes).mono ?_
    intro answer e' h
    exact ⟨fun _ => hleads.trans h, fun _ => hleads.trans h⟩

theorem leads_expandRead (hw : walk.Leads) :
    Ensures anyFault (expandRead walk m state) e
      fun _ e' => e.context.Leads [⟨_, state, true⟩] [] e'.context :=
  ensures_expandRead_iff.mpr ⟨fun _ => leads_ends, fun _ => leads_finishModifier hw⟩

theorem leads_walkContent (hw : walk.Leads) :
    Ensures anyFault (walkContent walk m) e
      fun _ e' => e.context.Leads [] [] e'.context := by
  rw [ensures_walkContent_iff]
  refine ⟨fun _ => .refl, fun _ => (hw m.content { e with
    delayDepth := e.delayDepth + m.definition.delaysContent.toNat }).mono ?_⟩
  intro _ _ h
  exact ⟨fun _ => h, fun _ => h⟩

theorem leads_expandGenerated (hw : walk.Leads) :
    Ensures anyFault (expandGenerated walk m) e
      fun _ e' => e.context.Leads [] [] e'.context := by
  rw [ensures_expandGenerated_iff]
  refine ⟨fun _ => .refl, fun _ => ?_⟩
  refine (ensures_expandArguments m.arguments e fun _ _ => trivial).mono ?_
  intro arguments e₁ hanswer
  obtain ⟨⟨hreports, -⟩, -, -⟩ := hanswer
  rw [← hreports.context]
  refine ⟨fun _ => .refl, fun _ => ?_⟩
  refine leads_opens.mono ?_
  intro state opened hopens
  refine (leads_walkContent hw).mono ?_
  intro content closed hwalks
  refine leads_closes.mono ?_
  intro state' later hcloses
  refine (leads_finishModifier hw
    (m := { m with arguments := arguments, content := content })).mono ?_
  exact fun _ _ h => hopens.trans (hwalks.inside.trans (hcloses.trans h))

theorem leads_processNode (hw : walk.Leads) (node : Node) :
    Ensures anyFault (processNode walk node) e
      fun _ e' => e.context.Leads [] [] e'.context := by
  cases node with
  | paragraph span content => exact ensures_processNode_paragraph.mpr (hw content e)
  | modifier m => exact ensures_processNode_modifier.mpr (leads_expandGenerated hw)
  | text _ _ => exact .refl
  | escaped _ _ => exact .refl
  | preformatted _ _ _ => exact .refl

theorem leads_processEach (hw : walk.Leads) : Walk.Leads (processEach walk) := by
  intro nodes
  induction nodes with
  | nil => exact fun e => .refl
  | cons node rest ih =>
    intro e
    rw [ensures_processEach_cons]
    refine (leads_processNode hw node).mono ?_
    intro answer e₁ h₁
    exact (ih e₁).mono fun _ _ h => h₁.trans h

/-- **Every walk is steps**, however deep it goes. -/
theorem leads_process (levels : Nat) : Walk.Leads (process levels) := by
  induction levels with
  | zero => exact fun nodes e => .refl
  | succ levels ih => exact leads_processEach ih

end Walks

/-! ### Reading -/

def World.scenes : World where
  allows := anyFault
  Sound _ := True
  Fits _ _ := True
  Yields e _ e' := e.context.Leads [] [] e'.context
  readable _ := World.anything.readable (e := .start _) trivial
  fits _ _ := trivial
  sound _ := trivial
  leaves _ _ := .refl
  earlier h hyields := by rwa [← h.context]
  later hyields h := by rwa [h.context]
  append h h' := h.trans h'
  same h _ := h
  paragraph _ h := h
  modifier _ _ _ _ _ _ := by
    refine leads_opens.mono ?_
    intro state opened hopens
    refine ⟨trivial, fun content later span hreads _ => ?_⟩
    refine leads_closes.mono ?_
    intro state' outside hcloses
    refine (leads_expandRead (leads_process _)).mono ?_
    exact fun _ _ h => hopens.trans (hreads.inside.trans (hcloses.trans h))

/-! ### The places of a parse -/

section Places

variable {cx : Context} {m : Modifier}

theorem Reader.Gets.leads {r r' : Reader} {nodes : List Node} (h : r.Gets nodes r') :
    r.engine.context.Leads [] [] r'.engine.context :=
  h.yields (W := .scenes) trivial

theorem Modifier.OpensAt.leads {r r' : Reader} {state : m.definition.behaviour.lifecycle.State}
    (h : m.OpensAt r state r') :
    r.engine.context.Leads [] [⟨_, state, false⟩] r'.engine.context := by
  obtain ⟨kind, head, r₁, opened, hhead, rfl, hopened, rfl⟩ := h
  obtain ⟨hscans, -⟩ := (ensures_readHead (World.scenes.readable trivial)).of_ok hhead
  have hleads := leads_opens.of_ok hopened
  rwa [hscans.reports.context] at hleads

theorem Modifier.ClosesAt.leads {r : Reader} {e : Engine} {span : Span} {content : List Node}
    {state state' : m.definition.behaviour.lifecycle.State}
    (h : m.ClosesAt r state span content state' e) :
    r.engine.context.Leads [⟨_, state, false⟩] [⟨_, state', true⟩] e.context := by
  obtain ⟨r', hgets, -, hafter, -⟩ := h
  have hcloses := leads_closes.of_ok hafter
  exact hgets.leads.inside.trans hcloses

/-- **Steps lead to every place where a parse reads.** -/
theorem Context.Reads.goes {r : Reader} (h : cx.Reads r) :
    ∃ alive names, Scene.Goes ⟨[], cx⟩ names ⟨alive, r.engine.context⟩ := by
  induction h with
  | start source inspectors => exact ⟨[], [], .stays⟩
  | scan _ hscans ih =>
    rw [hscans.reports.context]
    exact ih
  | grouped _ _ ih => exact ih
  | behind _ hgets ih =>
    obtain ⟨alive, names, ih⟩ := ih
    obtain ⟨more, hmore⟩ := hgets.leads
    exact ⟨alive, names ++ more, ih.trans (hmore alive)⟩
  | body _ hopens ih =>
    obtain ⟨alive, names, ih⟩ := ih
    obtain ⟨more, hmore⟩ := hopens.leads
    exact ⟨_, names ++ more, ih.trans (hmore alive)⟩

/-- Places where a parse reads one after another, with the modifiers whose bodies are read there:
the first is left behind text and whole constructs, and bodies are entered and left. -/
inductive Reader.Onward (alive : List Alive) (r : Reader) : List Alive → Reader → Prop
  | here : r.Onward alive alive r
  | scan {inside : List Alive} {r' r'' : Reader} : r.Onward alive inside r' → r'.Scans r'' →
    r.Onward alive inside r''
  | grouped {inside : List Alive} {r' : Reader} (openGroups : Nat) : r.Onward alive inside r' →
    r.Onward alive inside { r' with openGroups := openGroups }
  | behind {inside : List Alive} {r' r'' : Reader} {nodes : List Node} :
    r.Onward alive inside r' → r'.Gets nodes r'' → r.Onward alive inside r''
  | enters {inside : List Alive} {m : Modifier} {r' r'' : Reader}
      {state : m.definition.behaviour.lifecycle.State} :
    r.Onward alive inside r' → m.OpensAt r' state r'' →
    r.Onward alive (⟨_, state, false⟩ :: inside) r''
  /-- Behind the body of a modifier, which is expanded there. -/
  | leaves {inside : List Alive} {m m' : Modifier} {r' r'' : Reader} {e e' : Engine} {span : Span}
      {content : List Node} {state state' : m.definition.behaviour.lifecycle.State}
      {complete : Bool} :
    r.Onward alive (⟨_, state, false⟩ :: inside) r' → m.ClosesAt r' state span content state' e →
    expandRead (process e.levels) { m with span := span, content := content } state' e
      = .ok ((m', complete), e') →
    r.Onward alive inside { r'' with engine := e' }

/-- **Reading on is steps.** -/
theorem Reader.Onward.goes {alive inside : List Alive} {r r' : Reader}
    (h : r.Onward alive inside r') :
    ∃ names, Scene.Goes ⟨alive, r.engine.context⟩ names ⟨inside, r'.engine.context⟩ := by
  induction h with
  | here => exact ⟨[], .stays⟩
  | scan _ hscans ih =>
    rw [hscans.reports.context]
    exact ih
  | grouped _ _ ih => exact ih
  | behind _ hgets ih =>
    obtain ⟨names, ih⟩ := ih
    obtain ⟨more, hmore⟩ := hgets.leads
    exact ⟨names ++ more, ih.trans (hmore _)⟩
  | enters _ hopens ih =>
    obtain ⟨names, ih⟩ := ih
    obtain ⟨more, hmore⟩ := hopens.leads
    exact ⟨names ++ more, ih.trans (hmore _)⟩
  | @leaves inside m m' r' r'' e e' span content state state' complete _ hcloses hexpands ih =>
    obtain ⟨names, ih⟩ := ih
    have hexpanded : e.context.Leads [⟨_, state', true⟩] [] e'.context :=
      (leads_expandRead (m := { m with span := span, content := content })
        (leads_process _)).of_ok hexpands
    obtain ⟨more, hmore⟩ := hcloses.leads.trans hexpanded
    exact ⟨names ++ more, ih.trans (hmore _)⟩

theorem Visit.Meets.leads {v : Visit} {levels : Nat} {node : Node} {e : Engine}
    (h : v.Meets levels node e) : v.engine.context.Leads [] [] e.context := by
  obtain ⟨-, before, after, walked, -, hbefore⟩ := h
  exact (leads_processEach (leads_process levels) before v.engine).of_ok hbefore

theorem Modifier.Opens.leads {e opened : Engine} {arguments : List Argument}
    {state : m.definition.behaviour.lifecycle.State} (h : m.Opens e arguments state opened) :
    e.context.Leads [] [⟨_, state, false⟩] opened.context := by
  obtain ⟨-, e₁, harguments, -, hopened⟩ := h
  obtain ⟨⟨hreports, -⟩, -, -⟩ := (@ensures_expandArguments anyFault m.arguments e
    fun _ _ => trivial).of_ok harguments
  rw [← hreports.context]
  exact leads_opens.of_ok hopened

theorem Modifier.Decides.leads {e inside : Engine} {P : Processing}
    {state : m.definition.behaviour.lifecycle.State} (h : m.Decides state e P)
    (hstarts : P.Starts inside) :
    ∃ after, e.context.Leads [⟨_, state, true⟩] after inside.context := by
  cases h with
  | intro hprepare hexpand _ =>
    obtain ⟨-, state', context, hbefore, rfl⟩ := hstarts
    have henters : Context.Leads [⟨_, _, true⟩] [⟨_, state', true⟩] _ context :=
      Context.leads_of_step fun _ => .enters hbefore
    exact ⟨_, (leads_prepares.of_ok hprepare).trans ((leads_expands.of_ok hexpand).trans henters)⟩

theorem Visit.Asks.leads {v w : Visit} {entered : List Processing} (h : v.Asks entered w) :
    ∃ after, v.engine.context.Leads [] after w.engine.context := by
  cases h with
  | paragraph hmet => exact ⟨[], hmet.leads⟩
  | content hmet hopens _ => exact ⟨_, hmet.leads.trans hopens.leads⟩
  | @replacement levels m e P inside hmet hprocesses hstarts =>
    obtain ⟨arguments, state, opened, content, closed, state', later, hopens, hcontent, hafter,
      hdecides⟩ := hprocesses
    have hwalks := (leads_walkContent (leads_process levels)).of_ok hcontent
    obtain ⟨after, hdecided⟩ := hdecides.leads hstarts
    exact ⟨after, hmet.leads.trans (hopens.leads.trans
      (hwalks.inside.trans ((leads_closes.of_ok hafter).trans hdecided)))⟩

/-- **Steps lead to every walk of a parse.** -/
theorem Context.Walks.goes {v : Visit} (h : cx.Walks v) :
    ∃ alive names, Scene.Goes ⟨[], cx⟩ names ⟨alive, v.engine.context⟩ := by
  induction h with
  | read hreads hopens hcloses hdecides hstarts =>
    obtain ⟨alive, names, hgoes⟩ := hreads.goes
    obtain ⟨after, hdecided⟩ := hdecides.leads hstarts
    obtain ⟨more, hmore⟩ := hopens.leads.trans (hcloses.leads.trans hdecided)
    exact ⟨_, names ++ more, hgoes.trans (hmore alive)⟩
  | asked _ hasks ih =>
    obtain ⟨alive, names, ih⟩ := ih
    obtain ⟨after, more, hmore⟩ := hasks.leads
    exact ⟨_, names ++ more, ih.trans (hmore alive)⟩

/-- **Steps lead from the start of a parse to its end**, where nothing is alive. -/
theorem Context.goes_parse {source : String} {d : Document} (h : cx.parse source = .ok d) :
    ∃ names, Scene.Goes ⟨[], cx⟩ names ⟨[], d.context⟩ := by
  rw [Context.parse_eq_read] at h
  obtain ⟨hok, -⟩ := @read_law World.scenes cx trivial source []
  obtain ⟨e, ⟨names, hgoes⟩, hcontext, -⟩ := hok d h
  rw [hcontext]
  exact ⟨names, hgoes []⟩

end Places

end MacroMarkup
