import MacroMarkup.Proofs.LocatedHooks
import MacroMarkup.Proofs.Scenes

/-!
# Where messages come from

A message is started at a span of a modifier or an argument, and reported again at each of the
modifiers that are being processed at that time.  So its chain tells where in the run it arose.

* `Context.ReadsIn`, `Context.WalksIn`: the places where a parse reads its source, and its walks,
  each with the processings in which it lies, the outermost first.
* `Context.Speaks`: the points of a parse between which messages are started.
* `Context.Utters`: a message was started at such points, and reported again at the processings
  in which they lie.
* `Engine.Traced`: at this place, in these processings, all messages so far are uttered, and all
  that is kept is located.
* `raises_expandArguments`: what evaluating arguments adds.
* `traced_process`: **whatever a walk adds is uttered.**
-/

namespace MacroMarkup

open Parse

/-- More is known of the outcome of a run that ends. -/
theorem Ensures.mono_run {σ α : Type} {allows : Fault → Prop} {s : σ}
    {x : StateT σ (Except Fault) α} {post post' : α → σ → Prop} (h : Ensures allows x s post)
    (imp : ∀ a s', x s = .ok (a, s') → post a s' → post' a s') : Ensures allows x s post' := by
  rw [ensures_iff] at h ⊢
  exact ⟨fun a s' hx => imp a s' hx (h.1 a s' hx), h.2⟩

/-- The message reported again at each of the processings, the innermost first. -/
def Message.along (trail : List Processing) (m : Message) : Message :=
  trail.foldr (fun x inner => inner.referred x.modifier.span) m

/-! ### Points of a parse -/

/-- The reader stands in the source, at a place where a parse that starts in the context reads. -/
structure Context.ReadsIn (cx : Context) (source : String) (r : Reader) : Prop where
  reads : cx.Reads r
  anchored : r.cursor.Anchored source.toList

/-- The walks of a parse of the source, each with the processings in which it lies. -/
inductive Context.WalksIn (cx : Context) (source : String) : List Processing → Visit → Prop
  /-- Over what a modifier that was read stands for. -/
  | read {m : Modifier} {r r' : Reader} {state state' : m.definition.behaviour.lifecycle.State}
      {span : Span} {content : List Node} {e inside : Engine} {x : Processing} :
      cx.ReadsIn source r → m.OpensAt r state r' → m.ClosesAt r' state span content state' e →
      Modifier.Decides { m with span := span, content := content } state' e x →
      x.Starts inside → cx.WalksIn source [x] ⟨e.levels, x.nodes, inside⟩
  /-- What a walk asks for. -/
  | asked {trail entered : List Processing} {v w : Visit} : cx.WalksIn source trail v →
      v.Asks entered w → cx.WalksIn source (trail ++ entered) w

/-- Two points of a parse of the source, one right behind the other, between which messages may be
started, and the processings in which they lie. -/
inductive Context.Speaks (cx : Context) (source : String) : List Processing → Engine → Engine → Prop
  /-- A remark about how the source is written. -/
  | notes {r : Reader} {p : Problem} {span : Span} : cx.ReadsIn source r → p.isSyntactic = true →
      cx.Speaks source [] r.engine (r.engine.emit [p.message span])
  /-- The arguments of a modifier that is read are evaluated. -/
  | evaluates {r : Reader} {arguments values : List Argument} {e : Engine} :
      cx.ReadsIn source r → expandArguments arguments r.engine = .ok (values, e) →
      cx.Speaks source [] r.engine e
  /-- The point before the body of a modifier that is read. -/
  | opens {r r' : Reader} {kind : ModifierKind} {head : Head} {opened : Engine}
      {state : head.modifier.definition.behaviour.lifecycle.State} :
      cx.ReadsIn source r → readHead kind r = .ok (head, r') →
      Expand.reporting (head.modifier.definition.behaviour.lifecycle.beforeContent head.modifier
        r'.engine.immediate) r'.engine = .ok (state, opened) →
      cx.Speaks source [] r'.engine opened
  /-- The point before the expansion of a modifier that was read. -/
  | prepares {m : Modifier} {r r' : Reader} {span : Span} {content : List Node}
      {state state' prepared : m.definition.behaviour.lifecycle.State} {e between : Engine} :
      cx.ReadsIn source r → m.OpensAt r state r' → m.ClosesAt r' state span content state' e →
      Expand.reporting (m.definition.behaviour.lifecycle.prepare
        { m with span := span, content := content } state' e.immediate) e
        = .ok (prepared, between) →
      cx.Speaks source [] e between
  /-- Behind the processing of a modifier that was read, in which something was refused. -/
  | limits {m : Modifier} {r r' : Reader} {span : Span} {content nodes : List Node}
      {state state' : m.definition.behaviour.lifecycle.State} {e inside later : Engine}
      {x : Processing} (outside : Context) :
      cx.ReadsIn source r → m.OpensAt r state r' → m.ClosesAt r' state span content state' e →
      Modifier.Decides { m with span := span, content := content } state' e x →
      x.Starts inside → process e.levels x.nodes inside = .ok ((nodes, false), later) →
      cx.Speaks source [] { later with referring := e.referring, context := outside }
        (Engine.emit { later with referring := e.referring, context := outside }
          [(Problem.recursionLimit outside.configuration.depthLimit
            x.modifier.definition.name).message x.modifier.span])
  /-- The arguments of a modifier in generated content are evaluated. -/
  | evaluatesIn {trail : List Processing} {v : Visit} {levels : Nat} {m : Modifier}
      {arguments : List Argument} {e e' : Engine} :
      cx.WalksIn source trail v → v.Meets levels (.modifier m) e → m.expansion = none →
      expandArguments m.arguments e = .ok (arguments, e') → cx.Speaks source trail e e'
  /-- The point before the content of a modifier in generated content. -/
  | opensIn {trail : List Processing} {v : Visit} {levels : Nat} {m : Modifier}
      {arguments : List Argument} {e e' opened : Engine}
      {state : m.definition.behaviour.lifecycle.State} :
      cx.WalksIn source trail v → v.Meets levels (.modifier m) e → m.expansion = none →
      expandArguments m.arguments e = .ok (arguments, e') →
      (!e'.immediate && !m.definition.alwaysExpands) = false →
      Expand.reporting (m.definition.behaviour.lifecycle.beforeContent
        { m with arguments := arguments } e'.immediate) e' = .ok (state, opened) →
      cx.Speaks source trail e' opened
  /-- The point before the expansion of a modifier in generated content. -/
  | preparesIn {trail : List Processing} {v : Visit} {levels : Nat} {m : Modifier}
      {arguments : List Argument} {content : List Node} {e opened closed later between : Engine}
      {state state' prepared : m.definition.behaviour.lifecycle.State} :
      cx.WalksIn source trail v → v.Meets levels (.modifier m) e →
      m.Opens e arguments state opened →
      walkContent (process levels) { m with arguments := arguments } opened
        = .ok (content, closed) →
      Expand.inContext (m.definition.behaviour.lifecycle.afterContent state) closed
        = .ok (state', later) →
      Expand.reporting (m.definition.behaviour.lifecycle.prepare
        { m with arguments := arguments, content := content } state' later.immediate) later
        = .ok (prepared, between) →
      cx.Speaks source trail later between

/-- From the first point to the second the message was emitted, behind the ones `earlier`, of which
the last one comes first. -/
def Engine.Adds (e : Engine) (m : Message) (earlier : List Message) (e' : Engine) : Prop :=
  ∃ later older, e'.emitted = later ++ m :: earlier ∧ earlier = older ++ e.emitted

/-- The message was started at a located span between two points of the parse, when the messages
`earlier` had been emitted, and reported again at the processings in which these points lie. -/
def Context.Utters (cx : Context) (source : String) (P : Nat → Prop) (m : Message)
    (earlier : List Message) : Prop :=
  ∃ (trail : List Processing) (e e' : Engine) (fresh : Message),
    cx.Speaks source trail e e' ∧ e.Adds m earlier e' ∧ fresh.Fresh P ∧
      (∀ x ∈ trail, x.modifier.span.Located P) ∧ m = fresh.along trail

/-- The place lies in these processings, all messages so far are uttered, and whatever is kept is
located. -/
structure Engine.Traced (cx : Context) (source : String) (P : Nat → Prop)
    (trail : List Processing) (e : Engine) : Prop where
  located : e.context.Located P
  referring : e.referring = (trail.map (·.modifier.span)).reverse
  spans : ∀ x ∈ trail, x.modifier.span.Located P
  messages : ∀ later m earlier, e.emitted = later ++ m :: earlier → cx.Utters source P m earlier

/-- From the first point to the second, messages were started that have the property `Q`, and
reported again at the modifiers that are being processed. -/
def Engine.Raises (Q : Message → Prop) (e e' : Engine) : Prop :=
  ∃ messages, e'.emitted = messages ++ e.emitted ∧
    ∀ m ∈ messages, ∃ fresh : Message, Q fresh ∧ m = e.referring.foldl Message.referred fresh

variable {cx : Context} {source : String} {P : Nat → Prop} {trail : List Processing}

theorem Context.WalksIn.walks {v : Visit} (h : cx.WalksIn source trail v) : cx.Walks v := by
  induction h with
  | read hreads hopens hcloses hdecides hstarts =>
    exact .read hreads.reads hopens hcloses hdecides hstarts
  | asked _ hasks ih => exact .asked ih hasks

namespace Engine

variable {e e' e'' : Engine} {m : Message} {Q : Message → Prop}

theorem Raises.refl (e : Engine) : e.Raises Q e := ⟨[], rfl, List.forall_mem_nil _⟩

theorem Raises.trans (h : e.Raises Q e') (hsame : e'.referring = e.referring)
    (g : e'.Raises Q e'') : e.Raises Q e'' := by
  obtain ⟨messages, hmessages, hfresh⟩ := h
  obtain ⟨messages', hmessages', hfresh'⟩ := g
  refine ⟨messages' ++ messages, by rw [hmessages', hmessages, List.append_assoc], ?_⟩
  exact List.forall_mem_append.mpr ⟨hsame ▸ hfresh', hfresh⟩

theorem Raises.fresh (h : e.Raises (·.Raised P) e') : e.Raises (·.Fresh P) e' := by
  obtain ⟨messages, hmessages, hraised⟩ := h
  refine ⟨messages, hmessages, fun m hm => ?_⟩
  obtain ⟨started, hstarted, hm⟩ := hraised m hm
  exact ⟨started, hstarted.fresh, hm⟩

theorem raises_emit {messages : List Message} (context : Context) (h : ∀ m ∈ messages, Q m) :
    e.Raises Q (emit { e with context := context } messages) := by
  refine ⟨_, rfl, fun m hm => ?_⟩
  obtain ⟨fresh, hfresh, rfl⟩ := List.mem_map.mp (List.mem_reverse.mp hm)
  exact ⟨fresh, h fresh hfresh, rfl⟩

/-- A message is reported again at the processings that lie around the place. -/
theorem Traced.along (h : e.Traced cx source P trail) :
    e.referring.foldl Message.referred m = m.along trail := by
  rw [h.referring, List.foldl_reverse, List.foldr_map]
  rfl

theorem Traced.quiet (h : e.Traced cx source P trail) (hlocated : e'.context.Located P)
    (hreferring : e'.referring = e.referring) (hsame : e'.emitted = e.emitted) :
    e'.Traced cx source P trail :=
  ⟨hlocated, hreferring.trans h.referring, h.spans, hsame ▸ h.messages⟩

/-- **What is said between two points is uttered.** -/
theorem Traced.speaks (h : e.Traced cx source P trail) (hspeaks : cx.Speaks source trail e e')
    (hraises : e.Raises (·.Fresh P) e') (hlocated : e'.context.Located P)
    (hreferring : e'.referring = e.referring) : e'.Traced cx source P trail := by
  refine ⟨hlocated, hreferring.trans h.referring, h.spans, fun later m earlier hemitted => ?_⟩
  obtain ⟨messages, hmessages, hfresh⟩ := hraises
  rcases List.append_eq_append_iff.mp (hmessages.symm.trans hemitted) with
    ⟨more, rfl, hbefore⟩ | ⟨more, hnew, hrest⟩
  · exact h.messages more m earlier hbefore
  · cases more with
    | nil => exact h.messages [] m earlier hrest.symm
    | cons first older =>
      obtain ⟨rfl, rfl⟩ := List.cons.inj hrest
      obtain ⟨fresh, hstart, hm⟩ := hfresh m (hnew ▸ List.mem_append_right _ List.mem_cons_self)
      exact ⟨trail, e, e', fresh, hspeaks, ⟨later, older, hemitted, rfl⟩, hstart, h.spans,
        hm.trans h.along⟩

end Engine

/-! ### Arguments -/

section Arguments

mutual

theorem raises_expandArgument : ∀ (a : Argument) (e : Engine),
    (∀ part ∈ a.content, part.Located P) →
    Ensures anyFault (expandArgument a) e fun r e' =>
      (e.Raises (·.Raised P) e' ∧ e'.referring = e.referring) ∧
        r.1.span = a.span ∧ ∀ part ∈ r.1.content, part.Located P
  | ⟨span, content, some value⟩, e, hcontent => by
    rw [expandArgument, ensures_pure]
    exact ⟨⟨.refl e, rfl⟩, rfl, hcontent⟩
  | ⟨span, content, none⟩, e, hcontent => by
    rw [expandArgument, ensures_bind]
    refine (raises_expandEntities content e hcontent).mono ?_
    rintro ⟨content', value⟩ e' ⟨hraises, hcontent'⟩
    exact ⟨hraises, rfl, hcontent'⟩

theorem raises_expandEntities : ∀ (entities : List Entity) (e : Engine),
    (∀ part ∈ entities, part.Located P) →
    Ensures anyFault (expandEntities entities) e fun r e' =>
      (e.Raises (·.Raised P) e' ∧ e'.referring = e.referring) ∧ ∀ part ∈ r.1, part.Located P
  | [], e, hentities => by
    rw [expandEntities, ensures_pure]
    exact ⟨⟨.refl e, rfl⟩, hentities⟩
  | entity :: rest, e, hentities => by
    obtain ⟨hentity, hrest⟩ := List.forall_mem_cons.mp hentities
    rw [expandEntities, ensures_bind]
    refine (raises_expandEntity entity e hentity).mono ?_
    rintro ⟨entity', value⟩ e' ⟨⟨hraises, hreferring⟩, hentity'⟩
    cases value with
    | none => exact ⟨⟨hraises, hreferring⟩, List.forall_mem_cons.mpr ⟨hentity', hrest⟩⟩
    | some value =>
      rw [ensures_bind]
      refine (raises_expandEntities rest e' hrest).mono ?_
      rintro ⟨rest', others⟩ e'' ⟨⟨hraises', hreferring'⟩, hrest'⟩
      exact ⟨⟨hraises.trans hreferring hraises', hreferring'.trans hreferring⟩,
        List.forall_mem_cons.mpr ⟨hentity', hrest'⟩⟩

theorem raises_expandEntity : ∀ (entity : Entity) (e : Engine), entity.Located P →
    Ensures anyFault (expandEntity entity) e fun r e' =>
      (e.Raises (·.Raised P) e' ∧ e'.referring = e.referring) ∧ r.1.Located P
  | .text span content, e, hentity => by
    rw [expandEntity, ensures_pure]
    exact ⟨⟨.refl e, rfl⟩, hentity⟩
  | .escaped span content, e, hentity => by
    rw [expandEntity, ensures_pure]
    exact ⟨⟨.refl e, rfl⟩, hentity⟩
  | .interpolation span interpolator argument (some value), e, hentity => by
    rw [expandEntity, ensures_pure]
    exact ⟨⟨.refl e, rfl⟩, hentity⟩
  | .interpolation span interpolator argument none, e, hentity => by
    cases hentity with
    | interpolation hspan hcontent =>
      rw [expandEntity, ensures_bind]
      refine (raises_expandArgument argument e hcontent).mono ?_
      rintro ⟨argument', inner⟩ e' ⟨hraises, -, hcontent'⟩
      have hlocated : ∀ value,
          (Entity.interpolation span interpolator argument' value).Located P :=
        fun _ => .interpolation hspan hcontent'
      simp only [ensures_bind, ensures_immediate]
      cases inner with
      | none => exact ⟨hraises, hlocated _⟩
      | some name =>
        simp only [ensures_ite]
        refine ⟨fun _ => ⟨hraises, hlocated _⟩, fun _ => ?_⟩
        simp only [ensures_bind, ensures_inContext]
        refine ensures_resolution (fun _ _ => trivial) fun s _ => ?_
        cases e'.context.resolution s name with
        | value text => exact ⟨hraises, hlocated _⟩
        | undefined =>
          simp only [ensures_ite]
          refine ⟨fun _ => ?_, fun _ => ⟨hraises, hlocated _⟩⟩
          have hreports := Engine.raises_emit (e := e') e'.context
            (areRaised_one (p := .undefinedVariable name) rfl hspan)
          exact ⟨⟨hraises.1.trans hraises.2 hreports, hraises.2⟩, hlocated _⟩
        | deferred => exact ⟨hraises, hlocated _⟩

end

/-- **Evaluating located arguments adds messages at located spans.** -/
theorem raises_expandArguments : ∀ (arguments : List Argument) (e : Engine),
    (∀ a ∈ arguments, a.Located P) → Ensures anyFault (expandArguments arguments) e fun r e' =>
      (e.Raises (·.Raised P) e' ∧ e'.referring = e.referring) ∧ ∀ a ∈ r, a.Located P := by
  intro arguments
  induction arguments with
  | nil => exact fun e h => ⟨⟨.refl e, rfl⟩, h⟩
  | cons argument rest ih =>
    intro e harguments
    obtain ⟨hargument, hrest⟩ := List.forall_mem_cons.mp harguments
    rw [expandArguments, ensures_bind]
    refine (raises_expandArgument argument e hargument.content).mono ?_
    rintro ⟨argument', value⟩ e' ⟨⟨hraises, hreferring⟩, hspan, hcontent⟩
    rw [ensures_bind]
    refine (ih e' hrest).mono ?_
    rintro rest' e'' ⟨⟨hraises', hreferring'⟩, hrest'⟩
    exact ⟨⟨hraises.trans hreferring hraises', hreferring'.trans hreferring⟩,
      List.forall_mem_cons.mpr ⟨⟨hspan ▸ hargument.span, hcontent⟩, hrest'⟩⟩

end Arguments

/-! ### Points of lifecycles -/

section Points

variable {α : Type} {e : Engine}

theorem Engine.Traced.reporting {rests : α → Prop} {step : Step (α × List Message)}
    (he : e.Traced cx source P trail)
    (hstep : Step.Upholds (.located P) (fun r => rests r.1 ∧ AreRaised P r.2) step)
    (hspeaks : ∀ a e', Expand.reporting step e = .ok (a, e') → cx.Speaks source trail e e') :
    Ensures anyFault (Expand.reporting step) e fun a e' =>
      e'.Traced cx source P trail ∧ rests a := by
  have hpoint : Ensures anyFault (Expand.reporting step) e fun a e' =>
      e.Raises (·.Raised P) e' ∧ e'.context.Located P ∧ e'.referring = e.referring ∧ rests a := by
    rw [ensures_reporting]
    refine (hstep e.context he.located).mono ?_
    rintro ⟨a, messages⟩ context ⟨hlocated, hrests, hraised⟩
    exact ⟨Engine.raises_emit context hraised, hlocated, rfl, hrests⟩
  refine hpoint.mono_run ?_
  rintro a e' hrun ⟨hraises, hlocated, hreferring, hrests⟩
  exact ⟨he.speaks (hspeaks a e' hrun) hraises.fresh hlocated hreferring, hrests⟩

theorem Engine.Traced.inContext {post : α → Prop} {step : Step α}
    (he : e.Traced cx source P trail) (hstep : Step.Upholds (.located P) post step) :
    Ensures anyFault (Expand.inContext step) e fun a e' =>
      e'.Traced cx source P trail ∧ post a := by
  rw [ensures_inContext]
  refine (hstep e.context he.located).mono ?_
  rintro a context ⟨hlocated, hpost⟩
  exact ⟨he.quiet hlocated rfl rfl, hpost⟩

theorem Engine.Traced.evaluating {arguments : List Argument} (he : e.Traced cx source P trail)
    (harguments : ∀ a ∈ arguments, a.Located P)
    (hspeaks : ∀ values e', expandArguments arguments e = .ok (values, e') →
      cx.Speaks source trail e e') :
    Ensures anyFault (expandArguments arguments) e fun values e' =>
      e'.Traced cx source P trail ∧ ∀ a ∈ values, a.Located P := by
  have hreports := @ensures_expandArguments anyFault arguments e fun _ _ => trivial
  refine ((raises_expandArguments arguments e harguments).and hreports).mono_run ?_
  rintro values e' hrun ⟨⟨⟨hraises, hreferring⟩, hvalues⟩, ⟨⟨hreports, -⟩, -, -⟩⟩
  refine ⟨he.speaks (hspeaks values e' hrun) hraises.fresh ?_ hreferring, hvalues⟩
  rw [hreports.context]
  exact he.located

end Points

/-! ### Walks -/

/-- Whatever a walk of the parse adds is uttered, if so many levels may nest in it. -/
def TracedWalks (cx : Context) (source : String) (P : Nat → Prop) (levels : Nat) : Prop :=
  ∀ (trail : List Processing) (nodes : List Node) (e : Engine),
    cx.WalksIn source trail ⟨levels, nodes, e⟩ → e.Traced cx source P trail →
    (∀ n ∈ nodes, n.Located P) → Ensures anyFault (process levels nodes) e fun r e' =>
      e'.Traced cx source P trail ∧ ∀ n ∈ r.1, n.Located P

section Walks

variable {levels : Nat} (hw : TracedWalks cx source P levels)

include hw

/-- What a modifier stands for is processed: whatever is said inside is reported again at it. -/
theorem traced_processNodes {x : Processing} {outermost : Bool}
    (he : x.engine.Traced cx source P trail) (hx : x.modifier.Located P)
    (hstate : x.modifier.definition.behaviour.Remembers P x.state)
    (hnodes : ∀ n ∈ x.nodes, n.Located P)
    (hwalks : ∀ inside, x.Starts inside →
      cx.WalksIn source (trail ++ [x]) ⟨levels, x.nodes, inside⟩)
    (hlimits : outermost = true → ∀ inside nodes later outside, x.Starts inside →
      process levels x.nodes inside = .ok ((nodes, false), later) →
      cx.Speaks source trail
        { later with referring := x.engine.referring, context := outside }
        (Engine.emit { later with referring := x.engine.referring, context := outside }
          [(Problem.recursionLimit outside.configuration.depthLimit
            x.modifier.definition.name).message x.modifier.span])) :
    Ensures anyFault (processNodes (process levels) outermost x.modifier x.state x.nodes) x.engine
      fun r e' => e'.Traced cx source P trail ∧ ∀ n ∈ r.1, n.Located P := by
  have hlife := locates hx.definition
  rw [ensures_processNodes_iff]
  refine ⟨fun _ => ⟨he, List.forall_mem_nil _⟩, fun hnonempty => ?_⟩
  refine (he.inContext (hlife.beforeProcessing _ _ hx hstate)).mono_run ?_
  rintro state entered hentered ⟨hinside, hstate'⟩
  obtain ⟨context, hbefore, rfl⟩ := ok_of_inContext hentered
  have hstarts : x.Starts { x.engine with
      context := context, referring := x.modifier.span :: x.engine.referring } :=
    ⟨by simpa using hnonempty, state, context, hbefore, rfl⟩
  refine (hw _ _ _ (hwalks _ hstarts) ⟨hinside.located, ?_, ?_, hinside.messages⟩
    hnodes).mono_run ?_
  · simp [he.referring]
  · exact List.forall_mem_append.mpr ⟨he.spans, List.forall_mem_singleton.mpr hx.span⟩
  rintro ⟨nodes, complete⟩ later hwalk ⟨hlater, hnodes'⟩
  have hreferring : later.referring = x.modifier.span :: x.engine.referring := by
    rw [hlater.referring, he.referring]
    simp
  rw [ensures_leaveReplacement hreferring]
  have houter : Engine.Traced cx source P trail { later with referring := x.engine.referring } :=
    ⟨hlater.located, he.referring, he.spans, hlater.messages⟩
  refine (houter.inContext (hlife.afterProcessing _ hstate')).mono_run ?_
  rintro _ outside hafter ⟨houtside, -⟩
  obtain ⟨context', -, rfl⟩ := ok_of_inContext hafter
  refine ⟨fun hfails => ?_, fun _ => ⟨houtside, hnodes'⟩⟩
  simp only [Bool.and_eq_true, Bool.not_eq_true'] at hfails
  obtain ⟨rfl, houtermost⟩ := hfails
  have hspeaks := hlimits houtermost _ nodes later context' hstarts hwalk
  refine ⟨houtside.speaks hspeaks ?_ houtside.located rfl, hnodes'⟩
  exact (Engine.raises_emit _ (areRaised_one rfl hx.span)).fresh

theorem traced_finishModifier {m : Modifier} {outermost : Bool} {e : Engine}
    {state : m.definition.behaviour.lifecycle.State} (he : e.Traced cx source P trail)
    (hm : m.Located P) (hstate : m.definition.behaviour.Remembers P state)
    (hprepares : ∀ prepared between, Expand.reporting
      (m.definition.behaviour.lifecycle.prepare m state e.immediate) e = .ok (prepared, between) →
      cx.Speaks source trail e between)
    (hwalks : ∀ x inside, m.Decides state e x → x.Starts inside →
      cx.WalksIn source (trail ++ [x]) ⟨levels, x.nodes, inside⟩)
    (hlimits : outermost = true → ∀ x inside nodes later outside, m.Decides state e x →
      x.Starts inside → process levels x.nodes inside = .ok ((nodes, false), later) →
      cx.Speaks source trail { later with referring := e.referring, context := outside }
        (Engine.emit { later with referring := e.referring, context := outside }
          [(Problem.recursionLimit outside.configuration.depthLimit
            x.modifier.definition.name).message x.modifier.span])) :
    Ensures anyFault (finishModifier (process levels) outermost m state) e fun r e' =>
      e'.Traced cx source P trail ∧ r.1.Located P := by
  have hlife := locates hm.definition
  rw [ensures_finishModifier_iff]
  refine (he.reporting (hlife.prepare m state e.immediate hm hstate) hprepares).mono_run ?_
  rintro prepared between hprepare ⟨hbetween, hprepared⟩
  refine (hbetween.inContext (hlife.expand m prepared e.immediate hm hprepared)).mono_run ?_
  rintro ⟨outcome, decided⟩ e₁ hexpand ⟨he₁, hdecided, hnodes⟩
  have hsame : e₁.referring = e.referring := he₁.referring.trans he.referring.symm
  -- what is decided on is processed
  have hprocesses : outcome ≠ .defer →
      Ensures anyFault (processNodes (process levels) outermost m decided (outcome.nodes m)) e₁
        fun r e' => e'.Traced cx source P trail ∧ ∀ n ∈ r.1, n.Located P := by
    intro hdefer
    have hdecides := Modifier.Decides.intro hprepare hexpand hdefer
    refine traced_processNodes hw (x := ⟨m, decided, outcome.nodes m, e₁⟩) he₁ hm hdecided hnodes
      (fun inside => hwalks _ inside hdecides) fun houtermost inside nodes later outside hstarts
      hwalk => ?_
    simp only [hsame]
    exact hlimits houtermost _ inside nodes later outside hdecides hstarts hwalk
  cases outcome with
  | defer => exact ⟨he₁, hm⟩
  | keep =>
    refine (hprocesses (by simp)).mono ?_
    rintro ⟨content, complete⟩ e' ⟨he', hcontent⟩
    exact ⟨he', hm.span, hm.head, hm.arguments, hm.definition, hcontent⟩
  | replace nodes =>
    refine (hprocesses (by simp)).mono ?_
    rintro ⟨nodes', complete⟩ e' ⟨he', -⟩
    have hlocated : Modifier.Located P { m with expansion := some nodes' } :=
      ⟨hm.span, hm.head, hm.arguments, hm.definition, hm.content⟩
    exact ⟨fun _ => ⟨he'.quiet he'.located rfl rfl, hlocated⟩, fun _ => ⟨he', hlocated⟩⟩

theorem traced_walkContent {m : Modifier} {opened : Engine}
    (he : opened.Traced cx source P trail) (hm : m.Located P)
    (hwalks : m.content ≠ [] →
      cx.WalksIn source trail ⟨levels, m.content, m.bodyEngine opened⟩) :
    Ensures anyFault (walkContent (process levels) m) opened fun content e' =>
      e'.Traced cx source P trail ∧ ∀ n ∈ content, n.Located P := by
  rw [ensures_walkContent_iff]
  refine ⟨fun _ => ⟨he, List.forall_mem_nil _⟩, fun hnonempty => ?_⟩
  refine (hw trail m.content (m.bodyEngine opened) (hwalks (by simpa using hnonempty))
    (he.quiet he.located rfl rfl) hm.content).mono ?_
  rintro ⟨content, complete⟩ later ⟨hlater, hcontent⟩
  exact ⟨fun _ => ⟨hlater.quiet hlater.located rfl rfl, hcontent⟩,
    fun _ => ⟨hlater.quiet hlater.located rfl rfl, hcontent⟩⟩

theorem traced_expandGenerated {v : Visit} {m : Modifier} {e : Engine}
    (hv : cx.WalksIn source trail v) (hmet : v.Meets levels (.modifier m) e)
    (he : e.Traced cx source P trail) (hm : m.Located P) :
    Ensures anyFault (expandGenerated (process levels) m) e fun r e' =>
      e'.Traced cx source P trail ∧ r.1.Located P := by
  have hlife := locates hm.definition
  rw [ensures_expandGenerated_iff]
  refine ⟨fun _ => ⟨he, hm⟩, fun hwaits => ?_⟩
  have hnone : m.expansion = none := by simpa using hwaits
  refine (he.evaluating hm.arguments fun _ _ => .evaluatesIn hv hmet hnone).mono_run ?_
  rintro arguments e₁ harguments ⟨he₁, hvalues⟩
  have hm₁ : Modifier.Located P { m with arguments := arguments } :=
    ⟨hm.span, hm.head, hvalues, hm.definition, hm.content⟩
  refine ⟨fun _ => ⟨he₁, hm₁⟩, fun hdelayed => ?_⟩
  have halone : (!e₁.immediate && !m.definition.alwaysExpands) = false := by simpa using hdelayed
  refine (he₁.reporting (hlife.beforeContent _ e₁.immediate hm₁) fun _ _ =>
    .opensIn hv hmet hnone harguments halone).mono_run ?_
  rintro state opened hopened ⟨ho, hstate⟩
  have hopens : m.Opens e arguments state opened := ⟨hnone, e₁, harguments, halone, hopened⟩
  refine (traced_walkContent hw (m := { m with arguments := arguments }) ho hm₁
    fun hcontent => ?_).mono_run ?_
  · have hasks := hv.asked (.content hmet hopens hcontent)
    rwa [List.append_nil] at hasks
  rintro content closed hwalk ⟨hclosed, hcontent⟩
  refine (hclosed.inContext (hlife.afterContent state hstate)).mono_run ?_
  rintro state' later hafter ⟨hlater, hstate'⟩
  refine traced_finishModifier hw (m := { m with arguments := arguments, content := content })
    hlater ⟨hm.span, hm.head, hvalues, hm.definition, hcontent⟩ hstate' ?_ ?_ ?_
  · exact fun prepared between => .preparesIn (m := m) hv hmet hopens hwalk hafter
  · exact fun x inside hdecides hstarts => hv.asked (.replacement hmet
      ⟨arguments, state, opened, content, closed, state', later, hopens, hwalk, hafter, hdecides⟩
      hstarts)
  · exact fun h => by cases h

theorem traced_processNode {v : Visit} {node : Node} {e : Engine}
    (hv : cx.WalksIn source trail v) (hmet : v.Meets levels node e)
    (he : e.Traced cx source P trail) (hnode : node.Located P) :
    Ensures anyFault (processNode (process levels) node) e fun r e' =>
      e'.Traced cx source P trail ∧ r.1.Located P := by
  cases node with
  | paragraph span content =>
    cases hnode with
    | paragraph hspan hcontent =>
      have hasks := hv.asked (.paragraph hmet)
      rw [List.append_nil] at hasks
      rw [ensures_processNode_paragraph]
      exact (hw trail content e hasks he hcontent).mono fun _ _ h => ⟨h.1, .paragraph hspan h.2⟩
  | modifier m =>
    rw [ensures_processNode_modifier]
    refine (traced_expandGenerated hw hv hmet he (Node.located_modifier_iff.mp hnode)).mono ?_
    exact fun _ _ h => ⟨h.1, Node.located_modifier_iff.mpr h.2⟩
  | text _ _ => exact ⟨he, hnode⟩
  | escaped _ _ => exact ⟨he, hnode⟩
  | preformatted _ _ _ => exact ⟨he, hnode⟩

theorem traced_processEach {v : Visit} (hv : cx.WalksIn source trail v)
    (hlevels : v.levels = levels + 1) {after : List Node} :
    ∀ {before walked : List Node} {complete : Bool} {e : Engine}, v.nodes = before ++ after →
      processEach (process levels) before v.engine = .ok ((walked, complete), e) →
      e.Traced cx source P trail → (∀ n ∈ after, n.Located P) →
      Ensures anyFault (processEach (process levels) after) e fun r e' =>
        e'.Traced cx source P trail ∧ ∀ n ∈ r.1, n.Located P := by
  induction after with
  | nil => exact fun _ _ he h => ⟨he, h⟩
  | cons node rest ih =>
    intro before walked complete e hnodes hbefore he hlocated
    obtain ⟨hnode, hrest⟩ := List.forall_mem_cons.mp hlocated
    have hmet : v.Meets levels node e := ⟨hlevels, before, rest, _, hnodes, hbefore⟩
    rw [ensures_processEach_cons]
    refine (traced_processNode hw hv hmet he hnode).mono_run ?_
    rintro ⟨node', others⟩ e₁ hrun ⟨he₁, hnode'⟩
    obtain ⟨⟨walked', complete'⟩, hwalked⟩ := processEach_snoc hbefore hrun
    refine (ih (by simpa using hnodes) hwalked he₁ hrest).mono ?_
    rintro ⟨rest', others'⟩ e' ⟨he', hrest'⟩
    exact ⟨he', List.forall_mem_cons.mpr ⟨hnode', hrest'⟩⟩

omit hw

/-- **Whatever a walk of the parse adds is uttered**, however deep it goes. -/
theorem traced_process (levels : Nat) : TracedWalks cx source P levels := by
  induction levels with
  | zero =>
    intro trail nodes e _ he hnodes
    simp only [process, Expand.refuse, ensures_bind, ensures_modify, ensures_pure]
    exact ⟨he.quiet he.located rfl rfl, hnodes⟩
  | succ levels ih =>
    intro trail nodes e hv he hnodes
    exact traced_processEach ih hv rfl (List.nil_append nodes).symm rfl he hnodes

end Walks

end MacroMarkup
