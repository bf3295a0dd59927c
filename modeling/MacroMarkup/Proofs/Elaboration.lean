import MacroMarkup.Proofs.Chains

/-!
# Only reading reports how the source is written

How the source is written shows while it is read.  What expansion reports is about something
else, and so is what it reports again at the modifiers that are being processed.

* `Message.isSyntactic`: the message is about how the source is written; `isSyntactic_referred`
  says that reporting again does not change it.
* `Engine.syntaxMessages`: these messages so far.
* `Engine.Elaborates`: from one point to another there were no more of them.
* `elaborates_expandArguments`, `elaborates_process`, `elaborates_expandRead`: **so it is from the
  start of each evaluation, walk and expansion to its end.**
-/

namespace MacroMarkup

/-! ### Messages -/

/-- The message is about how the source is written.  A message that is reported again keeps its
code. -/
def Message.isSyntactic (m : Message) : Bool := decide (m.code ≤ 3)

theorem isSyntactic_message (p : Problem) (span : Span) :
    (p.message span).isSyntactic = p.isSyntactic :=
  Bool.eq_iff_iff.mpr (decide_eq_true_iff.trans p.isSyntactic_iff.symm)

theorem isSyntactic_referred (referring : List Span) (m : Message) :
    (referring.foldl Message.referred m).isSyntactic = m.isSyntactic := by
  induction referring generalizing m with
  | nil => rfl
  | cons span outer ih => exact ih (m.referred span)

namespace Engine

variable {e e' e'' : Engine} {P : Nat → Prop}

def syntaxMessages (e : Engine) : List Message := e.messages.filter Message.isSyntactic

/-- From the first point to the second nothing was reported about how the source is written, and
the same modifiers are being processed. -/
structure Elaborates (e e' : Engine) : Prop where
  syntaxMessages : e'.syntaxMessages = e.syntaxMessages
  referring : e'.referring = e.referring

theorem Elaborates.refl (e : Engine) : e.Elaborates e := ⟨rfl, rfl⟩

theorem Elaborates.trans (h : e.Elaborates e') (g : e'.Elaborates e'') : e.Elaborates e'' :=
  ⟨g.syntaxMessages.trans h.syntaxMessages, g.referring.trans h.referring⟩

/-- What is started by expansion is about something else. -/
theorem Raises.elaborates (h : e.Raises (·.Raised P) e') (hreferring : e'.referring = e.referring) :
    e.Elaborates e' := by
  obtain ⟨messages, hmessages, hraised⟩ := h
  refine ⟨?_, hreferring⟩
  have hnone : messages.reverse.filter Message.isSyntactic = [] := by
    refine List.filter_eq_nil_iff.mpr fun m hm => ?_
    obtain ⟨started, ⟨p, span, rfl, hp, -⟩, rfl⟩ := hraised m (List.mem_reverse.mp hm)
    rw [isSyntactic_referred, isSyntactic_message, hp]
    decide
  rw [syntaxMessages, Engine.messages, hmessages, List.reverse_append, List.filter_append, hnone,
    List.append_nil]
  rfl

end Engine

/-! ### Points of lifecycles -/

abbrev Anywhere : Nat → Prop := fun _ => True

theorem Modifier.located_anywhere (m : Modifier) : m.Located Anywhere :=
  Node.located_modifier_iff.mp (Node.located_of_forall (fun _ => trivial) (.modifier m))

/-- What a lifecycle remembers from one point to the next holds no message about how the source is
written. -/
abbrev Modifier.Recalls (m : Modifier) (state : m.definition.behaviour.lifecycle.State) : Prop :=
  m.definition.behaviour.Remembers Anywhere state

section Points

variable {α : Type} {post : α → Prop} {e : Engine}

theorem elaborates_expandArguments (arguments : List Argument) (e : Engine) :
    Ensures anyFault (expandArguments arguments) e fun _ e' => e.Elaborates e' := by
  refine (raises_expandArguments (P := Anywhere) arguments e fun a _ =>
    Argument.located_of_forall (fun _ => trivial) a).mono ?_
  rintro _ e' ⟨⟨hraises, hreferring⟩, -⟩
  exact hraises.elaborates hreferring

theorem elaborates_inContext {step : Step α} (h : Step.Upholds (.located Anywhere) post step)
    (e : Engine) : Ensures anyFault (Expand.inContext step) e fun a e' =>
      e.Elaborates e' ∧ post a := by
  rw [ensures_inContext]
  refine (h e.context (Context.located_of_forall (fun _ => trivial) _)).mono ?_
  exact fun _ _ ha => ⟨⟨rfl, rfl⟩, ha.2⟩

theorem elaborates_reporting {step : Step (α × List Message)}
    (h : Step.Upholds (.located Anywhere) (fun r => post r.1 ∧ AreRaised Anywhere r.2) step)
    (e : Engine) : Ensures anyFault (Expand.reporting step) e fun a e' =>
      e.Elaborates e' ∧ post a := by
  rw [ensures_reporting]
  refine (h e.context (Context.located_of_forall (fun _ => trivial) _)).mono ?_
  rintro ⟨a, messages⟩ context ⟨-, ha, hraised⟩
  exact ⟨(Engine.raises_emit context hraised).elaborates rfl, ha⟩

end Points

/-! ### Walks -/

def Walk.Elaborates (walk : Walk) : Prop :=
  ∀ nodes e, Ensures anyFault (walk nodes) e fun _ e' => e.Elaborates e'

section Walks

variable {walk : Walk} (hw : walk.Elaborates) {m : Modifier} {e : Engine}

include hw

theorem elaborates_processNodes (outermost : Bool)
    {state : m.definition.behaviour.lifecycle.State} (hstate : m.Recalls state)
    (nodes : List Node) : Ensures anyFault (processNodes walk outermost m state nodes) e
      fun _ e' => e.Elaborates e' := by
  have hm := m.located_anywhere
  have hlife := locates hm.definition
  rw [ensures_processNodes_iff]
  refine ⟨fun _ => .refl e, fun _ => ?_⟩
  refine (elaborates_inContext (hlife.beforeProcessing m state hm hstate) e).mono ?_
  rintro state' inside ⟨hinside, hstate'⟩
  refine (hw nodes _).mono fun _ later hlater => ?_
  rw [ensures_leaveReplacement hlater.referring]
  have hback : e.Elaborates { later with referring := inside.referring } :=
    ⟨hlater.syntaxMessages.trans hinside.syntaxMessages, hinside.referring⟩
  refine (elaborates_inContext (hlife.afterProcessing state' hstate') _).mono ?_
  rintro _ outside ⟨houtside, -⟩
  have hends := hback.trans houtside
  refine ⟨fun _ => hends.trans ?_, fun _ => hends⟩
  exact (Engine.raises_emit outside.context (areRaised_one rfl hm.span)).elaborates rfl

theorem elaborates_finishModifier (outermost : Bool)
    {state : m.definition.behaviour.lifecycle.State} (hstate : m.Recalls state) :
    Ensures anyFault (finishModifier walk outermost m state) e fun _ e' => e.Elaborates e' := by
  have hm := m.located_anywhere
  have hlife := locates hm.definition
  rw [ensures_finishModifier_iff]
  refine (elaborates_reporting (hlife.prepare m state _ hm hstate) e).mono ?_
  rintro prepared between ⟨hbetween, hprepared⟩
  refine (elaborates_inContext (hlife.expand m prepared _ hm hprepared) between).mono ?_
  rintro ⟨outcome, state'⟩ decided ⟨hdecided, hstate', -⟩
  have hends := hbetween.trans hdecided
  cases outcome with
  | defer => exact hends
  | keep =>
    exact (elaborates_processNodes hw outermost hstate' m.content).mono fun _ _ h => hends.trans h
  | replace nodes =>
    refine (elaborates_processNodes hw outermost hstate' nodes).mono fun _ e' h => ?_
    have hprocessed := hends.trans h
    exact ⟨fun _ => ⟨hprocessed.syntaxMessages, hprocessed.referring⟩, fun _ => hprocessed⟩

theorem elaborates_expandRead {state : m.definition.behaviour.lifecycle.State}
    (hstate : m.Recalls state) :
    Ensures anyFault (expandRead walk m state) e fun _ e' => e.Elaborates e' :=
  ensures_expandRead_iff.mpr
    ⟨fun _ => .refl e, fun _ => elaborates_finishModifier hw true hstate⟩

theorem elaborates_walkContent :
    Ensures anyFault (walkContent walk m) e fun _ e' => e.Elaborates e' := by
  rw [ensures_walkContent_iff]
  refine ⟨fun _ => .refl e, fun _ => (hw m.content _).mono fun _ later hlater => ?_⟩
  exact ⟨fun _ => ⟨hlater.syntaxMessages, hlater.referring⟩,
    fun _ => ⟨hlater.syntaxMessages, hlater.referring⟩⟩

theorem elaborates_expandGenerated :
    Ensures anyFault (expandGenerated walk m) e fun _ e' => e.Elaborates e' := by
  have hlife := locates m.located_anywhere.definition
  rw [ensures_expandGenerated_iff]
  refine ⟨fun _ => .refl e, fun _ => ?_⟩
  refine (elaborates_expandArguments m.arguments e).mono fun arguments e₁ h₁ => ?_
  refine ⟨fun _ => h₁, fun _ => ?_⟩
  refine (elaborates_reporting (hlife.beforeContent { m with arguments := arguments } _
    (Modifier.located_anywhere _)) e₁).mono ?_
  rintro state opened ⟨hopened, hstate⟩
  refine (elaborates_walkContent hw).mono fun content closed hclosed => ?_
  refine (elaborates_inContext (hlife.afterContent state hstate) closed).mono ?_
  rintro state' later ⟨hlater, hstate'⟩
  refine (elaborates_finishModifier hw false
    (m := { m with arguments := arguments, content := content }) hstate').mono ?_
  exact fun _ _ h => h₁.trans (hopened.trans (hclosed.trans (hlater.trans h)))

theorem elaborates_processNode (node : Node) :
    Ensures anyFault (processNode walk node) e fun _ e' => e.Elaborates e' := by
  cases node with
  | paragraph span content => exact ensures_processNode_paragraph.mpr (hw content e)
  | modifier m => exact ensures_processNode_modifier.mpr (elaborates_expandGenerated hw)
  | text _ _ => exact .refl e
  | escaped _ _ => exact .refl e
  | preformatted _ _ _ => exact .refl e

theorem elaborates_processEach : Walk.Elaborates (processEach walk) := by
  intro nodes
  induction nodes with
  | nil => exact fun e => .refl e
  | cons node rest ih =>
    intro e
    rw [ensures_processEach_cons]
    refine (elaborates_processNode hw node).mono fun _ e₁ h₁ => ?_
    exact (ih e₁).mono fun _ _ h => h₁.trans h

end Walks

/-- **No walk reports how the source is written**, however deep it goes. -/
theorem elaborates_process (levels : Nat) : Walk.Elaborates (process levels) := by
  induction levels with
  | zero => exact fun _ _ => ⟨rfl, rfl⟩
  | succ levels ih => exact elaborates_processEach ih

end MacroMarkup
