import MacroMarkup.Expansion

/-!
# What messages are about

A message that is reported again at another place is still about the problem that it was
first reported for.  So what a run reports can be told by problems, wherever the messages
end up.

* `Problem.isSyntactic`: the problem lies in how the source is written.
* `Message.About`: what a message is about; `about_referred` says that reporting again does
  not change it.
* `Engine.Tells`: a run reported nothing but what is about certain problems.
* `Message.reportsLimit`, `Engine.limitMessages`: the messages that the limit was met.
-/

namespace MacroMarkup

/-- The problem lies in how the source is written. -/
def Problem.isSyntactic : Problem → Bool
  | .expected _ => true
  | .unknownModifier _ => true
  | .unclosedInline _ => true
  | .redundantNewlines => true
  | .blockInsideLine => true
  | .groupContentInsideLine => true
  | _ => false

theorem Problem.isSyntactic_iff (p : Problem) : p.isSyntactic = true ↔ p.code ≤ 3 := by
  cases p <;> simp [isSyntactic, code]

/-- The message is, or repeats, one about a problem in `P`. -/
def Message.About (P : Problem → Prop) (m : Message) : Prop :=
  ∃ p span, P p ∧ m.origin = p.message span

namespace Message

variable {P Q : Problem → Prop} {m : Message}

theorem About.mono (h : m.About P) (imp : ∀ p, P p → Q p) : m.About Q := by
  obtain ⟨p, span, hp, hm⟩ := h
  exact ⟨p, span, imp p hp, hm⟩

theorem about_message {p : Problem} (hp : P p) (span : Span) : (p.message span).About P :=
  ⟨p, span, hp, rfl⟩

theorem about_referred (h : m.About P) (spans : List Span) : (spans.foldl referred m).About P := by
  induction spans generalizing m with
  | nil => exact h
  | cons span spans ih =>
    refine ih ?_
    obtain ⟨p, place, hp, hm⟩ := h
    exact ⟨p, place, hp, (origin_referred m span).trans hm⟩

end Message

namespace Engine

/-- From the first point to the second, nothing was reported but what is about a problem in
`P`. -/
def Tells (P : Problem → Prop) (e e' : Engine) : Prop :=
  ∃ messages, (∀ m ∈ messages, m.About P) ∧ e'.emitted = messages ++ e.emitted

variable {P Q : Problem → Prop} {e e' e'' : Engine}

theorem Tells.of_same (h : e'.emitted = e.emitted) : e.Tells P e' :=
  ⟨[], List.forall_mem_nil _, h⟩

theorem Tells.refl (e : Engine) : e.Tells P e := .of_same rfl

theorem Tells.trans (h : e.Tells P e') (g : e'.Tells P e'') : e.Tells P e'' := by
  obtain ⟨messages, hmessages, hemitted⟩ := h
  obtain ⟨messages', hmessages', hemitted'⟩ := g
  refine ⟨messages' ++ messages, fun m hm => ?_, by rw [hemitted', hemitted, List.append_assoc]⟩
  exact (List.mem_append.mp hm).elim (hmessages' m) (hmessages m)

theorem Tells.mono (h : e.Tells P e') (imp : ∀ p, P p → Q p) : e.Tells Q e' := by
  obtain ⟨messages, hmessages, hemitted⟩ := h
  exact ⟨messages, fun m hm => (hmessages m hm).mono imp, hemitted⟩

theorem tells_emit {messages : List Message} (h : ∀ m ∈ messages, m.About P) :
    e.Tells P (e.emit messages) := by
  refine ⟨_, fun m hm => ?_, rfl⟩
  obtain ⟨m', hm', rfl⟩ := List.mem_map.mp (List.mem_reverse.mp hm)
  exact Message.about_referred (h m' hm') e.referring

end Engine

/-! ### The limit -/

def Message.reportsLimit (message : Message) : Bool :=
  message.severity == .error && message.code == (Problem.recursionLimit 0 "").code

theorem reportsLimit_recursionLimit (limit : Nat) (name : String) (span : Span) :
    ((Problem.recursionLimit limit name).message span).reportsLimit = true := rfl

theorem reportsLimit_referred (referring : List Span) (message : Message) :
    (referring.foldl Message.referred message).reportsLimit = message.reportsLimit := by
  induction referring generalizing message with
  | nil => rfl
  | cons span outer ih => exact ih (message.referred span)

namespace Engine

def limitMessages (e : Engine) : List Message := e.messages.filter Message.reportsLimit

theorem limitMessages_emit (e : Engine) (messages : List Message) :
    (e.emit messages).limitMessages = e.limitMessages ++
      (messages.filter Message.reportsLimit).map (e.referring.foldl Message.referred) := by
  have hrefer : (Message.reportsLimit ∘ e.referring.foldl Message.referred)
      = Message.reportsLimit := funext (reportsLimit_referred e.referring)
  simp only [limitMessages, Engine.messages, emit, List.reverse_append, List.reverse_reverse,
    List.filter_append, List.filter_map, hrefer]

end Engine

end MacroMarkup
