import MacroMarkup.Proofs.Remarks
import MacroMarkup.Proofs.Stock
import MacroMarkup.Proofs.Upkeep

/-!
# Where spans lie

Diagnostics are put at spans of arguments and nodes, and nodes are kept in many places: in the
tree, in the bodies of definitions, in kept notations and modules, and in the invocations that
are being processed.  `P` says which offsets may occur; a span is located if both its ends may.

* `Argument.Located`, `Node.Located`, `Definition.Located`: every span that a message may be put
  at is located, also those in the bodies of definitions.
* `Context.Located`: so it is wherever nodes are kept.
* `Message.Fresh`: a message that starts a chain, put at a located span; a missing mark may reach
  beyond it.  `Message.Raised`: one that is not about how the source is written.
* `Upkeep.located`: that a context is located, as something to be kept, with a rule for each way
  to look at it or to change it.
* `Context.located_of_forall`: if all offsets may occur, so it is anyway.
-/

namespace MacroMarkup

structure Span.Located (P : Nat → Prop) (s : Span) : Prop where
  start : P s.start
  stop : P s.stop

inductive Entity.Located (P : Nat → Prop) : Entity → Prop
  | text {span : Span} {content : String} : Located P (.text span content)
  | escaped {span : Span} {content : String} : Located P (.escaped span content)
  | interpolation {span : Span} {interpolator : Interpolator} {argument : Argument}
      {value : Option String} :
    span.Located P → (∀ part ∈ argument.content, Located P part) →
    Located P (.interpolation span interpolator argument value)

structure Argument.Located (P : Nat → Prop) (a : Argument) : Prop where
  span : a.span.Located P
  content : ∀ part ∈ a.content, part.Located P

/-- The node and what lies in it are located, and so are the bodies of the definitions in it.
What a modifier was expanded to is not looked at. -/
inductive Node.Located (P : Nat → Prop) : Node → Prop
  | paragraph {span : Span} {content : List Node} :
    span.Located P → (∀ n ∈ content, Located P n) → Located P (.paragraph span content)
  | preformatted {span contentSpan : Span} {text : String} :
    span.Located P → Located P (.preformatted span contentSpan text)
  | text {span : Span} {content : String} : span.Located P → Located P (.text span content)
  | escaped {span : Span} {content : String} : span.Located P → Located P (.escaped span content)
  | modifier {m : Modifier} :
    m.span.Located P → m.head.Located P → (∀ a ∈ m.arguments, a.Located P) →
    (∀ n ∈ m.definition.body, Located P n) → (∀ n ∈ m.content, Located P n) →
    Located P (.modifier m)

def Definition.Located (P : Nat → Prop) (d : Definition) : Prop := ∀ n ∈ d.body, n.Located P

structure Modifier.Located (P : Nat → Prop) (m : Modifier) : Prop where
  span : m.span.Located P
  head : m.head.Located P
  arguments : ∀ a ∈ m.arguments, a.Located P
  definition : m.definition.Located P
  content : ∀ n ∈ m.content, n.Located P

structure MacroState.Located (P : Nat → Prop) (s : MacroState) : Prop where
  notations : ∀ r ∈ s.notations, r.All (·.Located P)
  modules : ∀ entry ∈ s.modules.entries, entry.2.All (·.Located P)
  frames : ∀ kind, ∀ frame ∈ s.frames kind, ∀ n ∈ frame.content, n.Located P

structure Context.Located (P : Nat → Prop) (cx : Context) : Prop where
  registries : cx.registries.All (·.Located P)
  systems : cx.configuration.systems.All (·.Located P)
  macros : ∀ s, cx.macros = .ok s → s.Located P

/-- The message starts a chain at a located span; if a mark is missing, only its start is. -/
def Message.Fresh (P : Nat → Prop) (m : Message) : Prop :=
  ∃ (p : Problem) (span : Span), m = p.message span ∧ P span.start ∧
    (P span.stop ∨ ∃ what, p = .expected what)

/-- The message starts a chain at a located span, and is not about how the source is written. -/
def Message.Raised (P : Nat → Prop) (m : Message) : Prop :=
  ∃ (p : Problem) (span : Span), m = p.message span ∧ p.isSyntactic = false ∧ span.Located P

/-- All these messages start chains at located spans, and none is about how the source is
written. -/
def AreRaised (P : Nat → Prop) (messages : List Message) : Prop := ∀ m ∈ messages, m.Raised P

variable {P : Nat → Prop}

/-! ### Nodes and messages -/

theorem Message.fresh (p : Problem) {span : Span} (h : span.Located P) : (p.message span).Fresh P :=
  ⟨p, span, rfl, h.start, .inl h.stop⟩

theorem Message.raised {p : Problem} {span : Span} (hp : p.isSyntactic = false)
    (h : span.Located P) : (p.message span).Raised P := ⟨p, span, rfl, hp, h⟩

theorem Message.Raised.fresh {m : Message} (h : m.Raised P) : m.Fresh P := by
  obtain ⟨p, span, rfl, -, hspan⟩ := h
  exact Message.fresh p hspan

theorem areRaised_nil : AreRaised P [] := List.forall_mem_nil _

theorem areRaised_one {p : Problem} {span : Span} (hp : p.isSyntactic = false)
    (h : span.Located P) : AreRaised P [p.message span] :=
  List.forall_mem_singleton.mpr (Message.raised hp h)

theorem AreRaised.append {messages messages' : List Message} (h : AreRaised P messages)
    (h' : AreRaised P messages') : AreRaised P (messages ++ messages') :=
  List.forall_mem_append.mpr ⟨h, h'⟩

theorem AreRaised.ite {c : Prop} [Decidable c] {messages : List Message}
    (h : AreRaised P messages) : AreRaised P (if c then messages else []) := by
  split
  · exact h
  · exact areRaised_nil

theorem Node.located_modifier_iff {m : Modifier} : (Node.modifier m).Located P ↔ m.Located P := by
  constructor
  · intro h
    cases h with
    | modifier hspan hhead harguments hbody hcontent =>
      exact ⟨hspan, hhead, harguments, hbody, hcontent⟩
  · exact fun h => .modifier h.span h.head h.arguments h.definition h.content

theorem Node.Located.span {n : Node} (h : n.Located P) : n.span.Located P := by
  cases h <;> assumption

/-- The place of a definition's name, which is its first argument. -/
theorem Modifier.Located.place {m : Modifier} (h : m.Located P) : Span.Located P
    (match m.arguments with
      | name :: _ => name.span
      | [] => m.head) := by
  have harguments := h.arguments
  split
  · rename_i name others hname
    exact (harguments name (hname ▸ List.mem_cons_self)).span
  · exact h.head

theorem raised_checkCount? {m : Modifier} {least : Nat} {most : Option Nat} {problem : Message}
    (hm : m.Located P) (h : checkCount? m least most = some problem) : problem.Raised P := by
  simp only [checkCount?] at h
  split at h
  · cases h
    exact Message.raised rfl hm.head
  · split at h
    · cases h
    · split at h
      · cases h
        exact Message.raised rfl hm.head
      · cases h

theorem raised_checkArguments? {m : Modifier} {least : Nat} {most : Option Nat} {problem : Message}
    (hm : m.Located P) (h : checkArguments? m least most = some problem) : problem.Raised P := by
  simp only [checkArguments?] at h
  split at h
  · rename_i argument hargument
    cases h
    exact Message.raised rfl (hm.arguments argument (List.mem_of_find?_eq_some hargument)).span
  · exact raised_checkCount? hm h

/-- The body of an inline definition lies where the nodes that it is made from lie, and so does
whatever is wrong with it. -/
theorem located_flattenInline : ∀ {nodes : List Node} (afterParagraph : Bool),
    (∀ n ∈ nodes, n.Located P) →
      (∀ n ∈ (flattenInline afterParagraph nodes).1, n.Located P) ∧
        AreRaised P (flattenInline afterParagraph nodes).2 := by
  intro nodes
  induction nodes with
  | nil => exact fun _ _ => ⟨List.forall_mem_nil _, areRaised_nil⟩
  | cons node rest ih =>
    intro afterParagraph h
    obtain ⟨hnode, hrest⟩ := List.forall_mem_cons.mp h
    -- a node that is wrong is reported, and left out
    have hreports : ∀ after, (∀ n ∈ (flattenInline after rest).1, n.Located P) ∧
        AreRaised P (Problem.invalidInlineBody.message node.span :: (flattenInline after rest).2) :=
      fun after => ⟨(ih after hrest).1,
        List.forall_mem_cons.mpr ⟨Message.raised rfl hnode.span, (ih after hrest).2⟩⟩
    cases node with
    | paragraph span content =>
      cases afterParagraph with
      | true => exact hreports true
      | false =>
        cases hnode with
        | paragraph hspan hcontent =>
          exact ⟨List.forall_mem_append.mpr ⟨hcontent, (ih true hrest).1⟩, (ih true hrest).2⟩
    | modifier m =>
      by_cases hkind : m.definition.kind = .system
      · simp only [flattenInline, hkind, if_true]
        exact ⟨List.forall_mem_cons.mpr ⟨hnode, (ih false hrest).1⟩, (ih false hrest).2⟩
      · simp only [flattenInline, hkind, if_false]
        exact hreports afterParagraph
    | text _ _ => exact hreports afterParagraph
    | escaped _ _ => exact hreports afterParagraph
    | preformatted _ _ _ => exact hreports afterParagraph

/-! ### Contexts -/

namespace MacroState

variable {s : MacroState} {kind : MacroKind}

theorem Located.setDelayed {delayed : List DelayedFrame} (h : s.Located P) :
    (s.setDelayed kind delayed).Located P := by
  cases kind with
  | block => exact ⟨h.notations, h.modules, h.frames⟩
  | inline => exact ⟨h.notations, h.modules, h.frames⟩

theorem Located.setFrames {frames : List Frame} (h : s.Located P)
    (hframes : ∀ frame ∈ frames, ∀ n ∈ frame.content, n.Located P) :
    (s.setFrames kind frames).Located P := by
  have hall : ∀ kind', ∀ frame ∈ (s.setFrames kind frames).frames kind',
      ∀ n ∈ frame.content, n.Located P := by
    intro kind'
    by_cases hk : kind' = kind
    · subst hk
      rwa [frames_setFrames]
    · rw [frames_setFrames_of_ne hk]
      exact h.frames kind'
  cases kind with
  | block => exact ⟨h.notations, h.modules, hall⟩
  | inline => exact ⟨h.notations, h.modules, hall⟩

end MacroState

namespace Context

variable {cx : Context}

theorem Located.withMacros {s : MacroState} (h : cx.Located P) (hs : s.Located P) :
    (cx.withMacros s).Located P := by
  refine ⟨h.registries, h.systems, fun t ht => ?_⟩
  cases ht
  exact hs

theorem Located.restore {r : Registries} (h : cx.Located P) (hr : r.All (·.Located P)) :
    (cx.restore r).Located P :=
  ⟨hr, h.systems, h.macros⟩

theorem Located.setVariable (h : cx.Located P) (name value : String) :
    (cx.setVariable name value).Located P :=
  ⟨h.registries, h.systems, h.macros⟩

theorem Located.define {kind : MacroKind} {name slotName : String} {parameters : List String}
    {body : List Node} (h : cx.Located P) (hbody : ∀ n ∈ body, n.Located P) :
    Located P { cx with
      configuration := cx.configuration.set
        (.custom kind name parameters slotName body) }.configurationChanged := by
  have hd : ∀ stamp, Definition.Located P
      { Definition.custom kind name parameters slotName body with stamp := stamp } := fun _ => hbody
  cases kind with
  | block => exact ⟨⟨h.registries.1.set (hd _), h.registries.2⟩, h.systems, h.macros⟩
  | inline => exact ⟨⟨h.registries.1, h.registries.2.set (hd _)⟩, h.systems, h.macros⟩

end Context

/-! ### Steps -/

def Upkeep.located (P : Nat → Prop) : Upkeep where
  allows := anyFault
  Holds cx := cx.Located P
  Keeps _ cx' := cx'.Located P
  refl h := h
  trans _ h := h
  holds h := h
  missing _ _ := trivial

section Steps

theorem located_get : Step.Upholds (.located P) (·.Located P) (get : Step Context) :=
  fun _ hcx => ⟨hcx, hcx⟩

theorem located_macros : Step.Upholds (.located P) (·.Located P) Step.macros := by
  intro cx hcx
  cases hs : cx.macros with
  | ok s => exact (ensures_macros hs).mpr ⟨hcx, hcx.macros s hs⟩
  | error fault =>
    simp only [Ensures, Step.macros, hs, bind, Except.bind]
    trivial

theorem located_modifyMacros {f : MacroState → MacroState}
    (h : ∀ s, s.Located P → (f s).Located P) :
    Step.Upholds (.located P) (fun _ => True) (Step.modifyMacros f) := by
  intro cx hcx
  cases hs : cx.macros with
  | ok s => exact (ensures_modifyMacros hs).mpr ⟨hcx.withMacros (h s (hcx.macros s hs)), trivial⟩
  | error fault =>
    simp only [Ensures, Step.modifyMacros, Context.modifyMacros, hs, bind, Except.bind]
    trivial

theorem located_restore {r : Registries} (h : r.All (·.Located P)) :
    Step.Upholds (.located P) (fun _ => True) (Step.restore r) :=
  .modify fun _ hcx => hcx.restore h

theorem located_resolve {name : String} :
    Step.Upholds (.located P) (fun _ => True) (Step.resolve name) := by
  intro cx hcx
  exact ensures_resolution (fun _ _ => trivial) fun _ _ => ⟨hcx, trivial⟩

theorem located_lift {α : Type} {post : α → Prop} {x : Except Fault α}
    (h : ∀ a, x = .ok a → post a) : Step.Upholds (.located P) post (liftM x : Step α) := by
  intro cx hcx
  cases x with
  | ok a => exact ⟨hcx, h a rfl⟩
  | error fault => trivial

end Steps

theorem Span.Located.checked {start stop : Nat} {s : Span} (hstart : P start) (hstop : P stop)
    (h : Span.checked start stop = .ok s) : s.Located P := by
  rw [Span.checked] at h
  split at h
  · cases h
    exact ⟨hstart, hstop⟩
  · cases h

/-! ### Where all offsets may occur -/

mutual

theorem Entity.located_of_forall (h : ∀ offset, P offset) : ∀ part : Entity, part.Located P
  | .text _ _ => .text
  | .escaped _ _ => .escaped
  | .interpolation _ _ ⟨_, content, _⟩ _ =>
    .interpolation ⟨h _, h _⟩ (located_entities_of_forall h content)

theorem located_entities_of_forall (h : ∀ offset, P offset) :
    ∀ parts : List Entity, ∀ part ∈ parts, part.Located P
  | [] => List.forall_mem_nil _
  | part :: rest =>
    List.forall_mem_cons.mpr ⟨part.located_of_forall h, located_entities_of_forall h rest⟩

end

theorem Argument.located_of_forall (h : ∀ offset, P offset) (a : Argument) : a.Located P :=
  ⟨⟨h _, h _⟩, located_entities_of_forall h a.content⟩

mutual

theorem Node.located_of_forall (h : ∀ offset, P offset) : ∀ n : Node, n.Located P
  | .paragraph _ content => .paragraph ⟨h _, h _⟩ (located_nodes_of_forall h content)
  | .preformatted _ _ _ => .preformatted ⟨h _, h _⟩
  | .text _ _ => .text ⟨h _, h _⟩
  | .escaped _ _ => .escaped ⟨h _, h _⟩
  | .modifier ⟨_, _, ⟨_, _, _, _, _, _, behaviour⟩, _, content, _⟩ =>
    .modifier ⟨h _, h _⟩ ⟨h _, h _⟩ (fun a _ => a.located_of_forall h)
      (behaviour.located_of_forall h _ rfl) (located_nodes_of_forall h content)

theorem located_nodes_of_forall (h : ∀ offset, P offset) :
    ∀ nodes : List Node, ∀ n ∈ nodes, n.Located P
  | [] => List.forall_mem_nil _
  | n :: rest => List.forall_mem_cons.mpr ⟨n.located_of_forall h, located_nodes_of_forall h rest⟩

theorem Behaviour.located_of_forall (h : ∀ offset, P offset) :
    ∀ (b : Behaviour) (d : Definition), d.behaviour = b → d.Located P
  | b, d, hd => by
    rw [Definition.Located, Definition.body, hd]
    cases b with
    | custom _ _ _ _ body => exact located_nodes_of_forall h body
    | _ => exact List.forall_mem_nil _

end

theorem Context.located_of_forall (h : ∀ offset, P offset) (cx : Context) : cx.Located P := by
  have hall : ∀ d : Definition, d.Located P := fun d => d.behaviour.located_of_forall h d rfl
  exact ⟨⟨fun _ _ d _ => hall d, fun _ _ d _ => hall d⟩, fun _ _ d _ => hall d, fun s _ =>
    ⟨fun _ _ => ⟨fun _ _ d _ => hall d, fun _ _ d _ => hall d⟩,
      fun _ _ => ⟨fun d _ => hall d, fun d _ => hall d⟩, fun _ _ _ n _ => n.located_of_forall h⟩⟩

end MacroMarkup
