import MacroMarkup.Parser.Block
import Mathlib.Data.List.Chain

/-!
# How a tree lies in its source

Every node of a tree that was read has a span, and what it holds can be found there again.

* `cut`: the code points between two offsets.
* `withoutIndents`: a text without the blanks right behind its line breaks.
* `InOrder`: spans that lie between two offsets, one behind the other.
* `Entity.Faithful`, `Node.Faithful`: what lies in a part of an argument or in a node lies
  inside its span, and each leaf holds what its span covers.  What a modifier was expanded to
  is not looked at.
* `Entity.Laid`, `Node.Laid`: faithful parts and nodes between two offsets.
* `Entity.Written`, `Node.Written`: what was read so far, to which more may be added.
-/

namespace MacroMarkup

/-! ### Pieces of a source -/

/-- The code points of a source between two offsets. -/
def cut (source : List Char) (start stop : Nat) : List Char :=
  (source.drop start).take (stop - start)

theorem cut_append {source : List Char} {start mid stop : Nat} (h : start ≤ mid)
    (h' : mid ≤ stop) : cut source start mid ++ cut source mid stop = cut source start stop := by
  have hdrop : source.drop mid = (source.drop start).drop (mid - start) := by
    rw [List.drop_drop]
    congr 1
    omega
  have hlength : stop - start = (mid - start) + (stop - mid) := by omega
  rw [cut, cut, cut, hdrop, hlength, List.take_add]

/-- The code points without the blanks right behind a line break.  The flag says that there
is nothing but blanks since the last line break. -/
def withoutIndents (behind : Bool) : List Char → List Char
  | [] => []
  | c :: cs =>
    if behind && isBlank c then withoutIndents true cs
    else c :: withoutIndents (c == '\n') cs

theorem withoutIndents_blanks {blanks : List Char} (h : ∀ c ∈ blanks, isBlank c = true)
    (cs : List Char) : withoutIndents true (blanks ++ cs) = withoutIndents true cs := by
  induction blanks with
  | nil => rfl
  | cons c blanks ih =>
    rw [List.cons_append, withoutIndents, h c List.mem_cons_self, Bool.and_self, if_pos rfl]
    exact ih fun d hd => h d (List.mem_cons_of_mem _ hd)

theorem withoutIndents_of_not_blank {cs : List Char}
    (h : ∀ c, cs.head? = some c → isBlank c = false) (behind : Bool) :
    withoutIndents behind cs = withoutIndents false cs := by
  cases cs with
  | nil => rfl
  | cons c cs => simp [withoutIndents, h c rfl]

/-! ### Spans in order -/

/-- The spans lie between two offsets, each one behind the one before it. -/
def InOrder (lo hi : Nat) : List Span → Prop
  | [] => lo ≤ hi
  | s :: rest => lo ≤ s.start ∧ s.start ≤ s.stop ∧ InOrder s.stop hi rest

namespace InOrder

variable {lo hi : Nat} {spans : List Span}

theorem le (h : InOrder lo hi spans) : lo ≤ hi := by
  induction spans generalizing lo with
  | nil => exact h
  | cons s rest ih =>
    obtain ⟨hstart, hle, hrest⟩ := h
    have := ih hrest
    omega

theorem widen {lo' hi' : Nat} (h : InOrder lo hi spans) (hlo : lo' ≤ lo) (hhi : hi ≤ hi') :
    InOrder lo' hi' spans := by
  induction spans generalizing lo lo' with
  | nil => exact Nat.le_trans hlo (Nat.le_trans h hhi)
  | cons s rest ih =>
    obtain ⟨hstart, hle, hrest⟩ := h
    exact ⟨Nat.le_trans hlo hstart, hle, ih hrest (Nat.le_refl _)⟩

theorem append_iff {spans' : List Span} :
    InOrder lo hi (spans ++ spans') ↔ ∃ mid, InOrder lo mid spans ∧ InOrder mid hi spans' := by
  induction spans generalizing lo with
  | nil =>
    refine ⟨fun h => ⟨lo, Nat.le_refl lo, h⟩, fun h => ?_⟩
    obtain ⟨mid, hmid, h⟩ := h
    exact h.widen hmid (Nat.le_refl _)
  | cons s rest ih =>
    constructor
    · intro h
      obtain ⟨hstart, hle, h⟩ := h
      obtain ⟨mid, hrest, h⟩ := ih.mp h
      exact ⟨mid, ⟨hstart, hle, hrest⟩, h⟩
    · intro h
      obtain ⟨mid, hfirst, h⟩ := h
      obtain ⟨hstart, hle, hrest⟩ := hfirst
      exact ⟨hstart, hle, ih.mpr ⟨mid, hrest, h⟩⟩

theorem append {mid : Nat} {spans' : List Span} (h : InOrder lo mid spans)
    (h' : InOrder mid hi spans') : InOrder lo hi (spans ++ spans') :=
  append_iff.mpr ⟨mid, h, h'⟩

theorem single {s : Span} (hlo : lo ≤ s.start) (hs : s.start ≤ s.stop) (hhi : s.stop ≤ hi) :
    InOrder lo hi [s] := ⟨hlo, hs, hhi⟩

theorem within (h : InOrder lo hi spans) :
    ∀ s ∈ spans, lo ≤ s.start ∧ s.start ≤ s.stop ∧ s.stop ≤ hi := by
  induction spans generalizing lo with
  | nil => exact List.forall_mem_nil _
  | cons s rest ih =>
    obtain ⟨hstart, hle, hrest⟩ := h
    intro t ht
    rcases List.mem_cons.mp ht with rfl | ht
    · exact ⟨hstart, hle, hrest.le⟩
    · obtain ⟨hlo, hspan, hhi⟩ := ih hrest t ht
      exact ⟨by omega, hspan, hhi⟩

theorem pairwise (h : InOrder lo hi spans) : spans.Pairwise fun s t => s.stop ≤ t.start := by
  induction spans generalizing lo with
  | nil => exact .nil
  | cons s rest ih =>
    obtain ⟨-, -, hrest⟩ := h
    exact .cons (fun t ht => (hrest.within t ht).1) (ih hrest)

end InOrder

/-! ### Lists of the same length -/

section Lists

variable {α β : Type} {R : α → α → Prop} {l l' : List α}

theorem map_eq_of_forall₂ {f : α → β} (h : l.Forall₂ R l') (hR : ∀ a a', R a a' → f a' = f a) :
    l'.map f = l.map f := by
  induction h with
  | nil => rfl
  | cons ha _ ih => rw [List.map_cons, List.map_cons, hR _ _ ha, ih]

theorem forall_mem_of_forall₂ {P : α → Prop} (h : l.Forall₂ R l')
    (hR : ∀ a a', R a a' → P a → P a') (hl : ∀ a ∈ l, P a) : ∀ a ∈ l', P a := by
  induction h with
  | nil => exact List.forall_mem_nil _
  | cons ha _ ih =>
    rw [List.forall_mem_cons] at hl ⊢
    exact ⟨hR _ _ ha hl.1, ih hl.2⟩

end Lists

/-! ### Arguments -/

/-- What lies in a part of an argument lies inside its span, and it holds what its span
covers. -/
inductive Entity.Faithful (source : List Char) : Entity → Prop
  | text {span : Span} {content : String} :
    content.toList = cut source span.start span.stop → Faithful source (.text span content)
  | escaped {span : Span} {c : Char} :
    span.stop = span.start + 2 → cut source span.start span.stop = ['\\', c] →
    Faithful source (.escaped span c.toString)
  | interpolation {span : Span} {interpolator : Interpolator} {argument : Argument}
      {value : Option String} :
    span.start ≤ argument.span.start → argument.span.stop ≤ span.stop →
    InOrder argument.span.start argument.span.stop (argument.content.map Entity.span) →
    (∀ e ∈ argument.content, Faithful source e) →
    Faithful source (.interpolation span interpolator argument value)

/-- Faithful parts of an argument between two offsets. -/
structure Entity.Laid (source : List Char) (lo hi : Nat) (parts : List Entity) : Prop where
  inOrder : InOrder lo hi (parts.map Entity.span)
  faithful : ∀ e ∈ parts, e.Faithful source

def Argument.Faithful (source : List Char) (a : Argument) : Prop :=
  Entity.Laid source a.span.start a.span.stop a.content

structure Argument.Laid (source : List Char) (lo hi : Nat) (arguments : List Argument) :
    Prop where
  inOrder : InOrder lo hi (arguments.map Argument.span)
  faithful : ∀ a ∈ arguments, a.Faithful source

/-- The second part has the span of the first, and is faithful if the first is. -/
structure Entity.Stays (e e' : Entity) : Prop where
  span : e'.span = e.span
  faithful : ∀ source, e.Faithful source → e'.Faithful source

/-- The second argument has the span of the first, is faithful if the first is, and keeps a
value that is known. -/
structure Argument.Stays (a a' : Argument) : Prop where
  span : a'.span = a.span
  faithful : ∀ source, a.Faithful source → a'.Faithful source
  value : ∀ value, a.value = some value → a'.value = some value

theorem Argument.Stays.refl (a : Argument) : a.Stays a := ⟨rfl, fun _ h => h, fun _ h => h⟩

theorem Argument.Laid.stays {source : List Char} {lo hi : Nat}
    {arguments arguments' : List Argument} (h : Laid source lo hi arguments)
    (hs : arguments.Forall₂ Stays arguments') :
    Laid source lo hi arguments' where
  inOrder := by
    rw [map_eq_of_forall₂ hs fun _ _ ha => ha.span]
    exact h.inOrder
  faithful := forall_mem_of_forall₂ hs (fun _ _ ha => ha.faithful source) h.faithful

theorem Argument.Laid.nil {source : List Char} {lo hi : Nat} (h : lo ≤ hi) : Laid source lo hi [] :=
  ⟨h, List.forall_mem_nil _⟩

theorem Argument.Laid.widen {source : List Char} {lo hi lo' hi' : Nat} {arguments : List Argument}
    (h : Laid source lo hi arguments) (hlo : lo' ≤ lo) (hhi : hi ≤ hi') :
    Laid source lo' hi' arguments :=
  ⟨h.inOrder.widen hlo hhi, h.faithful⟩

theorem Argument.Laid.concat {source : List Char} {lo mid hi : Nat} {arguments : List Argument}
    {a : Argument} (h : Laid source lo mid arguments) (ha : a.Faithful source)
    (hstart : mid ≤ a.span.start) (hspan : a.span.start ≤ a.span.stop) (hstop : a.span.stop ≤ hi) :
    Laid source lo hi (arguments ++ [a]) where
  inOrder := by
    rw [List.map_append]
    exact h.inOrder.append (.single hstart hspan hstop)
  faithful b hb := by
    rcases List.mem_append.mp hb with hb | hb
    · exact h.faithful b hb
    · rw [List.mem_singleton.mp hb]
      exact ha

namespace Entity

variable {source : List Char} {lo mid hi : Nat} {parts : List Entity} {e : Entity}

theorem Laid.nil (h : lo ≤ hi) : Laid source lo hi [] := ⟨h, List.forall_mem_nil _⟩

theorem Laid.single (he : e.Faithful source) (hlo : lo ≤ e.span.start)
    (hspan : e.span.start ≤ e.span.stop) (hhi : e.span.stop ≤ hi) : Laid source lo hi [e] where
  inOrder := .single hlo hspan hhi
  faithful _ he' := List.mem_singleton.mp he' ▸ he

theorem Laid.append_iff {parts' : List Entity} : Laid source lo hi (parts ++ parts') ↔
    ∃ mid, Laid source lo mid parts ∧ Laid source mid hi parts' := by
  constructor
  · intro h
    have horder := h.inOrder
    rw [List.map_append] at horder
    obtain ⟨mid, hfirst, hsecond⟩ := InOrder.append_iff.mp horder
    exact ⟨mid, ⟨hfirst, fun e he => h.faithful e (List.mem_append_left _ he)⟩,
      ⟨hsecond, fun e he => h.faithful e (List.mem_append_right _ he)⟩⟩
  · intro h
    obtain ⟨mid, hfirst, hsecond⟩ := h
    refine ⟨?_, fun e he => ?_⟩
    · rw [List.map_append]
      exact hfirst.inOrder.append hsecond.inOrder
    · exact (List.mem_append.mp he).elim (hfirst.faithful e) (hsecond.faithful e)

theorem Laid.stays {parts' : List Entity} (h : Laid source lo hi parts)
    (hs : parts.Forall₂ Stays parts') : Laid source lo hi parts' where
  inOrder := by
    rw [map_eq_of_forall₂ hs fun _ _ he => he.span]
    exact h.inOrder
  faithful := forall_mem_of_forall₂ hs (fun _ _ he => he.faithful source) h.faithful

theorem Stays.refl (e : Entity) : e.Stays e := ⟨rfl, fun _ h => h⟩

theorem Stays.interpolation {span : Span} {interpolator : Interpolator}
    {argument argument' : Argument} {value value' : Option String} (h : argument.Stays argument') :
    (Entity.interpolation span interpolator argument value).Stays
      (.interpolation span interpolator argument' value') := by
  refine ⟨rfl, fun source hfaithful => ?_⟩
  cases hfaithful with
  | interpolation hstart hstop horder hcontent =>
    have hargument : argument'.Faithful source := h.faithful source ⟨horder, hcontent⟩
    rw [← h.span] at hstart hstop
    exact .interpolation hstart hstop hargument.inOrder hargument.faithful

/-- Parts were read between `lo` and an offset, the last one first, and text reaches up to
there. -/
structure Written (source : List Char) (lo position : Nat) (parts : List Entity) : Prop where
  laid : Laid source lo position parts.reverse
  reaches : ∀ span content, parts.head? = some (.text span content) → span.stop = position

theorem Written.nil {position : Nat} (h : lo ≤ position) : Written source lo position [] :=
  ⟨.nil h, fun _ _ h => by cases h⟩

theorem Written.push {position next : Nat} (h : Written source lo position parts)
    (he : e.Faithful source) (htext : ∀ span content, e ≠ .text span content)
    (hstart : position ≤ e.span.start) (hspan : e.span.start ≤ e.span.stop)
    (hstop : e.span.stop ≤ next) : Written source lo next (e :: parts) := by
  constructor
  · rw [List.reverse_cons]
    exact Laid.append_iff.mpr ⟨position, h.laid, .single he hstart hspan hstop⟩
  · intro span content hlast
    exact absurd (Option.some.inj hlast) (htext span content)

theorem Written.interpolation {position next start stop : Nat} {interpolator : Interpolator}
    {content : List Entity} (h : Written source lo position parts)
    (hcontent : Laid source start stop content) (hstart : position ≤ start) (hstop : stop ≤ next)
    (hnext : position ≤ next) : Written source lo next
      (.interpolation ⟨position, next⟩ interpolator ⟨⟨start, stop⟩, content, none⟩ none :: parts) :=
  h.push (.interpolation hstart hstop hcontent.inOrder hcontent.faithful)
    (fun _ _ h => by cases h) (Nat.le_refl _) hnext (Nat.le_refl _)

/-- Text goes behind the others, or is added to the last one. -/
theorem Written.appendText {position next : Nat} {text : String}
    (h : Written source lo position parts) (hnext : position ≤ next)
    (htext : text.toList = cut source position next) :
    Written source lo next (appendEntityText text ⟨position, next⟩ parts) := by
  unfold appendEntityText
  split
  · rename_i span content rest
    have hreaches : span.stop = position := h.reaches span content rfl
    have hbefore := h.laid
    rw [List.reverse_cons] at hbefore
    obtain ⟨mid, hfirst, hlast⟩ := Laid.append_iff.mp hbefore
    obtain ⟨hstart, hspan, -⟩ := hlast.inOrder
    simp only [Entity.span] at hstart hspan
    have hfaithful : content.toList = cut source span.start position := by
      have hcontent := hlast.faithful _ List.mem_cons_self
      rw [← hreaches]
      cases hcontent
      assumption
    constructor
    · rw [List.reverse_cons]
      refine Laid.append_iff.mpr ⟨mid, hfirst, .single (.text ?_) hstart ?_ (Nat.le_refl _)⟩
      · rw [String.toList_append, hfaithful, htext]
        exact cut_append (hreaches ▸ hspan) hnext
      · exact Nat.le_trans hspan (hreaches ▸ hnext)
    · intro span' content' hlast'
      cases hlast'
      rfl
  · constructor
    · rw [List.reverse_cons]
      exact Laid.append_iff.mpr
        ⟨position, h.laid, .single (.text htext) (Nat.le_refl _) hnext (Nat.le_refl _)⟩
    · intro span' content' hlast'
      cases hlast'
      rfl

end Entity

/-! ### Nodes -/

/-- The node is text, and not a single character behind a backslash. -/
def Node.isText : Node → Bool
  | .text _ _ => true
  | _ => false

def Node.Apart (n n' : Node) : Prop := ¬ (n.isText = true ∧ n'.isText = true)

/-- What lies in a node lies inside its span, one behind the other, and a leaf holds what its
span covers; text holds it without the blanks right behind its line breaks. -/
inductive Node.Faithful (source : List Char) : Node → Prop
  | paragraph {span : Span} {content : List Node} :
    InOrder span.start span.stop (content.map Node.span) → content.IsChain Node.Apart →
    (∀ n ∈ content, Faithful source n) → Faithful source (.paragraph span content)
  | preformatted {span contentSpan : Span} {text : String} :
    span.start ≤ contentSpan.start → contentSpan.start ≤ contentSpan.stop →
    contentSpan.stop ≤ span.stop →
    text.toList = cut source contentSpan.start contentSpan.stop →
    Faithful source (.preformatted span contentSpan text)
  | text {span : Span} {content : String} :
    content ≠ "" → content.toList = withoutIndents false (cut source span.start span.stop) →
    Faithful source (.text span content)
  | escaped {span : Span} {c : Char} :
    span.stop = span.start + 2 → cut source span.start span.stop = ['\\', c] →
    Faithful source (.escaped span c.toString)
  | modifier {m : Modifier} :
    m.head.start = m.span.start → Argument.Laid source m.head.start m.head.stop m.arguments →
    InOrder m.head.stop m.span.stop (m.content.map Node.span) → m.content.IsChain Node.Apart →
    (∀ n ∈ m.content, Faithful source n) → Faithful source (.modifier m)

/-- Faithful nodes between two offsets, no two texts next to each other. -/
structure Node.Laid (source : List Char) (lo hi : Nat) (nodes : List Node) : Prop where
  inOrder : InOrder lo hi (nodes.map Node.span)
  apart : nodes.IsChain Node.Apart
  faithful : ∀ n ∈ nodes, n.Faithful source

/-- Faithful nodes between two offsets, none of which is text. -/
structure Node.Blocks (source : List Char) (lo hi : Nat) (nodes : List Node) : Prop
    extends Node.Laid source lo hi nodes where
  noText : ∀ n ∈ nodes, n.isText = false

/-- The second node has the span of the first, is text if the first is, and is faithful if the
first is. -/
structure Node.Stays (n n' : Node) : Prop where
  span : n'.span = n.span
  isText : n'.isText = n.isText
  faithful : ∀ source, n.Faithful source → n'.Faithful source

namespace Node

variable {source : List Char} {lo mid hi : Nat} {nodes nodes' : List Node} {n : Node}

theorem Laid.nil (h : lo ≤ hi) : Laid source lo hi [] := ⟨h, .nil, List.forall_mem_nil _⟩

theorem Laid.single (hn : n.Faithful source) (hlo : lo ≤ n.span.start)
    (hspan : n.span.start ≤ n.span.stop) (hhi : n.span.stop ≤ hi) : Laid source lo hi [n] where
  inOrder := .single hlo hspan hhi
  apart := .singleton n
  faithful _ hn' := List.mem_singleton.mp hn' ▸ hn

theorem Laid.widen {lo' hi' : Nat} (h : Laid source lo hi nodes) (hlo : lo' ≤ lo)
    (hhi : hi ≤ hi') : Laid source lo' hi' nodes :=
  ⟨h.inOrder.widen hlo hhi, h.apart, h.faithful⟩

theorem Laid.append_iff : Laid source lo hi (nodes ++ nodes') ↔
    ∃ mid, Laid source lo mid nodes ∧ Laid source mid hi nodes' ∧
      ∀ n ∈ nodes.getLast?, ∀ n' ∈ nodes'.head?, n.Apart n' := by
  constructor
  · intro h
    have horder := h.inOrder
    rw [List.map_append] at horder
    obtain ⟨mid, hfirst, hsecond⟩ := InOrder.append_iff.mp horder
    obtain ⟨hapart, hapart', hbetween⟩ := List.isChain_append.mp h.apart
    exact ⟨mid, ⟨hfirst, hapart, fun n hn => h.faithful n (List.mem_append_left _ hn)⟩,
      ⟨hsecond, hapart', fun n hn => h.faithful n (List.mem_append_right _ hn)⟩, hbetween⟩
  · intro h
    obtain ⟨mid, hfirst, hsecond, hbetween⟩ := h
    refine ⟨?_, List.isChain_append.mpr ⟨hfirst.apart, hsecond.apart, hbetween⟩, fun n hn => ?_⟩
    · rw [List.map_append]
      exact hfirst.inOrder.append hsecond.inOrder
    · rcases List.mem_append.mp hn with hn | hn
      · exact hfirst.faithful n hn
      · exact hsecond.faithful n hn

theorem Laid.stays (h : Laid source lo hi nodes) (hs : nodes.Forall₂ Stays nodes') :
    Laid source lo hi nodes' where
  inOrder := by
    rw [map_eq_of_forall₂ hs fun _ _ hn => hn.span]
    exact h.inOrder
  apart := by
    have htexts := map_eq_of_forall₂ hs fun _ _ hn => hn.isText
    have happart : (nodes.map isText).IsChain fun t t' => ¬ (t = true ∧ t' = true) :=
      (List.isChain_map isText).mpr h.apart
    rw [← htexts] at happart
    exact (List.isChain_map isText).mp happart
  faithful := forall_mem_of_forall₂ hs (fun _ _ hn => hn.faithful source) h.faithful

/-- Siblings lie inside the offsets between which they are laid, and apart from each other. -/
theorem Laid.siblings (h : Laid source lo hi nodes) :
    (∀ n ∈ nodes, lo ≤ n.span.start ∧ n.span.start ≤ n.span.stop ∧ n.span.stop ≤ hi) ∧
      nodes.Pairwise fun n n' => n.span.stop ≤ n'.span.start :=
  ⟨fun n hn => h.inOrder.within n.span (List.mem_map_of_mem hn),
    List.pairwise_map.mp h.inOrder.pairwise⟩

/-- Nodes that are no text are laid behind any others. -/
theorem Laid.append (h : Laid source lo mid nodes) (h' : Laid source mid hi nodes')
    (hnodes : ∀ n ∈ nodes', n.isText = false) : Laid source lo hi (nodes ++ nodes') := by
  refine Laid.append_iff.mpr ⟨mid, h, h', fun n _ n' hn' hboth => ?_⟩
  have htext := hnodes n' (List.mem_of_mem_head? hn')
  rw [hboth.2] at htext
  cases htext

theorem Blocks.nil (h : lo ≤ hi) : Blocks source lo hi [] := ⟨.nil h, List.forall_mem_nil _⟩

theorem Blocks.append (h : Blocks source lo mid nodes) (h' : Blocks source mid hi nodes') :
    Blocks source lo hi (nodes ++ nodes') where
  toLaid := h.toLaid.append h'.toLaid h'.noText
  noText n hn := (List.mem_append.mp hn).elim (h.noText n) (h'.noText n)

theorem Stays.refl (n : Node) : n.Stays n := ⟨rfl, rfl, fun _ h => h⟩

theorem Stays.trans {n' n'' : Node} (h : n.Stays n') (g : n'.Stays n'') : n.Stays n'' :=
  ⟨g.span.trans h.span, g.isText.trans h.isText,
    fun source hn => g.faithful source (h.faithful source hn)⟩

theorem Stays.paragraph {span : Span} (h : nodes.Forall₂ Stays nodes') :
    (paragraph span nodes).Stays (paragraph span nodes') := by
  refine ⟨rfl, rfl, fun source hfaithful => ?_⟩
  cases hfaithful with
  | paragraph horder happart hcontent =>
    have hlaid : Laid source span.start span.stop nodes' := Laid.stays ⟨horder, happart, hcontent⟩ h
    exact .paragraph hlaid.inOrder hlaid.apart hlaid.faithful

theorem Stays.modifier {m m' : Modifier} (hspan : m'.span = m.span) (hhead : m'.head = m.head)
    (harguments : m.arguments.Forall₂ Argument.Stays m'.arguments)
    (hcontent : m.content.Forall₂ Stays m'.content) :
    (modifier m).Stays (modifier m') := by
  refine ⟨hspan, rfl, fun source hfaithful => ?_⟩
  cases hfaithful with
  | modifier hstart hlaid horder happart hnodes =>
    have hlaid' : Laid source m.head.stop m.span.stop m'.content :=
      Laid.stays ⟨horder, happart, hnodes⟩ hcontent
    rw [← hspan, ← hhead] at *
    exact .modifier hstart (hlaid.stays harguments) hlaid'.inOrder hlaid'.apart hlaid'.faithful

/-! ### What was read so far -/

/-- Text can be added to at an offset: what follows adds to it what it holds on its own. -/
def GoesOn (source : List Char) (position : Nat) : Node → Prop
  | .text span content => ∀ count,
      withoutIndents false (cut source span.start (position + count))
        = content.toList ++ withoutIndents false (cut source position (position + count))
  | _ => True

/-- Nodes were read between `lo` and an offset, the last one first, and more text may be added
to them there. -/
structure Written (source : List Char) (lo position : Nat) (before : List Node) : Prop where
  laid : Laid source lo position before.reverse
  goesOn : ∀ n ∈ before.head?, n.GoesOn source position

theorem Written.nil {position : Nat} (h : lo ≤ position) : Written source lo position [] :=
  ⟨.nil h, fun n hn => by cases hn⟩

section Written

variable {position next stop : Nat} {before : List Node} {text : String}

theorem Written.push (h : Written source lo position before) (hn : n.Faithful source)
    (htext : n.isText = false) (hstart : position ≤ n.span.start)
    (hspan : n.span.start ≤ n.span.stop) (hstop : n.span.stop ≤ next) :
    Written source lo next (n :: before) := by
  constructor
  · rw [List.reverse_cons]
    refine h.laid.append (.single hn hstart hspan hstop) fun n' hn' => ?_
    rwa [List.mem_singleton.mp hn']
  · intro n' hn'
    cases hn'
    cases n with
    | text _ _ => cases htext
    | _ => trivial

theorem Written.appendText (h : Written source lo position before) (htext : text ≠ "")
    (hstop : position ≤ stop) (hnext : stop ≤ next)
    (hcontent : text.toList = withoutIndents false (cut source position stop))
    (hrest : ∀ count, withoutIndents false (cut source position (next + count))
      = text.toList ++ withoutIndents false (cut source next (next + count))) :
    Written source lo next (appendText text ⟨position, stop⟩ before) := by
  unfold MacroMarkup.appendText
  split
  · rename_i span content rest
    have hgoes : ∀ count, withoutIndents false (cut source span.start (position + count))
        = content.toList ++ withoutIndents false (cut source position (position + count)) :=
      h.goesOn _ rfl
    have hbefore := h.laid
    rw [List.reverse_cons] at hbefore
    obtain ⟨mid, hfirst, hlast, hbetween⟩ := Laid.append_iff.mp hbefore
    obtain ⟨hstart, hspan, hend⟩ := hlast.inOrder
    simp only [Node.span] at hstart hspan hend
    constructor
    · rw [List.reverse_cons]
      refine Laid.append_iff.mpr ⟨mid, hfirst, .single (.text ?_ ?_) hstart ?_ hnext, ?_⟩
      · simp [htext]
      · obtain ⟨count, rfl⟩ := Nat.exists_eq_add_of_le hstop
        rw [String.toList_append, hcontent, ← hgoes count]
      · exact Nat.le_trans hspan (Nat.le_trans hend hstop)
      · intro n hn n' hn'
        cases hn'
        exact hbetween n hn (.text span content) rfl
    · intro n hn
      cases hn
      intro count
      obtain ⟨gap, rfl⟩ := Nat.exists_eq_add_of_le (Nat.le_trans hstop hnext)
      have hlater := hrest count
      rw [Nat.add_assoc] at hlater ⊢
      rw [String.toList_append, List.append_assoc, ← hlater]
      exact hgoes (gap + count)
  · rename_i hnone
    have hlast : ∀ n ∈ before.reverse.getLast?, n.isText = false := by
      intro n hn
      rw [List.getLast?_reverse] at hn
      cases before with
      | nil => cases hn
      | cons n' rest =>
        cases hn
        cases n with
        | text span content => exact (hnone span content rest rfl).elim
        | _ => rfl
    constructor
    · rw [List.reverse_cons]
      refine Laid.append_iff.mpr ⟨position, h.laid,
        .single (.text htext hcontent) (Nat.le_refl _) hstop hnext, fun n hn n' _ hboth => ?_⟩
      rw [hlast n hn] at hboth
      cases hboth.1
    · intro n hn
      cases hn
      exact hrest

theorem Written.character {c : Char} (h : Written source lo position before)
    (hc : cut source position (position + 1) = [c]) (hbreak : c ≠ '\n') :
    Written source lo (position + 1)
      (MacroMarkup.appendText c.toString ⟨position, position + 1⟩ before) := by
  have hcontent : c.toString.toList = [c] := String.toList_singleton c
  have hwritten : ∀ cs, withoutIndents false (c :: cs) = c :: withoutIndents false cs := by
    intro cs
    have hplain : (c == '\n') = false := beq_eq_false_iff_ne.mpr hbreak
    rw [withoutIndents, hplain, Bool.false_and, if_neg Bool.false_ne_true]
  refine h.appendText ?_ (Nat.le_succ _) (Nat.le_refl _) ?_ fun count => ?_
  · intro hempty
    rw [hempty] at hcontent
    cases hcontent
  · rw [hc, hcontent, hwritten]
    rfl
  · rw [← cut_append (Nat.le_succ position) (Nat.le_add_right _ count), hc, hcontent]
    exact hwritten _

theorem Written.lineBreak (h : Written source lo position before)
    (hc : cut source position (position + 1) = ['\n']) (hnext : position + 1 ≤ next)
    (hblank : ∀ c ∈ cut source (position + 1) next, isBlank c = true)
    (hends : ∀ c, (source.drop next).head? = some c → isBlank c = false) :
    Written source lo next (MacroMarkup.appendText "\n" ⟨position, position + 1⟩ before) := by
  have hhead : ∀ count c, (cut source next (next + count)).head? = some c → isBlank c = false := by
    intro count c hhead
    rw [cut, Nat.add_sub_cancel_left, List.head?_take] at hhead
    split at hhead
    · cases hhead
    · exact hends c hhead
  refine h.appendText (by decide) (Nat.le_succ _) hnext ?_ fun count => ?_
  · rw [hc]
    rfl
  · have hpassed : cut source position (next + count)
        = '\n' :: (cut source (position + 1) next ++ cut source next (next + count)) := by
      rw [cut_append hnext (Nat.le_add_right _ count),
        ← cut_append (Nat.le_succ position) (Nat.le_trans hnext (Nat.le_add_right _ count)), hc]
      rfl
    have hskipped : withoutIndents false (cut source position (next + count)) = '\n' ::
        withoutIndents true (cut source (position + 1) next ++ cut source next (next + count)) := by
      rw [hpassed]
      rfl
    rw [hskipped, withoutIndents_blanks hblank, withoutIndents_of_not_blank (hhead count)]
    rfl

end Written

end Node

end MacroMarkup
