import MacroMarkup.Proofs.Evaluation
import MacroMarkup.Parser.Document

/-!
# Reading that expands nothing

Most steps of reading only move the cursor on and report.  Each of them passes a piece of
the source, and those that look for something pass at least one character if they find it.

* `Cursor.Passes`: the cursor moved on along the source.
* `Reader.Scans`: so did the reader, and else it only reported.
* `ensures_accept`, `ensures_takeChar?`, `ensures_skipLines`, …: the laws of the steps.
* `ensures_findLongestM?`: a registered name that is next, provided no name is empty.
-/

namespace MacroMarkup

/-- The second cursor stands behind the first on the same source, with `passed` between
them. -/
structure Cursor.Reads (c : Cursor) (passed : List Char) (c' : Cursor) : Prop where
  source : c'.source = c.source
  rest : c.rest = passed ++ c'.rest
  position : c'.position = c.position + passed.length

/-- The second cursor stands behind the first, on the same source. -/
def Cursor.Passes (c c' : Cursor) : Prop := ∃ passed, c.Reads passed c'

/-- What is ahead is what follows the position in a source. -/
structure Cursor.Anchored (c : Cursor) (source : List Char) : Prop where
  rest : source.drop c.position = c.rest
  position : c.position ≤ source.length

namespace Cursor

variable {c c' c'' : Cursor} {passed passed' : List Char}

theorem Reads.refl (c : Cursor) : c.Reads [] c := ⟨rfl, rfl, rfl⟩

theorem Reads.trans (h : c.Reads passed c') (g : c'.Reads passed' c'') :
    c.Reads (passed ++ passed') c'' where
  source := g.source.trans h.source
  rest := by rw [h.rest, g.rest, List.append_assoc]
  position := by rw [g.position, h.position, List.length_append, Nat.add_assoc]

theorem Passes.refl (c : Cursor) : c.Passes c := ⟨[], .refl c⟩

theorem Passes.trans (h : c.Passes c') (g : c'.Passes c'') : c.Passes c'' := by
  obtain ⟨passed, hreads⟩ := h
  obtain ⟨passed', hreads'⟩ := g
  exact ⟨passed ++ passed', hreads.trans hreads'⟩

theorem Passes.position_le (h : c.Passes c') : c.position ≤ c'.position := by
  obtain ⟨passed, hreads⟩ := h
  have hposition := hreads.position
  omega

theorem Passes.length_le (h : c.Passes c') : c'.rest.length ≤ c.rest.length := by
  obtain ⟨passed, hreads⟩ := h
  rw [hreads.rest, List.length_append]
  exact Nat.le_add_left _ _

theorem Reads.cut_eq {source : List Char} (h : c.Reads passed c') (hc : c.Anchored source) :
    cut source c.position c'.position = passed := by
  rw [cut, hc.rest, h.rest, h.position, Nat.add_sub_cancel_left, List.take_left]

theorem Passes.anchored {source : List Char} (h : c.Passes c') (hc : c.Anchored source) :
    c'.Anchored source := by
  obtain ⟨passed, hreads⟩ := h
  have hlength := congrArg List.length hc.rest
  have hle := hc.position
  rw [hreads.rest, List.length_drop, List.length_append] at hlength
  constructor
  · rw [hreads.position, ← List.drop_drop, hc.rest, hreads.rest, List.drop_left]
  · rw [hreads.position]
    omega

/-- What lies behind a cursor and what is ahead of it make up the source. -/
theorem Anchored.position_add_length {source : List Char} (h : c.Anchored source) :
    c.position + c.rest.length = source.length := by
  have hle := h.position
  rw [← h.rest, List.length_drop]
  omega

theorem Anchored.position_of_end {source : List Char} (h : c.Anchored source)
    (hend : c.rest = []) : c.position = source.length := by
  have hlength := h.position_add_length
  rwa [hend] at hlength

theorem reads_advance (c : Cursor) (n : Nat) : c.Reads (c.rest.take n) (c.advance n) :=
  ⟨rfl, (List.take_append_drop n c.rest).symm, rfl⟩

theorem reads_skipWhile (c : Cursor) (p : Char → Bool) :
    c.Reads (c.rest.takeWhile p) (c.skipWhile p) :=
  ⟨rfl, List.takeWhile_append_dropWhile.symm, rfl⟩

theorem passes_advance (c : Cursor) (n : Nat) : c.Passes (c.advance n) := ⟨_, reads_advance c n⟩

theorem passes_skipWhile (c : Cursor) (p : Char → Bool) : c.Passes (c.skipWhile p) :=
  ⟨_, reads_skipWhile c p⟩

theorem passes_takeInspectors (c : Cursor) : c.Passes c.takeInspectors.2 := ⟨[], rfl, rfl, rfl⟩

/-- A literal that is next is what moving past it passes. -/
theorem reads_literal {literal : String} (h : c.peek literal = true) :
    c.Reads literal.toList (c.advance literal.toList.length) := by
  obtain ⟨rest, hrest⟩ := List.isPrefixOf_iff_prefix.mp h
  have htake : c.rest.take literal.toList.length = literal.toList := by
    rw [← hrest, List.take_left]
  have hreads := reads_advance c literal.toList.length
  rwa [htake] at hreads

theorem length_advance_lt {literal : String} (hne : literal ≠ "") (h : c.peek literal = true) :
    (c.advance literal.toList.length).rest.length < c.rest.length := by
  have hlength : 0 < literal.toList.length := by
    rw [List.length_pos_iff]
    exact fun hnil => hne (String.toList_eq_nil_iff.mp hnil)
  have hle := (List.isPrefixOf_iff_prefix.mp h).length_le
  rw [length_rest_advance]
  omega

end Cursor

/-- The reader moved on and reported, and did nothing else. -/
structure Reader.Scans (r r' : Reader) : Prop where
  passes : r.cursor.Passes r'.cursor
  reports : r.engine.Reports r'.engine
  openGroups : r'.openGroups = r.openGroups

namespace Reader

variable {r r' r'' : Reader}

abbrev left (r : Reader) : Nat := r.cursor.rest.length

theorem Scans.refl (r : Reader) : r.Scans r := ⟨.refl _, .refl _, rfl⟩

theorem Scans.trans (h : r.Scans r') (g : r'.Scans r'') : r.Scans r'' :=
  ⟨h.passes.trans g.passes, h.reports.trans g.reports, g.openGroups.trans h.openGroups⟩

theorem Scans.anchored {source : List Char} (h : r.Scans r') (hr : r.cursor.Anchored source) :
    r'.cursor.Anchored source :=
  h.passes.anchored hr

theorem Scans.position_le (h : r.Scans r') : r.cursor.position ≤ r'.cursor.position :=
  h.passes.position_le

theorem Scans.left_le (h : r.Scans r') : r'.left ≤ r.left := h.passes.length_le

theorem Scans.configuration (h : r.Scans r') :
    r'.engine.context.configuration = r.engine.context.configuration := by
  rw [h.reports.context]

theorem scans_of_passes {c : Cursor} (h : r.cursor.Passes c) : r.Scans { r with cursor := c } :=
  ⟨h, .refl _, rfl⟩

theorem scans_enter (kind : EnclosureKind) : r.Scans (r.enter kind) := ⟨.refl _, .refl _, rfl⟩

theorem scans_leave (closed : Bool) : r.Scans (r.leave closed) := ⟨.refl _, .refl _, rfl⟩

end Reader

/-! ### Steps -/

section Steps

variable {allows : Fault → Prop} {r : Reader}

open Parse

theorem ensures_position {post : Nat → Reader → Prop} :
    Ensures allows position r post ↔ post r.cursor.position r := Iff.rfl

theorem ensures_isAtEnd {post : Bool → Reader → Prop} :
    Ensures allows isAtEnd r post ↔ post r.cursor.isAtEnd r := Iff.rfl

theorem ensures_configuration {post : Configuration → Reader → Prop} :
    Ensures allows configuration r post ↔ post r.engine.context.configuration r := Iff.rfl

theorem ensures_peek {mark : Mark} {post : Bool → Reader → Prop} :
    Ensures allows (peek mark) r post ↔ post (r.cursor.peek mark.text) r := Iff.rfl

@[simp] theorem ensures_enter {kind : EnclosureKind} {post : Unit → Reader → Prop} :
    Ensures allows (enter kind) r post ↔ post () (r.enter kind) := Iff.rfl

@[simp] theorem ensures_leave {closed : Bool} {post : Unit → Reader → Prop} :
    Ensures allows (leave closed) r post ↔ post () (r.leave closed) := Iff.rfl

theorem ensures_emit {p : Problem} {span : Span} {post : Unit → Reader → Prop}
    (hp : p.isSyntactic = true) (h : ∀ r', r.Scans r' → r'.cursor = r.cursor → post () r') :
    Ensures allows (emit [p.message span]) r post :=
  h _ ⟨.refl _, Engine.reports_emit (.inl hp) _, rfl⟩ rfl

theorem ensures_moveCursor {f : Cursor → Cursor} {post : Unit → Reader → Prop}
    (hf : r.cursor.Passes (f r.cursor))
    (h : ∀ r', r.Scans r' → r'.cursor = f r.cursor → post () r') :
    Ensures allows (moveCursor f) r post :=
  h _ (Reader.scans_of_passes hf) rfl

theorem ensures_spanFrom {start : Nat} {post : Span → Reader → Prop}
    (hstart : start ≤ r.cursor.position) (h : post ⟨start, r.cursor.position⟩ r) :
    Ensures allows (spanFrom start) r post :=
  ensures_checked hstart h

theorem Parse.accept_of_peek {mark : Mark} (h : r.cursor.peek mark.text = true) :
    accept mark r
      = .ok (true, { r with cursor := r.cursor.advance mark.text.toList.length }) := by
  simp only [accept, Cursor.accept, h, if_true]

theorem Parse.accept_of_not_peek {mark : Mark} (h : r.cursor.peek mark.text = false) :
    accept mark r = .ok (false, r) := by
  simp only [accept, Cursor.accept_of_not_peek h]

theorem ensures_acceptMark {mark : Mark} {post : Bool → Reader → Prop}
    (hfound : ∀ r', r.Scans r' → r'.left < r.left → r.cursor.Reads mark.text.toList r'.cursor →
      post true r')
    (hmissing : r.cursor.peek mark.text = false → post false r) :
    Ensures allows (accept mark) r post := by
  cases h : r.cursor.peek mark.text with
  | true =>
    rw [ensures_of_eq (accept_of_peek h)]
    exact hfound _ (Reader.scans_of_passes (Cursor.passes_advance _ _))
      (Cursor.length_advance_lt (mark_text_ne_empty mark) h) (Cursor.reads_literal h)
  | false =>
    rw [ensures_of_eq (accept_of_not_peek h)]
    exact hmissing h

theorem ensures_accept {mark : Mark} {post : Bool → Reader → Prop}
    (hfound : r.cursor.peek mark.text = true → ∀ r', r.Scans r' → r'.left < r.left → post true r')
    (hmissing : r.cursor.peek mark.text = false → post false r) :
    Ensures allows (accept mark) r post := by
  refine ensures_acceptMark (fun r' hs hlt hreads => hfound ?_ r' hs hlt) hmissing
  rw [Cursor.peek, hreads.rest]
  exact List.isPrefixOf_iff_prefix.mpr (List.prefix_append _ _)

theorem ensures_acceptAny {mark : Mark} {post : Bool → Reader → Prop}
    (h : ∀ found r', r.Scans r' → post found r') : Ensures allows (accept mark) r post :=
  ensures_accept (fun _ r' hr' _ => h true r' hr') fun _ => h false r (.refl r)

theorem ensures_peekName {name : String} (hname : name = "" → allows .emptyLiteral)
    {post : Bool → Reader → Prop} (h : post (r.cursor.peek name) r) :
    Ensures allows (peekName name) r post := by
  simp only [peekName, String.isEmpty_iff]
  by_cases hempty : name = ""
  · rw [if_pos hempty]
    exact hname hempty
  · rw [if_neg hempty]
    exact h

theorem ensures_acceptName {name : String} {post : Bool → Reader → Prop}
    (hname : name = "" → allows .emptyLiteral)
    (hfound : r.cursor.peek name = true → ∀ r', r.Scans r' → r'.left < r.left → post true r')
    (hmissing : r.cursor.peek name = false → post false r) :
    Ensures allows (acceptName name) r post := by
  by_cases hempty : name = ""
  · simp only [acceptName, peekName, hempty, String.isEmpty_iff, if_true, ensures_bind,
      ensures_throw]
    exact hname hempty
  · simp only [acceptName, ensures_bind]
    refine ensures_peekName hname ?_
    cases h : r.cursor.peek name with
    | true =>
      simp only [if_true, ensures_bind]
      exact hfound h _ (Reader.scans_of_passes (Cursor.passes_advance _ _))
        (Cursor.length_advance_lt hempty h)
    | false => exact hmissing h

theorem ensures_takeChar? {post : Option Char → Reader → Prop}
    (hsome : ∀ c r', r.Scans r' → r'.left < r.left → r.cursor.Reads [c] r'.cursor →
      post (some c) r')
    (hnone : r.cursor.rest = [] → post none r) : Ensures allows takeChar? r post := by
  cases hrest : r.cursor.rest with
  | nil =>
    simp only [Ensures, takeChar?, Cursor.takeChar?, hrest]
    exact hnone hrest
  | cons c rest =>
    simp only [Ensures, takeChar?, Cursor.takeChar?, hrest]
    have hreads : r.cursor.Reads [c]
        { r.cursor with rest := rest, position := r.cursor.position + 1 } := ⟨rfl, hrest, rfl⟩
    refine hsome c _ (Reader.scans_of_passes ⟨_, hreads⟩) ?_ hreads
    simp only [Reader.left, hrest, List.length_cons]
    exact Nat.lt_succ_self _

theorem ensures_skipBlanks {post : Unit → Reader → Prop}
    (h : ∀ r', r.Scans r' → (∃ blanks, r.cursor.Reads blanks r'.cursor ∧
        (∀ c ∈ blanks, isBlank c = true) ∧
        ∀ c, r'.cursor.rest.head? = some c → isBlank c = false) → post () r') :
    Ensures allows skipBlanks r post := by
  refine h _ (Reader.scans_of_passes (Cursor.passes_skipWhile _ _)) ⟨_, Cursor.reads_skipWhile _ _,
    fun c hc => (List.all_eq_true.mp List.all_takeWhile) c hc, fun c hc => ?_⟩
  have hhead := List.head?_dropWhile_not isBlank r.cursor.rest
  simp only [Cursor.skipWhile] at hc
  rw [hc] at hhead
  simpa using hhead

theorem ensures_skipSpacing {post : Unit → Reader → Prop} (h : ∀ r', r.Scans r' → post () r') :
    Ensures allows skipSpacing r post :=
  ensures_moveCursor (Cursor.passes_skipWhile _ _) fun r' hs _ => h r' hs

theorem ensures_skipLines {limit : Nat} {post : Unit → Reader → Prop}
    (h : ∀ r', r.Scans r' → post () r') : Ensures allows (skipLines limit) r post := by
  simp only [skipLines, ensures_bind, ensures_position, ensures_get]
  refine ensures_skipSpacing fun r' hr' => ?_
  simp only [ensures_ite, ensures_bind]
  refine ⟨fun _ => ensures_spanFrom hr'.position_le ?_, fun _ => h r' hr'⟩
  exact ensures_emit rfl fun r'' hr'' _ => h r'' (hr'.trans hr'')

theorem ensures_endLine {post : Unit → Reader → Prop} (h : ∀ r', r.Scans r' → post () r') :
    Ensures allows endLine r post := by
  simp only [endLine, ensures_bind]
  refine ensures_skipBlanks fun r₁ h₁ _ => ensures_accept (fun _ r₂ h₂ _ => ?_) fun _ => ?_
  · exact h r₂ (h₁.trans h₂)
  · simp only [Bool.not_false, if_true, ensures_bind, ensures_position]
    exact ensures_emit rfl fun r₂ h₂ _ => h r₂ (h₁.trans h₂)

theorem ensures_fireInspectors {post : Unit → Reader → Prop}
    (h : ∀ r', r.Scans r' → r'.cursor.rest = r.cursor.rest → post () r') :
    Ensures allows fireInspectors r post :=
  h _ ⟨Cursor.passes_takeInspectors _, .refl _, rfl⟩ rfl

end Steps

end MacroMarkup
