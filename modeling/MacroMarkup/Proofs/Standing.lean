import Mathlib.Data.List.TakeWhile
import MacroMarkup.Proofs.Heads

/-!
# Where a reader stands

What a reader does next depends on the text ahead of it.  Where that text is known, so is what
each step reads, where it leaves the reader, and that it meets no fault.

* `Reader.Faces`, `Reader.StandsAt`: what is ahead of a reader, and where it stands.
* `stands_accept`, `stands_takeChar`, `stands_skipLines`, …: the steps from there.
* `stands_readInline`, `stands_readCharacter_line`: pieces of a paragraph.
  `ensures_readParagraph_character`, `ensures_readParagraph_done`: a paragraph, piece by piece.
* `stands_readBlock_paragraph`: a block that starts like none of the other constructs.
  `stands_readBlock_modifier`: one that starts like a modifier.
* `Parse.GoesOn`: nothing ends an argument here.  `stands_readEntities_escape`,
  `stands_readEntities_separator`, …: parts of an argument, and how it ends.
* `stands_readHead`: the head of a modifier that is known.
* `parse_of_block`: **a source that is one block** is read as that block.
-/

namespace MacroMarkup

/-- The reader stands before `text`, outside any group, with the engine `e`. -/
structure Reader.Faces (r : Reader) (e : Engine) (text : List Char) : Prop where
  rest : r.cursor.rest = text
  engine : r.engine = e
  ungrouped : r.openGroups = 0

/-- The reader stands at `position` before `text`, outside any group, with the engine `e`. -/
structure Reader.StandsAt (r : Reader) (e : Engine) (position : Nat) (text : List Char) : Prop
    extends r.Faces e text where
  position : r.cursor.position = position

section Steps

open Parse

variable {allows : Fault → Prop} {e : Engine} {r : Reader} {position : Nat} {text : List Char}
  {mark : Mark}

theorem Reader.Faces.standsAt (h : r.Faces e text) : r.StandsAt e r.cursor.position text :=
  ⟨h, rfl⟩

theorem Reader.Faces.peek (h : r.Faces e text) :
    r.cursor.peek = fun literal => literal.toList.isPrefixOf text := by
  funext literal
  rw [Cursor.peek, h.rest]

theorem Reader.Faces.isAtEnd (h : r.Faces e text) : r.cursor.isAtEnd = text.isEmpty := by
  rw [Cursor.isAtEnd, h.rest]

theorem Reader.Faces.run {e' : Engine} (h : r.Faces e text) :
    { r with engine := e' }.Faces e' text := ⟨h.rest, rfl, h.ungrouped⟩

theorem Reader.StandsAt.advance {passed : List Char} (h : r.StandsAt e position (passed ++ text)) :
    { r with cursor := r.cursor.advance passed.length }.StandsAt e (position + passed.length)
      text where
  rest := by simp [Cursor.advance, h.rest]
  engine := h.engine
  ungrouped := h.ungrouped
  position := by simp [Cursor.advance, h.rest, h.position]

theorem Reader.StandsAt.enter (h : r.StandsAt e position text) (kind : EnclosureKind) :
    (r.enter kind).StandsAt e position text := ⟨⟨h.rest, h.engine, h.ungrouped⟩, h.position⟩

theorem Reader.StandsAt.leave (h : r.StandsAt e position text) (closed : Bool) :
    (r.leave closed).StandsAt e position text := ⟨⟨h.rest, h.engine, h.ungrouped⟩, h.position⟩

theorem stands_peek {post : Bool → Reader → Prop} (h : r.StandsAt e position text)
    (hpost : post (mark.text.toList.isPrefixOf text) r) : Ensures allows (peek mark) r post := by
  rw [ensures_peek, h.peek]
  exact hpost

theorem stands_isAtEnd {post : Bool → Reader → Prop} (h : r.StandsAt e position text)
    (hpost : post text.isEmpty r) : Ensures allows isAtEnd r post := by
  rw [ensures_isAtEnd, h.isAtEnd]
  exact hpost

theorem stands_accept (mark : Mark) (h : r.StandsAt e position (mark.text.toList ++ text)) :
    Ensures allows (accept mark) r fun found r' =>
      found = true ∧ r'.StandsAt e (position + mark.text.toList.length) text := by
  have hpeek : r.cursor.peek mark.text = true := by
    rw [h.peek]
    exact List.isPrefixOf_iff_prefix.mpr (List.prefix_append _ _)
  rw [ensures_of_eq (accept_of_peek hpeek)]
  exact ⟨rfl, h.advance⟩

theorem stands_accept_other (h : r.StandsAt e position text)
    (hother : mark.text.toList.isPrefixOf text = false) :
    Ensures allows (accept mark) r fun found r' => found = false ∧ r' = r := by
  have hpeek : r.cursor.peek mark.text = false := by rwa [h.peek]
  rw [ensures_of_eq (accept_of_not_peek hpeek)]
  exact ⟨rfl, rfl⟩

theorem stands_takeChar {c : Char} (h : r.StandsAt e position (c :: text)) :
    Ensures allows takeChar? r fun taken r' =>
      taken = some c ∧ r'.StandsAt e (position + 1) text := by
  simp only [Ensures, takeChar?, Cursor.takeChar?, h.rest]
  exact ⟨trivial, ⟨rfl, h.engine, h.ungrouped⟩, congrArg (· + 1) h.position⟩

theorem stands_skipWhile_over {p : Char → Bool} (h : r.StandsAt e position text) :
    Ensures allows (moveCursor fun cursor => cursor.skipWhile p) r fun _ r' =>
      r'.StandsAt e (position + (text.takeWhile p).length) (text.dropWhile p) := by
  refine ⟨⟨?_, h.engine, h.ungrouped⟩, ?_⟩
  · simp [Cursor.skipWhile, h.rest]
  · simp [Cursor.skipWhile, h.rest, h.position]

theorem stands_skipWhile {p : Char → Bool} {passed : List Char}
    (h : r.StandsAt e position (passed ++ text)) (hpassed : ∀ c ∈ passed, p c = true)
    (htext : ∀ c, text.head? = some c → p c = false) :
    Ensures allows (moveCursor fun cursor => cursor.skipWhile p) r fun _ r' =>
      r'.StandsAt e (position + passed.length) text := by
  have hdrop : text.dropWhile p = text ∧ text.takeWhile p = [] := by
    cases text with
    | nil => exact ⟨rfl, rfl⟩
    | cons c rest => simp [htext c rfl]
  refine (stands_skipWhile_over (p := p) h).mono fun _ r' h' => ?_
  rwa [List.takeWhile_append_of_pos hpassed, List.dropWhile_append_of_pos hpassed, hdrop.1,
    hdrop.2, List.append_nil] at h'

theorem stands_spanFrom {start : Nat} (h : r.StandsAt e position text) (hle : start ≤ position) :
    Ensures allows (spanFrom start) r fun span r' => span = ⟨start, position⟩ ∧ r' = r := by
  rw [spanFrom, ensures_bind, ensures_position, h.position]
  exact ensures_checked hle ⟨rfl, rfl⟩

/-- Spacing is passed, and line breaks beyond the limit are reported. -/
theorem stands_skipLines {limit : Nat} {passed : List Char}
    (h : r.StandsAt e position (passed ++ text)) (hpassed : ∀ c ∈ passed, isSpacing c = true)
    (htext : ∀ c, text.head? = some c → isSpacing c = false) :
    Ensures allows (skipLines limit) r fun _ r' => r'.StandsAt
      (e.emit (if limit < passed.count '\n' then
        [Problem.redundantNewlines.message ⟨position, position + passed.length⟩] else []))
      (position + passed.length) text := by
  have htake : r.cursor.rest.takeWhile isSpacing = passed := by
    rw [h.rest, List.takeWhile_append_of_pos hpassed]
    cases text with
    | nil => simp
    | cons c rest => simp [htext c rfl]
  simp only [skipLines, ensures_bind, ensures_position, ensures_get, htake]
  refine (stands_skipWhile h hpassed htext).mono fun _ r₁ h₁ => ?_
  rw [ensures_ite]
  refine ⟨fun hlimit => ?_, fun hlimit => ?_⟩
  · rw [ensures_bind]
    refine (stands_spanFrom h₁ (h.position ▸ Nat.le_add_right _ _)).mono ?_
    rintro _ _ ⟨rfl, rfl⟩
    rw [if_pos hlimit, h.position]
    exact ⟨⟨h₁.rest, congrArg (fun engine => Engine.emit engine _) h₁.engine, h₁.ungrouped⟩,
      h₁.position⟩
  · rw [if_neg hlimit]
    exact h₁

theorem stands_skipLines_silent {limit : Nat} (h : r.StandsAt e position text)
    (hlimit : (text.takeWhile isSpacing).count '\n' ≤ limit) :
    Ensures allows (skipLines limit) r fun _ r' =>
      r'.StandsAt e (position + (text.takeWhile isSpacing).length)
        (text.dropWhile isSpacing) := by
  rw [← List.takeWhile_append_dropWhile (p := isSpacing) (l := text)] at h
  refine (stands_skipLines h (fun c hc => List.mem_takeWhile_imp hc) fun c hc => ?_).mono
    fun _ r' h' => ?_
  · have hhead := List.head?_dropWhile_not isSpacing text
    rw [hc] at hhead
    simpa using hhead
  · rwa [if_neg (Nat.not_lt.mpr hlimit)] at h'

theorem not_isPrefixOf_of_head {x c : Char} (hmark : mark.text.toList.head? = some x)
    (hne : c ≠ x) (text : List Char) : mark.text.toList.isPrefixOf (c :: text) = false := by
  obtain ⟨others, hothers⟩ := List.head?_eq_some_iff.mp hmark
  rw [hothers, List.isPrefixOf, beq_eq_false_iff_ne.mpr hne.symm, Bool.false_and]

/-- A mark without line breaks does not go on behind a line. -/
theorem prefix_of_prefix_line {mark line gap : List Char} (hmark : '\n' ∉ mark)
    (hgap : ∀ c, gap.head? = some c → c = '\n') (h : mark <+: line ++ gap) : mark <+: line := by
  obtain ⟨more, hmore⟩ := h
  rcases List.append_eq_append_iff.mp hmore with ⟨others, hline, -⟩ | ⟨others, rfl, hbehind⟩
  · exact ⟨others, hline.symm⟩
  · cases others with
    | nil => exact ⟨[], by simp⟩
    | cons c others =>
      rw [hbehind] at hgap
      rw [hgap c rfl] at hmark
      exact absurd (List.mem_append_right _ List.mem_cons_self) hmark

theorem not_isPrefixOf_of_backslash (text : List Char) :
    ∀ mark ∈ [Mark.blockOpen, .systemOpen, .groupOpen],
      mark.text.toList.isPrefixOf ('\\' :: text) = false := by
  simp only [List.forall_mem_cons]
  exact ⟨not_isPrefixOf_of_head rfl (by decide) text, not_isPrefixOf_of_head rfl (by decide) text,
    not_isPrefixOf_of_head rfl (by decide) text, List.forall_mem_nil _⟩

/-- A piece of a paragraph that starts with no bracket is a character, or what a backslash
escapes. -/
theorem stands_readInline_start {fuel : Nat} {before : List Node} {c : Char}
    {post : List Node × Bool → Reader → Prop} (h : r.StandsAt e position (c :: text))
    (hbracket : c ≠ '[') (hread : Ensures allows (accept .escape >>= fun found => if found then do
        let nodes ← readEscaped position before
        return (nodes, true)
      else readCharacter before) r post) :
    Ensures allows (readInline (fuel + 1) before) r post := by
  have hopens : ∀ mark : Mark, mark.text.toList.head? = some '[' →
      mark.text.toList.isPrefixOf (c :: text) = false :=
    fun mark hmark => not_isPrefixOf_of_head hmark hbracket text
  simp only [readInline, ensures_bind]
  refine stands_peek h ?_
  rw [hopens _ rfl, if_neg Bool.false_ne_true, ensures_bind]
  refine stands_peek h ?_
  rw [hopens _ rfl, if_neg Bool.false_ne_true, ensures_bind]
  refine stands_peek h ?_
  rw [hopens _ rfl, if_neg Bool.false_ne_true, ensures_bind, ensures_position, h.position]
  exact hread

/-- A character that is neither a bracket nor a backslash is a piece of a paragraph by
itself. -/
theorem stands_readInline {fuel : Nat} {before : List Node} {c : Char}
    {post : List Node × Bool → Reader → Prop} (h : r.StandsAt e position (c :: text))
    (hbracket : c ≠ '[') (hescape : c ≠ '\\')
    (hread : Ensures allows (readCharacter before) r post) :
    Ensures allows (readInline (fuel + 1) before) r post := by
  refine stands_readInline_start h hbracket ?_
  rw [ensures_bind]
  refine (stands_accept_other h (not_isPrefixOf_of_head rfl hescape text)).mono ?_
  rintro _ _ ⟨rfl, rfl⟩
  exact hread

theorem stands_readInline_modifier {fuel : Nat} {before : List Node}
    {post : List Node × Bool → Reader → Prop} (h : r.StandsAt e position ('[' :: '/' :: text))
    (hread : Ensures allows (readModifier fuel .inline) r fun answer =>
      post (.modifier answer.1 :: before, answer.2)) :
    Ensures allows (readInline (fuel + 1) before) r post := by
  rw [readInline, ensures_bind]
  refine stands_peek h ?_
  rw [if_neg (by exact Bool.false_ne_true), ensures_bind]
  refine stands_peek h ?_
  rw [if_pos (by rfl), ensures_bind]
  exact hread

theorem stands_readCharacter_line {before : List Node} {blanks : List Char}
    {post : List Node × Bool → Reader → Prop}
    (h : r.StandsAt e position ('\n' :: (blanks ++ text)))
    (hblanks : ∀ c ∈ blanks, isBlank c = true)
    (htext : ∀ c, text.head? = some c → isBlank c = false ∧ c ≠ '[')
    (hends : text = [] → ∀ r', r'.StandsAt e (position + 1 + blanks.length) text →
      post (before, false) r')
    (hgoes : text ≠ [] → ∀ r', r'.StandsAt e (position + 1 + blanks.length) text →
      Ensures allows (accept .newline >>= fun found => if found then do
          skipLines 0
          return (before, false)
        else do
          let span ← Span.checked position (position + 1)
          return (appendText Mark.newline.text span before, true)) r' post) :
    Ensures allows (readCharacter before) r post := by
  have hopens : ∀ mark : Mark, mark.text.toList.head? = some '[' →
      mark.text.toList.isPrefixOf text = false := by
    intro mark hmark
    cases text with
    | nil =>
      obtain ⟨others, hothers⟩ := List.head?_eq_some_iff.mp hmark
      rw [hothers]
      rfl
    | cons c rest => exact not_isPrefixOf_of_head hmark (htext c rfl).2 rest
  simp only [readCharacter, ensures_bind, ensures_position]
  refine (stands_accept .newline h).mono ?_
  rintro _ r₁ ⟨rfl, h₁⟩
  rw [if_pos rfl, ensures_bind]
  refine (stands_skipWhile h₁ hblanks fun c hc => (htext c hc).1).mono fun _ r₂ h₂ => ?_
  simp only [ensures_bind, ensures_get]
  refine stands_peek h₂ ?_
  refine stands_peek h₂ ?_
  refine stands_peek h₂ ?_
  refine stands_isAtEnd h₂ ?_
  rw [hopens _ rfl, hopens _ rfl, h₂.ungrouped, h.position]
  cases text with
  | nil => exact hends rfl r₂ h₂
  | cons c rest => exact hgoes (List.cons_ne_nil _ _) r₂ h₂

/-! ### Paragraphs -/

theorem ensures_readParagraph_done {fuel : Nat} {before : List Node} (h : r.cursor.rest = []) :
    Ensures allows (readParagraph (fuel + 1) before) r fun nodes r' =>
      nodes = before.reverse ∧ r' = r := by
  have hend : r.cursor.isAtEnd = true := List.isEmpty_iff.mpr h
  rw [readParagraph, ensures_bind, ensures_isAtEnd, if_pos hend]
  exact ⟨rfl, rfl⟩

/-- Before the end of the source a paragraph has another piece, which says whether it goes on. -/
theorem ensures_readParagraph_more {fuel : Nat} {before : List Node} {c : Char}
    {post : List Node → Reader → Prop} (h : r.cursor.rest = c :: text)
    (hread : Ensures allows (readInline fuel before) r fun read r' => Ensures allows
      (if read.2 then readParagraph fuel read.1 else pure read.1.reverse) r' post) :
    Ensures allows (readParagraph (fuel + 1) before) r post := by
  have hmore : r.cursor.isAtEnd = false := by
    rw [Cursor.isAtEnd, h]
    rfl
  rw [readParagraph, ensures_bind, ensures_isAtEnd, hmore, if_neg Bool.false_ne_true, ensures_bind]
  exact hread

/-- Where any fault is allowed, one may suppose that a piece can be read. -/
theorem ensures_readParagraph_fueled {fuel : Nat} {before : List Node} {c : Char}
    {post : List Node → Reader → Prop} (h : r.cursor.rest = c :: text)
    (hread : ∀ more, Ensures anyFault (readParagraph (more + 2) before) r post) :
    Ensures anyFault (readParagraph fuel before) r post := by
  cases fuel with
  | zero => exact trivial
  | succ fuel =>
    cases fuel with
    | zero => exact ensures_readParagraph_more h trivial
    | succ more => exact hread more

/-- A character that opens nothing, escapes nothing and does not end the line is text of the
paragraph, in a group as well. -/
theorem ensures_readParagraph_character {fuel : Nat} {before : List Node} {c : Char}
    {post : List Node → Reader → Prop} (hc : c ∉ ['[', '\\', '\n'])
    (h : r.cursor.rest = c :: text)
    (hread : ∀ r', r'.cursor.rest = text → r'.cursor.position = r.cursor.position + 1 →
      r'.engine = r.engine → r'.openGroups = r.openGroups →
      Ensures allows (readParagraph (fuel + 1)
        (appendText c.toString ⟨r.cursor.position, r.cursor.position + 1⟩ before)) r' post) :
    Ensures allows (readParagraph (fuel + 2) before) r post := by
  have hmiss : ∀ mark : Mark, (∃ x ∈ ['[', '\\', '\n'], mark.text.toList.head? = some x) →
      r.cursor.peek mark.text = false := by
    rintro mark ⟨x, hx, hmark⟩
    rw [Cursor.peek, h]
    refine not_isPrefixOf_of_head hmark ?_ text
    rintro rfl
    exact hc hx
  have hbracket := fun mark hmark => hmiss mark ⟨'[', List.mem_cons_self, hmark⟩
  have htaken : takeChar? r = .ok (some c, { r with cursor :=
      { r.cursor with rest := text, position := r.cursor.position + 1 } }) := by
    simp only [takeChar?, Cursor.takeChar?, h]
  refine ensures_readParagraph_more h ?_
  simp only [readInline, ensures_bind, ensures_peek, hbracket .blockOpen rfl,
    hbracket .inlineOpen rfl, hbracket .systemOpen rfl, Bool.false_eq_true, if_false,
    ensures_position, ensures_of_eq (accept_of_not_peek (hmiss .escape ⟨'\\', by simp, rfl⟩)),
    readCharacter, ensures_of_eq (accept_of_not_peek (hmiss .newline ⟨'\n', by simp, rfl⟩)),
    ensures_of_eq htaken]
  refine ensures_spanFrom (Nat.le_succ _) ?_
  rw [ensures_pure, if_pos rfl]
  exact hread _ rfl rfl rfl rfl

theorem stands_readParagraph_character {fuel : Nat} {before : List Node} {c : Char}
    {post : List Node → Reader → Prop} (hc : c ∉ ['[', '\\', '\n'])
    (h : r.StandsAt e position (c :: text))
    (hread : ∀ r', r'.StandsAt e (position + 1) text → Ensures allows (readParagraph (fuel + 1)
      (appendText c.toString ⟨position, position + 1⟩ before)) r' post) :
    Ensures allows (readParagraph (fuel + 2) before) r post := by
  refine ensures_readParagraph_character hc h.rest fun r' hrest hposition hengine hgroups => ?_
  rw [h.position] at hposition ⊢
  exact hread r' ⟨⟨hrest, hengine.trans h.engine, hgroups.trans h.ungrouped⟩, hposition⟩

/-! ### Blocks -/

theorem stands_fireInspectors (h : r.StandsAt e position text) :
    Ensures allows fireInspectors r fun _ r' => r'.StandsAt e position text :=
  ⟨⟨h.rest, h.engine, h.ungrouped⟩, h.position⟩

/-- A block that starts with no mark of another construct is a paragraph. -/
theorem stands_readBlock_paragraph {fuel : Nat} {post : List Node → Reader → Prop}
    (h : r.StandsAt e position text)
    (hother : ∀ mark ∈ [Mark.blockOpen, .systemOpen, .groupOpen],
      mark.text.toList.isPrefixOf text = false)
    (hread : ∀ r', r'.StandsAt e position text →
      Ensures allows (readParagraph fuel []) r' fun nodes r'' =>
        Ensures allows (spanFrom position) r'' fun span => post [.paragraph span nodes]) :
    Ensures allows (readBlock (fuel + 1)) r post := by
  simp only [List.forall_mem_cons] at hother
  obtain ⟨hblock, hsystem, hgroup, -⟩ := hother
  simp only [readBlock, ensures_bind]
  refine (stands_fireInspectors h).mono fun _ r₁ h₁ => ?_
  refine stands_peek h₁ ?_
  rw [hblock, if_neg Bool.false_ne_true, ensures_bind]
  refine stands_peek h₁ ?_
  rw [hsystem, if_neg Bool.false_ne_true, ensures_bind]
  refine (stands_accept_other h₁ hgroup).mono ?_
  rintro _ _ ⟨rfl, rfl⟩
  simp only [Bool.false_eq_true, if_false, ensures_bind, ensures_position, h₁.position]
  exact hread _ h₁

theorem stands_readBlock_modifier {fuel : Nat} (kind : ModifierKind)
    {post : List Node → Reader → Prop} (hkind : kind ≠ .inline)
    (h : r.StandsAt e position (kind.opening.text.toList ++ text))
    (hread : ∀ r', r'.StandsAt e position (kind.opening.text.toList ++ text) →
      Ensures allows (readModifier fuel kind) r' fun answer => post [.modifier answer.1]) :
    Ensures allows (readBlock (fuel + 1)) r post := by
  simp only [readBlock, ensures_bind]
  refine (stands_fireInspectors h).mono fun _ r₁ h₁ => ?_
  cases kind with
  | block =>
    refine stands_peek h₁ ?_
    rw [if_pos (by rfl), ensures_bind]
    exact hread r₁ h₁
  | inline => exact absurd rfl hkind
  | system =>
    refine stands_peek h₁ ?_
    rw [if_neg (by exact Bool.false_ne_true), ensures_bind]
    refine stands_peek h₁ ?_
    rw [if_pos (by rfl), ensures_bind]
    exact hread r₁ h₁

theorem ensures_readBlocks_done {fuel : Nat} {before : List Node} (h : r.cursor.rest = []) :
    Ensures allows (readBlocks (fuel + 1) before) r fun nodes r' =>
      nodes = before.reverse ∧ r' = r := by
  have hend : r.cursor.isAtEnd = true := List.isEmpty_iff.mpr h
  rw [readBlocks, ensures_bind, ensures_isAtEnd, if_pos hend]
  exact ⟨rfl, rfl⟩

theorem ensures_readBlocks_more {fuel : Nat} {before : List Node}
    {post : List Node → Reader → Prop} (h : r.cursor.rest ≠ [])
    (hread : Ensures allows (readBlock fuel) r fun nodes r₁ => Ensures allows skipSpacing r₁
      fun _ r₂ => Ensures allows (readBlocks fuel (nodes.reverse ++ before)) r₂ post) :
    Ensures allows (readBlocks (fuel + 1) before) r post := by
  have hmore : r.cursor.isAtEnd = false := List.isEmpty_eq_false_iff.mpr h
  rw [readBlocks, ensures_bind, ensures_isAtEnd, hmore, if_neg Bool.false_ne_true]
  simp only [ensures_bind]
  exact hread

/-! ### Names -/

theorem stands_peekName {name : String} (h : r.StandsAt e position text)
    (hname : name = "" → allows .emptyLiteral) :
    Ensures allows (peekName name) r fun found r' =>
      found = name.toList.isPrefixOf text ∧ r' = r := by
  refine ensures_peekName hname ?_
  rw [h.peek]
  exact ⟨rfl, rfl⟩

theorem stands_acceptName {name : String} (h : r.StandsAt e position (name.toList ++ text))
    (hname : name = "" → allows .emptyLiteral) :
    Ensures allows (acceptName name) r fun found r' =>
      found = true ∧ r'.StandsAt e (position + name.toList.length) text := by
  rw [acceptName, ensures_bind]
  refine (stands_peekName h hname).mono ?_
  rintro _ _ ⟨rfl, rfl⟩
  rw [if_pos (List.isPrefixOf_iff_prefix.mpr (List.prefix_append _ _))]
  exact ⟨List.isPrefixOf_iff_prefix.mpr (List.prefix_append _ _), h.advance⟩

/-- The longest registered name that is next is found as without effects, if none is empty. -/
theorem stands_findLongestM? {α : Type} [Named α] {registry : Registry α}
    (hnamed : registry.All fun x => Named.name x = "" → allows .emptyLiteral)
    (h : r.StandsAt e position text) :
    Ensures allows (registry.findLongestM? peekName) r fun found r' =>
      r' = r ∧ found = registry.findLongest? fun name => name.toList.isPrefixOf text := by
  refine ((ensures_findLongestM? hnamed fun _ hx => hx).and
    (ensures_findLongestM?_findLongest? registry)).mono ?_
  rintro found _ ⟨-, rfl, hfound⟩
  rw [h.peek] at hfound
  exact ⟨rfl, hfound⟩

/-! ### Arguments -/

structure Parse.GoesOn (closing : Option String) (text : List Char) : Prop where
  some_left : text ≠ []
  closes : ∀ mark, closing = some mark → mark.toList.isPrefixOf text = false
  separates : Mark.separator.text.toList.isPrefixOf text = false
  ends : Mark.headEnd.text.toList.isPrefixOf text = false
  closes_head : Mark.headClose.text.toList.isPrefixOf text = false

theorem stands_acceptClosing_other {closing : Option String} (h : r.StandsAt e position text)
    (hother : ∀ mark, closing = some mark → mark.toList.isPrefixOf text = false) :
    Ensures allows (acceptClosing closing) r fun found r' => found = false ∧ r' = r := by
  cases closing with
  | none => exact ⟨rfl, rfl⟩
  | some mark =>
    have hmissing := hother mark rfl
    have hmark : mark ≠ "" := by
      rintro rfl
      cases hmissing
    rw [acceptClosing, acceptName, ensures_bind]
    refine (stands_peekName h fun hempty => absurd hempty hmark).mono ?_
    rintro _ _ ⟨rfl, rfl⟩
    rw [hmissing, if_neg Bool.false_ne_true]
    exact ⟨rfl, rfl⟩

theorem stands_goesOn {α : Type} {closing : Option String} {closed separated ended next : Parse α}
    {post : α → Reader → Prop} (h : r.StandsAt e position text) (hgoes : GoesOn closing text)
    (hnext : Ensures allows next r post) :
    Ensures allows (do
      if ← acceptClosing closing then closed else
      if ← accept .separator then separated else
      if (← peek .headEnd) || (← peek .headClose) || (← isAtEnd) then ended else next) r post := by
  rw [ensures_bind]
  refine (stands_acceptClosing_other h hgoes.closes).mono ?_
  rintro _ _ ⟨rfl, rfl⟩
  rw [if_neg Bool.false_ne_true, ensures_bind]
  refine (stands_accept_other h hgoes.separates).mono ?_
  rintro _ _ ⟨rfl, rfl⟩
  simp only [Bool.false_eq_true, if_false, ensures_bind, ensures_peek, ensures_isAtEnd, h.peek,
    h.isAtEnd, hgoes.ends, hgoes.closes_head, List.isEmpty_eq_false_iff.mpr hgoes.some_left,
    Bool.or_self]
  exact hnext

section Parts

variable {fuel stop : Nat} {closing : Option String} {parts : List Entity} {c : Char}

theorem stands_readEntities_escape {post : ArgumentText → Reader → Prop}
    (h : r.StandsAt e position ('\\' :: c :: text)) (hgoes : GoesOn closing ('\\' :: c :: text))
    (hread : ∀ r', r'.StandsAt e (position + 2) text → Ensures allows (readEntities fuel closing
      (.escaped ⟨position, position + 2⟩ c.toString :: parts) (position + 2)) r' post) :
    Ensures allows (readEntities (fuel + 1) closing parts stop) r post := by
  rw [readEntities]
  refine stands_goesOn h hgoes ?_
  simp only [ensures_bind, ensures_position, h.position]
  refine (stands_accept .escape h).mono ?_
  rintro _ r₁ ⟨rfl, h₁⟩
  rw [if_pos rfl, ensures_bind]
  refine (stands_takeChar h₁).mono ?_
  rintro _ r₂ ⟨rfl, h₂⟩
  simp only [ensures_bind]
  refine (stands_spanFrom h₂ (Nat.le_add_right position 2)).mono ?_
  rintro _ _ ⟨rfl, rfl⟩
  exact hread _ h₂

/-- A character with which no interpolation starts is text of an argument. -/
theorem stands_readEntities_character {post : ArgumentText → Reader → Prop}
    (h : r.StandsAt e position (c :: text)) (hgoes : GoesOn closing (c :: text))
    (hescape : c ≠ '\\')
    (hfind : Ensures allows findInterpolator? r fun found r' => found = none ∧ r' = r)
    (hread : ∀ r', r'.StandsAt e (position + 1) text → Ensures allows (readEntities fuel closing
      (appendEntityText c.toString ⟨position, position + 1⟩ parts) (position + 1)) r' post) :
    Ensures allows (readEntities (fuel + 1) closing parts stop) r post := by
  rw [readEntities]
  refine stands_goesOn h hgoes ?_
  simp only [ensures_bind, ensures_position, h.position]
  refine (stands_accept_other h (not_isPrefixOf_of_head rfl hescape text)).mono ?_
  rintro _ _ ⟨rfl, rfl⟩
  rw [if_neg Bool.false_ne_true, ensures_bind]
  refine hfind.mono ?_
  rintro _ _ ⟨rfl, rfl⟩
  rw [ensures_bind]
  refine (stands_takeChar h).mono ?_
  rintro _ r₁ ⟨rfl, h₁⟩
  simp only [ensures_bind]
  refine (stands_spanFrom h₁ (Nat.le_succ position)).mono ?_
  rintro _ _ ⟨rfl, rfl⟩
  exact hread _ h₁

theorem stands_readEntities_separator (h : r.StandsAt e position (':' :: text)) :
    Ensures allows (readEntities (fuel + 1) none parts stop) r fun read r' =>
      read = ⟨parts.reverse, stop, true⟩ ∧ r'.StandsAt e (position + 1) text := by
  rw [readEntities, acceptClosing, ensures_bind, ensures_pure, if_neg Bool.false_ne_true,
    ensures_bind]
  refine (stands_accept .separator h).mono ?_
  rintro _ r₁ ⟨rfl, h₁⟩
  exact ⟨rfl, h₁⟩

theorem stands_readEntities_closing {mark : String} (hmark : mark = "" → allows .emptyLiteral)
    (h : r.StandsAt e position (mark.toList ++ text)) :
    Ensures allows (readEntities (fuel + 1) (some mark) parts stop) r fun read r' =>
      read = ⟨parts.reverse, stop, true⟩ ∧
        r'.StandsAt e (position + mark.toList.length) text := by
  rw [readEntities, acceptClosing, ensures_bind]
  refine (stands_acceptName h hmark).mono ?_
  rintro _ r₁ ⟨rfl, h₁⟩
  exact ⟨rfl, h₁⟩

theorem stands_readEntities_headEnd
    (hc : c = ';' ∨ c = ']') (h : r.StandsAt e position (c :: text)) :
    Ensures allows (readEntities (fuel + 1) none parts stop) r fun read r' =>
      read = ⟨parts.reverse, stop, false⟩ ∧ r' = r := by
  have hends : (Mark.headEnd.text.toList.isPrefixOf (c :: text) ||
      Mark.headClose.text.toList.isPrefixOf (c :: text)) = true := by
    rcases hc with rfl | rfl
    · rfl
    · rfl
  have hother : Mark.separator.text.toList.isPrefixOf (c :: text) = false := by
    rcases hc with rfl | rfl
    · rfl
    · rfl
  rw [readEntities, acceptClosing, ensures_bind, ensures_pure, if_neg Bool.false_ne_true,
    ensures_bind]
  refine (stands_accept_other h hother).mono ?_
  rintro _ _ ⟨rfl, rfl⟩
  simp only [Bool.false_eq_true, if_false, ensures_bind, ensures_peek, ensures_isAtEnd, h.peek,
    hends, Bool.true_or, if_true]
  exact ⟨rfl, rfl⟩

end Parts

theorem stands_readArguments_none {c : Char} (hc : c = ';' ∨ c = ']')
    (h : r.StandsAt e position (c :: text)) :
    Ensures allows readArguments r fun arguments r' =>
      arguments = [] ∧ r'.StandsAt e position (c :: text) := by
  have hother : Mark.separator.text.toList.isPrefixOf (c :: text) = false := by
    rcases hc with rfl | rfl
    · rfl
    · rfl
  have hspacing : ∀ x, (c :: text).head? = some x → isSpacing x = false := by
    intro x hx
    rw [← Option.some.inj hx]
    rcases hc with rfl | rfl
    · rfl
    · rfl
  rw [readArguments, ensures_bind]
  refine (stands_accept_other h hother).mono ?_
  rintro _ _ ⟨rfl, rfl⟩
  have hskip : Reader.StandsAt _ e position ([] ++ c :: text) := h
  rw [Bool.not_false, if_pos rfl, ensures_bind]
  refine (stands_skipWhile hskip (List.forall_mem_nil _) hspacing).mono fun _ r₁ h₁ => ?_
  simp only [ensures_bind, ensures_get, readArgumentList, readArgument, ensures_position]
  refine (stands_readEntities_headEnd hc h₁).mono ?_
  rintro _ _ ⟨rfl, rfl⟩
  exact ensures_checked (Nat.le_refl _) ⟨rfl, h₁⟩

/-! ### Heads -/

theorem stands_readName {kind : ModifierKind} {d : Definition} {start : Nat}
    (hnamed : (e.context.configuration.modifiers kind).All fun x =>
      Named.name x = "" → allows .emptyLiteral)
    (hname : d.name = "" → allows .emptyLiteral)
    (hfound : (e.context.configuration.modifiers kind).findLongest?
      (fun name => name.toList.isPrefixOf (d.name.toList ++ text)) = some d)
    (h : r.StandsAt e position (d.name.toList ++ text)) :
    Ensures allows (readName kind start) r fun found r' =>
      found = some d ∧ r'.StandsAt e (position + d.name.toList.length) text := by
  simp only [readName, ensures_bind, ensures_configuration, h.engine]
  refine (stands_findLongestM? hnamed h).mono ?_
  rintro found _ ⟨rfl, hanswer⟩
  obtain rfl := hanswer.trans hfound
  simp only [ensures_bind]
  refine (stands_acceptName h hname).mono ?_
  rintro _ r₁ ⟨-, h₁⟩
  exact ⟨rfl, h₁⟩

def headEnding (ended : Bool) : List Char := if ended then [';', ']'] else [']']

/-- **The head of a modifier that is known**, with arguments that were evaluated. -/
theorem stands_readHead {kind : ModifierKind} {d : Definition} {source : List Char} {ended : Bool}
    {read evaluated : List Argument → Prop}
    (hnamed : (e.context.configuration.modifiers kind).All fun x =>
      Named.name x = "" → allows .emptyLiteral)
    (hname : d.name = "" → allows .emptyLiteral)
    (hfound : (e.context.configuration.modifiers kind).findLongest?
      (fun name => name.toList.isPrefixOf (d.name.toList ++ source)) = some d)
    (hargs : ∀ position r', r'.StandsAt e position source →
      Ensures allows readArguments r' fun arguments r'' => read arguments ∧
        ∃ stop, position ≤ stop ∧ r''.StandsAt e stop (headEnding ended ++ text))
    (hvalues : ∀ arguments, read arguments →
      Ensures allows (expandArguments arguments) e fun arguments' e' =>
        e' = e ∧ evaluated arguments')
    (h : r.StandsAt e position (kind.opening.text.toList ++ (d.name.toList ++ source))) :
    Ensures allows (readHead kind) r fun head r' => ∃ stop arguments, position ≤ stop ∧
      r'.StandsAt e stop text ∧ head = ⟨.ofHead d ⟨position, stop⟩ arguments, ended⟩ ∧
      evaluated arguments := by
  -- behind its arguments the head is closed
  have close : ∀ stop arguments r', read arguments → position ≤ stop →
      r'.StandsAt e stop (']' :: text) →
      Ensures allows (do
        if !(← accept .headClose) then
          emit [Problem.expectedAt (← Parse.position) Mark.headClose.text]
        makeHead kind position (some d) arguments ended) r' fun head r'' =>
          ∃ stop arguments, position ≤ stop ∧ r''.StandsAt e stop text ∧
            head = ⟨.ofHead d ⟨position, stop⟩ arguments, ended⟩ ∧ evaluated arguments := by
    intro stop arguments r' hread hle h'
    rw [ensures_bind]
    refine (stands_accept .headClose h').mono ?_
    rintro _ r₁ ⟨rfl, h₁⟩
    rw [if_neg (by decide)]
    simp only [makeHead, ensures_bind]
    refine (stands_spanFrom h₁ (Nat.le_add_right_of_le hle)).mono ?_
    rintro _ _ ⟨rfl, rfl⟩
    rw [ensures_get, ensures_expanding, h₁.engine]
    refine (hvalues arguments hread).mono ?_
    rintro arguments' _ ⟨rfl, hevaluated⟩
    exact ⟨_, arguments', Nat.le_add_right_of_le hle, ⟨h₁.toFaces.run, h₁.position⟩, rfl,
      hevaluated⟩
  simp only [readHead, ensures_bind, ensures_position, h.position]
  refine (stands_accept kind.opening h).mono ?_
  rintro _ r₁ ⟨-, h₁⟩
  simp only [readHeadFrom, ensures_bind]
  refine (stands_readName hnamed hname hfound h₁).mono ?_
  rintro _ r₂ ⟨rfl, h₂⟩
  refine (hargs _ r₂ h₂).mono ?_
  rintro arguments r₃ ⟨hread, stop, hle, h₃⟩
  have hbehind : position ≤ stop := by omega
  cases ended with
  | true =>
    refine (stands_accept .headEnd h₃).mono ?_
    rintro _ r₄ ⟨rfl, h₄⟩
    exact close _ arguments r₄ hread (Nat.le_add_right_of_le hbehind) h₄
  | false =>
    refine (stands_accept_other h₃ rfl).mono ?_
    rintro _ _ ⟨rfl, rfl⟩
    exact close _ arguments _ hread hbehind h₃

/-! ### Modifiers -/

/-- Nothing happens around the body of a modifier. -/
structure Lifecycle.SkipsBody (life : Lifecycle) : Prop where
  before : ∀ m immediate, life.beforeContent m immediate = pure (life.idle, [])
  after : ∀ state, life.afterContent state = pure state

def Reader.inBody (d : Definition) (r : Reader) : Reader :=
  { r with engine := { r.engine with delayDepth := r.engine.delayDepth + d.delaysContent.toNat } }

def Reader.behindBody (d : Definition) (r : Reader) : Reader :=
  { r with engine := { r.engine with delayDepth := r.engine.delayDepth - d.delaysContent.toNat } }

@[simp] theorem Reader.behindBody_inBody (d : Definition) (r : Reader) :
    (r.inBody d).behindBody d = r := by
  simp [inBody, behindBody]

/-- A modifier around whose body nothing happens: its head, its body, and what becomes of it. -/
theorem stands_readModifier {fuel : Nat} {kind : ModifierKind} {d : Definition}
    {post : Modifier × Bool → Reader → Prop} (hd : d.behaviour.lifecycle.SkipsBody)
    (hread : Ensures allows (readHead kind) r fun head r₁ => ∃ span arguments ended,
      head = ⟨.ofHead d span arguments, ended⟩ ∧
      Ensures allows (readBody fuel kind head) (r₁.inBody d) fun body r₂ =>
        Ensures allows (wholeSpan head) r₂ fun whole r₃ =>
          Ensures allows (expandRead (process r₃.engine.levels)
            { Modifier.ofHead d span arguments with span := whole, content := body.1 }
            d.behaviour.lifecycle.idle) (r₃.behindBody d).engine fun answer e' =>
              post (answer.1, body.2) { r₃ with engine := e' }) :
    Ensures allows (readModifier (fuel + 1) kind) r post := by
  rw [ensures_readModifier_iff]
  refine hread.mono ?_
  rintro _ r₁ ⟨span, arguments, ended, rfl, hbody⟩
  simp only [Modifier.ofHead, ensures_reporting, hd.before, ensures_pure, Engine.emit_nil]
  refine hbody.mono fun body r₂ hwhole => hwhole.mono fun whole r₃ hlife => ?_
  simp only [ensures_inContext, hd.after, ensures_pure]
  exact hlife

/-! ### Whole sources -/

/-- **A source that is one block is read as that block**, if the block is read up to its end. -/
theorem parse_of_block {cx : Context} {source : String} (post : List Node → Engine → Prop)
    (hne : source.toList ≠ []) (hstarts : ∀ c, source.toList.head? = some c → isSpacing c = false)
    (hblock : ∀ r : Reader, r.StandsAt (.start cx) 0 source.toList →
      Ensures noFault (readBlock (8 * source.toList.length + 7)) r fun nodes r' =>
        r'.cursor.rest = [] ∧ post nodes r'.engine) :
    ∃ d e, cx.parse source = .ok d ∧ d.messages = e.messages ∧ post d.content e := by
  have hstart : (Reader.start cx source []).StandsAt (.start cx) 0 ([] ++ source.toList) :=
    ⟨⟨rfl, rfl, rfl⟩, rfl⟩
  have hreads : Ensures noFault (readSource (readingDepth source.toList.length))
      (Reader.start cx source []) fun nodes r => post nodes r.engine := by
    rw [readSource, readingDepth, ensures_bind]
    refine (stands_skipWhile hstart (List.forall_mem_nil _) hstarts).mono fun _ r₁ h₁ => ?_
    rw [ensures_bind]
    refine ensures_readBlocks_more (h₁.rest ▸ hne) ((hblock r₁ h₁).mono ?_)
    rintro nodes r₂ ⟨hend, hpost⟩
    -- nothing is left, so there is no spacing to pass and no other block
    have hpassed : Ensures noFault skipSpacing r₂ fun _ r' =>
        r'.cursor.rest = [] ∧ r'.engine = r₂.engine := by
      refine ⟨?_, rfl⟩
      simp [Cursor.skipWhile, hend]
    refine hpassed.mono ?_
    rintro _ r₃ ⟨hend₃, hengine⟩
    refine (ensures_readBlocks_done hend₃).mono ?_
    rintro _ r₄ ⟨rfl, rfl⟩
    simp only [ensures_bind, ensures_pure, List.append_nil, List.reverse_reverse]
    show post nodes r₄.engine
    rw [hengine]
    exact hpost
  obtain ⟨content, r, hrun, hpost⟩ := hreads.exists_ok
  refine ⟨r.document content, r.engine, ?_, rfl, hpost⟩
  show (readSource (readingDepth source.toList.length) (Reader.start cx source []) >>=
    fun answer => pure (answer.2.document answer.1)) = _
  rw [hrun]
  rfl

end Steps

end MacroMarkup
