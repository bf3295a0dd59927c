import MacroMarkup.Proofs.Balance
import MacroMarkup.Proofs.Standing

/-!
# Plain text

A source without brackets and backslashes is made of blocks of text with separators between them:
two line breaks, with nothing but blanks between them, and all spacing behind.  Each block is read
as a paragraph with one text, from which the blanks behind line breaks are left out, and a
separator with more line breaks than needed is reported.

* `PlainText.Separator`, `PlainText.Tail`, `PlainText.Block`, `Segments`: the pieces of a source.
* `Segments.source`, `Segments.nodes`, `Segments.warnings`: how pieces are written, and what they
  are read as.
* `exists_segments`: every source is made of such pieces.
* `ensures_readParagraph_block`, `ensures_readBlocks_plain`: **pieces are read as what they mean.**
* `parse_plain_text`: the law of a whole source.
-/

namespace MacroMarkup

namespace PlainText

/-! ### The pieces of a source -/

/-- What stands between two blocks, and may stand behind the last one: a line break, blanks,
another line break, and any spacing behind it. -/
structure Separator where
  blanks : List Char
  behind : List Char
  blank : ∀ c ∈ blanks, isBlank c = true
  spacing : ∀ c ∈ behind, isSpacing c = true

/-- What may stand behind the last block otherwise: nothing, or a line break and blanks. -/
inductive Tail where
  | nothing
  | line (blanks : List Char) (blank : ∀ c ∈ blanks, isBlank c = true)

/-- Behind each line break something else stands on the next line. -/
def isUnbroken : List Char → Bool
  | [] => true
  | c :: rest =>
    (c != '\n' || (rest.dropWhile isBlank).head?.any (· != '\n')) && isUnbroken rest

/-- A block of text, which starts with no spacing and holds no separator. -/
structure Block where
  first : Char
  rest : List Char
  starts : isSpacing first = false
  unbroken : isUnbroken (first :: rest) = true

/-- A source behind its leading spacing. -/
inductive Segments where
  /-- Nothing is left. -/
  | done
  /-- The last block. -/
  | last (block : Block) (tail : Tail)
  /-- A block with the separator behind it. -/
  | cut (block : Block) (separator : Separator) (rest : Segments)

def Separator.text (s : Separator) : List Char := '\n' :: s.blanks ++ '\n' :: s.behind

def Tail.text : Tail → List Char
  | nothing => []
  | line blanks _ => '\n' :: blanks

def Block.text (b : Block) : List Char := b.first :: b.rest

namespace Segments

def source : Segments → List Char
  | done => []
  | last block tail => block.text ++ tail.text
  | cut block separator rest => block.text ++ (separator.text ++ rest.source)

def blocks : Segments → List Block
  | done => []
  | last block _ => [block]
  | cut block _ rest => block :: rest.blocks

end Segments

/-! ### What they mean -/

/-- The paragraph that a block at `start` is read as.  It ends behind what follows the block,
which has length `gap`; its only text is the block without the blanks behind line breaks. -/
def Block.paragraph (b : Block) (start gap : Nat) : Node :=
  .paragraph ⟨start, start + b.text.length + gap⟩
    [.text ⟨start, start + b.text.length⟩ (String.ofList (withoutIndents false b.text))]

/-- What is reported of a separator at `start` with three line breaks or more: all that stands
behind the second one. -/
def Separator.warnings (s : Separator) (start : Nat) : List Message :=
  if 3 ≤ s.text.count '\n' then
    [Problem.redundantNewlines.message ⟨start + s.blanks.length + 2, start + s.text.length⟩]
  else []

namespace Segments

/-- The paragraphs that pieces from `start` on are read as. -/
def nodes (start : Nat) : Segments → List Node
  | done => []
  | last block tail => [block.paragraph start tail.text.length]
  | cut block separator rest =>
    block.paragraph start separator.text.length
      :: rest.nodes (start + block.text.length + separator.text.length)

/-- What is reported of pieces from `start` on. -/
def warnings (start : Nat) : Segments → List Message
  | done => []
  | last _ _ => []
  | cut block separator rest =>
    separator.warnings (start + block.text.length)
      ++ rest.warnings (start + block.text.length + separator.text.length)

end Segments

/-! ### Every source is made of pieces -/

/-- Where something stands on the line behind blanks, the blanks do not matter. -/
theorem isUnbroken_blanks {blanks : List Char} (h : ∀ c ∈ blanks, isBlank c = true)
    (text : List Char) : isUnbroken (blanks ++ text) = isUnbroken text := by
  induction blanks with
  | nil => rfl
  | cons c rest ih =>
    have hline : c ≠ '\n' := by
      rintro rfl
      cases h '\n' List.mem_cons_self
    rw [List.cons_append, isUnbroken, ih fun x hx => h x (List.mem_cons_of_mem _ hx)]
    simp [hline]

theorem not_of_dropWhile {p : Char → Bool} {text rest : List Char} {c : Char}
    (h : text.dropWhile p = c :: rest) : p c = false := by
  have hhead := List.head?_dropWhile_not p text
  rw [h] at hhead
  simpa using hhead

inductive Gap (text : List Char) : List Char → Prop
  | tail (tail : Tail) : Gap text tail.text
  | separator (s : Separator) (rest : List Char) : rest.length < text.length →
    (∀ c, rest.head? = some c → isSpacing c = false) → Gap text (s.text ++ rest)

theorem Gap.longer {text text' gap : List Char} (h : Gap text gap)
    (hle : text.length ≤ text'.length) : Gap text' gap := by
  cases h with
  | tail tail => exact .tail tail
  | separator s rest hlt hrest => exact .separator s rest (Nat.lt_of_lt_of_le hlt hle) hrest

/-- Behind a line break and blanks the text goes on, or the line break belongs to a gap. -/
theorem gap_or_line (rest : List Char) : Gap ('\n' :: rest) ('\n' :: rest) ∨
    ∃ blanks c more, rest = blanks ++ c :: more ∧ (∀ x ∈ blanks, isBlank x = true) ∧
      isSpacing c = false := by
  have hblanks : ∀ x ∈ rest.takeWhile isBlank, isBlank x = true :=
    fun x hx => List.mem_takeWhile_imp hx
  have hrest : rest.takeWhile isBlank ++ rest.dropWhile isBlank = rest :=
    List.takeWhile_append_dropWhile
  cases hbehind : rest.dropWhile isBlank with
  | nil =>
    rw [hbehind, List.append_nil] at hrest
    rw [← hrest]
    exact .inl (.tail (.line _ hblanks))
  | cons c more =>
    rw [hbehind] at hrest
    by_cases hline : c = '\n'
    · subst hline
      let s : Separator := ⟨rest.takeWhile isBlank, more.takeWhile isSpacing, hblanks,
        fun x hx => List.mem_takeWhile_imp hx⟩
      have htext : '\n' :: rest = s.text ++ more.dropWhile isSpacing := by
        simp [s, Separator.text, hrest]
      have hlength := congrArg List.length htext
      simp only [List.length_cons, List.length_append, Separator.text] at hlength
      rw [htext]
      refine .inl (.separator s _ ?_ fun x hx => ?_)
      · simp only [List.length_append, Separator.text, List.length_cons]
        omega
      · obtain ⟨tail, htail⟩ := List.head?_eq_some_iff.mp hx
        exact not_of_dropWhile htail
    · have hblank := not_of_dropWhile hbehind
      exact .inr ⟨_, c, more, hrest.symm, hblanks, by simp [isSpacing, hblank, hline]⟩

theorem exists_unbroken (n : Nat) : ∀ text : List Char, text.length ≤ n → ∃ block gap,
    text = block ++ gap ∧ isUnbroken block = true ∧ Gap text gap ∧
      ∀ c, text.head? = some c → c ≠ '\n' → block.head? = some c := by
  induction n with
  | zero =>
    intro text hn
    obtain rfl := List.length_eq_zero_iff.mp (Nat.le_zero.mp hn)
    exact ⟨[], [], rfl, rfl, .tail .nothing, fun _ h => by cases h⟩
  | succ n ih =>
    intro text hn
    cases text with
    | nil => exact ⟨[], [], rfl, rfl, .tail .nothing, fun _ h => by cases h⟩
    | cons c rest =>
      have hrest : rest.length ≤ n := Nat.le_of_succ_le_succ hn
      by_cases hline : c = '\n'
      · subst hline
        rcases gap_or_line rest with hgap | ⟨blanks, c, more, rfl, hblanks, hc⟩
        · exact ⟨[], _, rfl, rfl, hgap, fun x hx hne => absurd (Option.some.inj hx).symm hne⟩
        · have hmore : (c :: more).length ≤ n := by
            rw [List.length_append] at hrest
            omega
          obtain ⟨block, gap, htext, hunbroken, hgap, hhead⟩ := ih (c :: more) hmore
          have hne : c ≠ '\n' := by
            rintro rfl
            cases hc
          have hblank : isBlank c = false := by
            simp only [isSpacing, Bool.or_eq_false_iff] at hc
            exact hc.1
          obtain ⟨others, rfl⟩ := List.head?_eq_some_iff.mp (hhead c rfl hne)
          refine ⟨'\n' :: (blanks ++ c :: others), gap, by simp [htext], ?_, ?_, ?_⟩
          · rw [isUnbroken, isUnbroken_blanks hblanks, hunbroken,
              List.dropWhile_append_of_pos hblanks]
            simp [hblank, hne]
          · refine hgap.longer ?_
            simp only [List.length_cons, List.length_append]
            omega
          · exact fun x hx hne => absurd (Option.some.inj hx).symm hne
      · obtain ⟨block, gap, htext, hunbroken, hgap, -⟩ := ih rest hrest
        refine ⟨c :: block, gap, by rw [htext]; rfl, ?_, hgap.longer (Nat.le_succ _),
          fun x hx _ => hx⟩
        simp [isUnbroken, hline, hunbroken]

/-- A text that starts with no spacing is made of blocks and what stands behind them. -/
theorem exists_segments_of_starts (n : Nat) : ∀ text : List Char, text.length ≤ n →
    (∀ c, text.head? = some c → isSpacing c = false) →
    ∃ segments : Segments, segments.source = text := by
  induction n with
  | zero =>
    intro text hn _
    obtain rfl := List.length_eq_zero_iff.mp (Nat.le_zero.mp hn)
    exact ⟨.done, rfl⟩
  | succ n ih =>
    intro text hn hstarts
    cases text with
    | nil => exact ⟨.done, rfl⟩
    | cons c rest =>
      have hc := hstarts c rfl
      have hne : c ≠ '\n' := by
        rintro rfl
        cases hc
      obtain ⟨block, gap, htext, hunbroken, hgap, hhead⟩ := exists_unbroken _ (c :: rest) hn
      obtain ⟨others, rfl⟩ := List.head?_eq_some_iff.mp (hhead c rfl hne)
      let block : Block := ⟨c, others, hc, hunbroken⟩
      rw [htext]
      cases hgap with
      | tail tail => exact ⟨.last block tail, rfl⟩
      | separator s more hlt hmore =>
        obtain ⟨segments, rfl⟩ := ih more (by simp only [List.length_cons] at hn hlt; omega) hmore
        exact ⟨.cut block s segments, rfl⟩

/-- **Every source is made of leading spacing and pieces.** -/
theorem exists_segments (source : List Char) : ∃ (leading : List Char) (segments : Segments),
    (∀ c ∈ leading, isSpacing c = true) ∧ source = leading ++ segments.source := by
  obtain ⟨segments, hsegments⟩ := exists_segments_of_starts _ (source.dropWhile isSpacing)
    (Nat.le_refl _) fun c hc => by
      obtain ⟨tail, htail⟩ := List.head?_eq_some_iff.mp hc
      exact not_of_dropWhile htail
  refine ⟨source.takeWhile isSpacing, segments, fun c hc => List.mem_takeWhile_imp hc, ?_⟩
  rw [hsegments, List.takeWhile_append_dropWhile]

end PlainText

/-! ### Reading the pieces -/

namespace PlainText

open Parse

variable {e : Engine} {r : Reader} {position : Nat} {text : List Char}

theorem line_of_isUnbroken {rest : List Char} (h : isUnbroken ('\n' :: rest) = true) :
    ∃ blanks c more, rest = blanks ++ c :: more ∧ (∀ x ∈ blanks, isBlank x = true) ∧
      isBlank c = false ∧ c ≠ '\n' ∧ isUnbroken (c :: more) = true := by
  rw [isUnbroken, Bool.and_eq_true] at h
  obtain ⟨hnext, hrest⟩ := h
  cases hbehind : rest.dropWhile isBlank with
  | nil =>
    rw [hbehind] at hnext
    cases hnext
  | cons c more =>
    have hblanks : ∀ x ∈ rest.takeWhile isBlank, isBlank x = true :=
      fun x hx => List.mem_takeWhile_imp hx
    have hsplit : rest = rest.takeWhile isBlank ++ c :: more := by
      rw [← hbehind, List.takeWhile_append_dropWhile]
    rw [hbehind] at hnext
    refine ⟨_, c, more, hsplit, hblanks, not_of_dropWhile hbehind, by simpa using hnext, ?_⟩
    rwa [hsplit, isUnbroken_blanks hblanks] at hrest

theorem content_char {c : Char} (hline : c ≠ '\n') (before : String) (rest : List Char) :
    before ++ c.toString ++ String.ofList (withoutIndents false rest)
      = before ++ String.ofList (withoutIndents false (c :: rest)) := by
  rw [withoutIndents, Bool.false_and, if_neg Bool.false_ne_true, beq_eq_false_iff_ne.mpr hline,
    String.append_assoc]
  refine congrArg (before ++ ·) (String.toList_injective ?_)
  simp

theorem content_line {blanks : List Char} (hblanks : ∀ c ∈ blanks, isBlank c = true) {c : Char}
    (hblank : isBlank c = false) (before : String) (more : List Char) :
    before ++ Mark.newline.text ++ String.ofList (withoutIndents false (c :: more))
      = before ++ String.ofList (withoutIndents false ('\n' :: (blanks ++ c :: more))) := by
  have hbehind : withoutIndents ('\n' == '\n') (blanks ++ c :: more)
      = withoutIndents false (c :: more) := by
    refine (withoutIndents_blanks hblanks _).trans ?_
    refine withoutIndents_of_not_blank (fun x hx => ?_) _
    rwa [← Option.some.inj hx]
  have hline : withoutIndents false ('\n' :: (blanks ++ c :: more))
      = '\n' :: withoutIndents false (c :: more) := by
    rw [withoutIndents, Bool.false_and, if_neg Bool.false_ne_true, hbehind]
  rw [hline, String.append_assoc]
  refine congrArg (before ++ ·) (String.toList_injective ?_)
  simp [Mark.text]

/-- **The text of a paragraph grows up to the end of an unbroken text.** -/
theorem ensures_readParagraph_text {start stop : Nat} {content : String} {gap : List Char}
    {post : List Node → Reader → Prop}
    (hgap : ∀ fuel r, 2 ≤ fuel → Reader.StandsAt r e stop gap →
      Ensures noFault (readParagraph fuel [.text ⟨start, stop⟩ content]) r post) (n : Nat) :
    ∀ (text : List Char) (fuel : Nat) (r : Reader) (position last : Nat) (before : String),
      text.length < n → isUnbroken text = true → (∀ c ∈ text, c ≠ '[' ∧ c ≠ '\\') →
      r.StandsAt e position (text ++ gap) → position + text.length = stop →
      (text = [] → last = stop) → before ++ String.ofList (withoutIndents false text) = content →
      text.length + 2 ≤ fuel →
      Ensures noFault (readParagraph fuel [.text ⟨start, last⟩ before]) r post := by
  induction n with
  | zero => exact fun _ _ _ _ _ _ hn => absurd hn (Nat.not_lt_zero _)
  | succ n ih =>
    intro text fuel r position last before hn hunbroken hplain h hstop hlast hcontent hfuel
    cases text with
    | nil =>
      obtain rfl : before = content := by simpa [withoutIndents] using hcontent
      rw [hlast rfl]
      exact hgap fuel r hfuel (hstop ▸ h)
    | cons c rest =>
      obtain ⟨fuel, rfl⟩ : ∃ more, fuel = more + 2 := ⟨fuel - 2, by omega⟩
      simp only [List.length_cons] at hn hstop hfuel
      obtain ⟨hbracket, hescape⟩ := hplain c List.mem_cons_self
      by_cases hline : c = '\n'
      · -- the blanks behind the line break are passed, and do not belong to the text
        subst hline
        refine ensures_readParagraph_more h.rest (stands_readInline h hbracket hescape ?_)
        obtain ⟨blanks, c, more, rfl, hblanks, hblank, hne, hmore⟩ := line_of_isUnbroken hunbroken
        rw [List.cons_append, List.append_assoc] at h
        have hplain' : ∀ x ∈ c :: more, x ≠ '[' ∧ x ≠ '\\' :=
          fun x hx => hplain x (List.mem_cons_of_mem _ (List.mem_append_right _ hx))
        have hlength : (blanks ++ c :: more).length = blanks.length + (c :: more).length :=
          List.length_append
        refine stands_readCharacter_line h hblanks (fun x hx => ?_)
          (fun hnil => by cases hnil) fun _ r₁ h₁ => ?_
        · obtain rfl := Option.some.inj hx
          exact ⟨hblank, (hplain' c List.mem_cons_self).1⟩
        rw [ensures_bind]
        refine (stands_accept_other h₁ (not_isPrefixOf_of_head rfl hne _)).mono ?_
        rintro _ _ ⟨rfl, rfl⟩
        rw [if_neg Bool.false_ne_true, ensures_bind]
        refine ensures_checked (Nat.le_succ _) ?_
        exact ih (c :: more) (fuel + 1) _ _ (position + 1) _ (by omega) hmore hplain' h₁ (by omega)
          (fun hnil => by cases hnil) ((content_line hblanks hblank before more).trans hcontent)
          (by omega)
      · refine stands_readParagraph_character (by simp [hbracket, hescape, hline]) h fun r₁ h₁ => ?_
        have hrest : isUnbroken rest = true := by
          rw [isUnbroken, Bool.and_eq_true] at hunbroken
          exact hunbroken.2
        refine ih rest (fuel + 1) r₁ _ (position + 1) _ (by omega) hrest
          (fun x hx => hplain x (List.mem_cons_of_mem _ hx)) h₁ (by omega) (fun hnil => ?_)
          ((content_char hline before rest).trans hcontent) (by omega)
        rw [hnil, List.length_nil] at hstop
        omega

/-- A block is read as a text up to what stands behind it. -/
theorem ensures_readParagraph_block (b : Block) {gap : List Char} {fuel : Nat}
    {post : List Node → Reader → Prop} (h : r.StandsAt e position (b.text ++ gap))
    (hplain : ∀ c ∈ b.text, c ≠ '[' ∧ c ≠ '\\') (hfuel : b.text.length + 2 ≤ fuel)
    (hgap : ∀ fuel r, 2 ≤ fuel → Reader.StandsAt r e (position + b.text.length) gap →
      Ensures noFault (readParagraph fuel [.text ⟨position, position + b.text.length⟩
        (String.ofList (withoutIndents false b.text))]) r post) :
    Ensures noFault (readParagraph fuel []) r post := by
  obtain ⟨c, rest, hstarts, hunbroken⟩ := b
  have hline : c ≠ '\n' := by
    rintro rfl
    cases hstarts
  have hrest : isUnbroken rest = true := by
    rw [isUnbroken, Bool.and_eq_true] at hunbroken
    exact hunbroken.2
  simp only [Block.text, List.length_cons] at h hplain hfuel hgap
  obtain ⟨hbracket, hescape⟩ := hplain c List.mem_cons_self
  obtain ⟨fuel, rfl⟩ : ∃ more, fuel = more + 2 := ⟨fuel - 2, by omega⟩
  refine stands_readParagraph_character (by simp [hbracket, hescape, hline]) h fun r₁ h₁ => ?_
  have hcontent : c.toString ++ String.ofList (withoutIndents false rest)
      = String.ofList (withoutIndents false (c :: rest)) := by
    have happend := content_char hline "" rest
    simpa using happend
  refine ensures_readParagraph_text hgap _ rest (fuel + 1) r₁ _ (position + 1) _
    (Nat.lt_succ_self _) hrest (fun x hx => hplain x (List.mem_cons_of_mem _ hx)) h₁ (by omega)
    (fun hnil => ?_) hcontent (by omega)
  rw [hnil, List.length_nil]

theorem ensures_readParagraph_tail (tail : Tail) {nodes : List Node} {fuel : Nat}
    (h : r.StandsAt e position tail.text) (hfuel : 2 ≤ fuel) :
    Ensures noFault (readParagraph fuel nodes) r fun nodes' r' =>
      nodes' = nodes.reverse ∧ r'.StandsAt e (position + tail.text.length) [] := by
  obtain ⟨fuel, rfl⟩ : ∃ more, fuel = more + 2 := ⟨fuel - 2, by omega⟩
  cases tail with
  | nothing =>
    refine (ensures_readParagraph_done h.rest).mono ?_
    rintro _ _ ⟨rfl, rfl⟩
    exact ⟨rfl, h⟩
  | line blanks hblanks =>
    refine ensures_readParagraph_more h.rest (stands_readInline h (by decide) (by decide) ?_)
    have h : r.StandsAt e position ('\n' :: (blanks ++ [])) := by
      rw [List.append_nil]
      exact h
    refine stands_readCharacter_line h hblanks (fun x hx => by cases hx) (fun _ r₁ h₁ => ?_)
      fun hne => absurd rfl hne
    refine ⟨rfl, ?_⟩
    rwa [Tail.text, List.length_cons, Nat.add_comm blanks.length, ← Nat.add_assoc]

/-- A paragraph ends with a separator, in which more line breaks than needed are reported. -/
theorem ensures_readParagraph_separator (s : Separator) {nodes : List Node} {fuel : Nat}
    (h : r.StandsAt e position (s.text ++ text)) (hfuel : 2 ≤ fuel)
    (htext : ∀ c, text.head? = some c → isSpacing c = false) :
    Ensures noFault (readParagraph fuel nodes) r fun nodes' r' => nodes' = nodes.reverse ∧
      r'.StandsAt (e.emit (s.warnings position)) (position + s.text.length) text := by
  obtain ⟨blanks, behind, hblanks, hspacing⟩ := s
  obtain ⟨fuel, rfl⟩ : ∃ more, fuel = more + 2 := ⟨fuel - 2, by omega⟩
  have h : r.StandsAt e position ('\n' :: (blanks ++ ('\n' :: (behind ++ text)))) := by
    simpa [Separator.text] using h
  have hcount : (Separator.text ⟨blanks, behind, hblanks, hspacing⟩).count '\n'
      = behind.count '\n' + 2 := by
    have hnone : blanks.count '\n' = 0 := by
      refine List.count_eq_zero.mpr fun hmem => ?_
      cases hblanks '\n' hmem
    simp [Separator.text, hnone]
  refine ensures_readParagraph_more h.rest (stands_readInline h (by decide) (by decide) ?_)
  refine stands_readCharacter_line h hblanks (fun x hx => ?_) (fun hnil => by cases hnil)
    fun _ r₁ h₁ => ?_
  · rw [← Option.some.inj hx]
    decide
  rw [ensures_bind]
  refine (stands_accept .newline h₁).mono ?_
  rintro _ r₂ ⟨rfl, h₂⟩
  rw [if_pos rfl, ensures_bind]
  refine (stands_skipLines h₂ hspacing htext).mono fun _ r₃ h₃ => ⟨rfl, ?_⟩
  have hstop : position + (Separator.text ⟨blanks, behind, hblanks, hspacing⟩).length
      = position + 1 + blanks.length + 1 + behind.length := by
    simp only [Separator.text, List.length_append, List.length_cons]
    omega
  have hstart : position + blanks.length + 2 = position + 1 + blanks.length + 1 := by omega
  have hmany : 3 ≤ behind.count '\n' + 2 ↔ 0 < behind.count '\n' := by omega
  simp only [Separator.warnings, hcount, hstop, hstart, hmany]
  exact h₃

theorem Segments.starts (segments : Segments) :
    ∀ c, segments.source.head? = some c → isSpacing c = false := by
  intro c hc
  cases segments with
  | done => cases hc
  | last block tail =>
    obtain rfl := Option.some.inj hc
    exact block.starts
  | cut block separator rest =>
    obtain rfl := Option.some.inj hc
    exact block.starts

theorem groupOpen_of_block {b : Block} (hgroup : ¬ Mark.groupOpen.text.toList <+: b.text)
    {gap : List Char} (hgap : ∀ c, gap.head? = some c → c = '\n') :
    Mark.groupOpen.text.toList.isPrefixOf (b.text ++ gap) = false := by
  exact Bool.eq_false_iff.mpr fun h =>
    hgroup (prefix_of_prefix_line (by decide) hgap (List.isPrefixOf_iff_prefix.mp h))

/-- A block is read as its paragraph, which ends where what stands behind it was passed. -/
theorem ensures_readBlock_block (b : Block) {gap text' : List Char} {stop fuel : Nat}
    {e' : Engine} (h : r.StandsAt e position (b.text ++ gap))
    (hplain : ∀ c ∈ b.text, c ≠ '[' ∧ c ≠ '\\')
    (hgroup : ¬ Mark.groupOpen.text.toList <+: b.text)
    (hhead : ∀ c, gap.head? = some c → c = '\n') (hfuel : b.text.length + 3 ≤ fuel)
    (hstop : position ≤ stop)
    (hgap : ∀ fuel r nodes, 2 ≤ fuel → Reader.StandsAt r e (position + b.text.length) gap →
      Ensures noFault (readParagraph fuel nodes) r fun nodes' r' =>
        nodes' = nodes.reverse ∧ r'.StandsAt e' stop text') :
    Ensures noFault (readBlock fuel) r fun nodes r' => r'.StandsAt e' stop text' ∧
      nodes = [.paragraph ⟨position, stop⟩ [.text ⟨position, position + b.text.length⟩
        (String.ofList (withoutIndents false b.text))]] := by
  have hopens : ∀ mark : Mark, mark.text.toList.head? = some '[' →
      mark.text.toList.isPrefixOf (b.text ++ gap) = false :=
    fun mark hmark => not_isPrefixOf_of_head hmark (hplain b.first List.mem_cons_self).1 _
  obtain ⟨fuel, rfl⟩ : ∃ more, fuel = more + 1 := ⟨fuel - 1, by omega⟩
  refine stands_readBlock_paragraph h (List.forall_mem_cons.mpr ⟨hopens _ rfl,
    List.forall_mem_cons.mpr ⟨hopens _ rfl,
      List.forall_mem_singleton.mpr (groupOpen_of_block hgroup hhead)⟩⟩) fun r₁ h₁ => ?_
  refine (ensures_readParagraph_block b h₁ hplain (by omega)
    fun fuel r hfuel hr => hgap fuel r _ hfuel hr).mono ?_
  rintro _ r₂ ⟨rfl, h₂⟩
  refine (stands_spanFrom h₂ hstop).mono ?_
  rintro _ _ ⟨rfl, rfl⟩
  exact ⟨h₂, rfl⟩

/-- **Pieces are read as what they mean.** -/
theorem ensures_readBlocks_plain (segments : Segments) : ∀ (fuel : Nat) (before : List Node)
    (r : Reader) (e : Engine) (position : Nat), r.StandsAt e position segments.source →
    (∀ c ∈ segments.source, c ≠ '[' ∧ c ≠ '\\') →
    (∀ b ∈ segments.blocks, ¬ Mark.groupOpen.text.toList <+: b.text) →
    segments.source.length + 4 ≤ fuel →
    Ensures noFault (readBlocks fuel before) r fun nodes r' =>
      nodes = before.reverse ++ segments.nodes position ∧
        r'.engine = e.emit (segments.warnings position) := by
  have hspan : ∀ (b : Block) (position : Nat) (gap : List Char),
      position ≤ position + b.text.length + gap.length := fun _ _ _ => by omega
  induction segments with
  | done =>
    intro fuel before r e position h _ _ hfuel
    obtain ⟨fuel, rfl⟩ : ∃ more, fuel = more + 1 := ⟨fuel - 1, by omega⟩
    refine (ensures_readBlocks_done h.rest).mono ?_
    rintro _ _ ⟨rfl, rfl⟩
    exact ⟨(List.append_nil _).symm, h.engine⟩
  | last b tail =>
    intro fuel before r e position h hplain hgroup hfuel
    obtain ⟨fuel, rfl⟩ : ∃ more, fuel = more + 2 := ⟨fuel - 2, by omega⟩
    simp only [Segments.source, List.length_append] at h hplain hfuel
    refine ensures_readBlocks_more (h.rest ▸ List.cons_ne_nil _ _) ?_
    refine (ensures_readBlock_block b h (fun c hc => hplain c (List.mem_append_left _ hc))
      (hgroup b (List.mem_singleton_self b)) (fun c hc => ?_) (by omega)
      (hspan b position tail.text)
      fun _ _ _ hfuel h => ensures_readParagraph_tail tail h hfuel).mono ?_
    · cases tail with
      | nothing => cases hc
      | line blanks hblanks => exact (Option.some.inj hc).symm
    rintro _ r₁ ⟨h₁, rfl⟩
    have h₁ : r₁.StandsAt e _ ([] ++ []) := h₁
    refine (stands_skipWhile (p := isSpacing) h₁ (List.forall_mem_nil _)
      fun c hc => by cases hc).mono fun _ r₂ h₂ => ?_
    refine (ensures_readBlocks_done h₂.rest).mono ?_
    rintro _ _ ⟨rfl, rfl⟩
    exact ⟨by simp [Segments.nodes, Block.paragraph], h₂.engine⟩
  | cut b s rest ih =>
    intro fuel before r e position h hplain hgroup hfuel
    obtain ⟨fuel, rfl⟩ : ∃ more, fuel = more + 1 := ⟨fuel - 1, by omega⟩
    simp only [Segments.source, List.length_append] at h hplain hfuel
    obtain ⟨hblock, hrest⟩ := List.forall_mem_cons.mp hgroup
    refine ensures_readBlocks_more (h.rest ▸ List.cons_ne_nil _ _) ?_
    refine (ensures_readBlock_block b h (fun c hc => hplain c (List.mem_append_left _ hc)) hblock
      (fun c hc => (Option.some.inj hc).symm) (by omega) (hspan b position s.text)
      fun _ _ _ hfuel h => ensures_readParagraph_separator s h hfuel rest.starts).mono ?_
    rintro _ r₁ ⟨h₁, rfl⟩
    have h₁ : r₁.StandsAt _ _ ([] ++ rest.source) := h₁
    refine (stands_skipWhile (p := isSpacing) h₁ (List.forall_mem_nil _) rest.starts).mono
      fun _ r₂ h₂ => ?_
    have hlength : 0 < b.text.length := Nat.succ_pos _
    refine (ih fuel _ r₂ _ _ h₂ (fun c hc => hplain c (by simp [hc])) hrest (by omega)).mono ?_
    rintro _ r₃ ⟨rfl, hr₃⟩
    refine ⟨by simp [Segments.nodes, Block.paragraph], ?_⟩
    rw [hr₃, emit_emit]
    rfl

end PlainText

/-- **The law of plain text.**  A source without brackets and backslashes is made of leading
spacing and of blocks with separators between them; and if no block starts with the mark of a
group, then in whatever context it is read, there is a document, whose content is a paragraph
with one text for each block, and whose messages are one for each separator with at least three
line breaks. -/
theorem parse_plain_text (cx : Context) (source : String) :
    (∃ (leading : List Char) (segments : PlainText.Segments),
      (∀ c ∈ leading, isSpacing c = true) ∧ source.toList = leading ++ segments.source) ∧
    ∀ (leading : List Char) (segments : PlainText.Segments),
      (∀ c ∈ leading, isSpacing c = true) → source.toList = leading ++ segments.source →
      '[' ∉ source.toList → '\\' ∉ source.toList →
      (∀ b ∈ segments.blocks, ¬ [':', '-', '-'] <+: b.text) →
      ∃ d, cx.parse source = .ok d ∧ d.content = segments.nodes leading.length ∧
        d.messages = segments.warnings leading.length := by
  refine ⟨PlainText.exists_segments _, fun leading segments hleading hsource hbracket hescape
    hgroup => ?_⟩
  have hplain : ∀ c ∈ segments.source, c ≠ '[' ∧ c ≠ '\\' := by
    intro c hc
    have hmem : c ∈ source.toList := hsource ▸ List.mem_append_right _ hc
    exact ⟨fun h => hbracket (h ▸ hmem), fun h => hescape (h ▸ hmem)⟩
  have hlength : source.toList.length = leading.length + segments.source.length := by
    rw [hsource, List.length_append]
  have hstart : (Reader.start cx source []).StandsAt (.start cx) 0
      (leading ++ segments.source) := ⟨⟨hsource, rfl, rfl⟩, rfl⟩
  have hreads : Ensures noFault (Parse.readSource (readingDepth source.toList.length))
      (Reader.start cx source []) fun nodes r => nodes = segments.nodes leading.length ∧
        r.engine = (Engine.start cx).emit (segments.warnings leading.length) := by
    rw [Parse.readSource, ensures_bind]
    refine (stands_skipWhile hstart hleading segments.starts).mono fun _ r₁ h₁ => ?_
    rw [Nat.zero_add] at h₁
    rw [ensures_bind]
    refine (PlainText.ensures_readBlocks_plain segments _ [] r₁ _ _ h₁ hplain hgroup ?_).mono ?_
    · rw [readingDepth]
      omega
    · rintro _ r₂ ⟨rfl, hr₂⟩
      exact ⟨rfl, hr₂⟩
  obtain ⟨content, r, hrun, rfl, hr⟩ := hreads.exists_ok
  refine ⟨r.document _, ?_, rfl, ?_⟩
  · show (Parse.readSource (readingDepth source.toList.length) (Reader.start cx source []) >>=
      fun answer => pure (answer.2.document answer.1)) = _
    rw [hrun]
    rfl
  · show r.engine.emitted.reverse = _
    rw [hr]
    simp [Engine.emit, Engine.start]

/-- Two blocks, the first of which has an indented line, with a separator of three line breaks
between them. -/
theorem parse_plain_text_indented :
    ∃ cx d, Context.start Builtin.configuration .empty = .ok cx ∧
      cx.parse " a\n b \n \n\n\tc\n" = .ok d ∧
      d.content = [.paragraph ⟨1, 11⟩ [.text ⟨1, 6⟩ "a\nb "],
        .paragraph ⟨11, 13⟩ [.text ⟨11, 12⟩ "c"]] ∧
      d.messages = [Problem.redundantNewlines.message ⟨9, 11⟩] := by
  obtain ⟨cx, hcx⟩ : ∃ cx, Context.start Builtin.configuration .empty = .ok cx := ⟨_, rfl⟩
  let segments : PlainText.Segments :=
    .cut ⟨'a', ['\n', ' ', 'b', ' '], by decide, by decide⟩
      ⟨[' '], ['\n', '\t'], by simp [isBlank], by simp [isSpacing, isBlank]⟩
      (.last ⟨'c', [], by decide, by decide⟩ (.line [] (List.forall_mem_nil _)))
  have hgroup : ∀ b ∈ segments.blocks, ¬ [':', '-', '-'] <+: b.text := by decide
  obtain ⟨d, hd, hcontent, hmessages⟩ := (parse_plain_text cx " a\n b \n \n\n\tc\n").2 [' ']
    segments (by simp [isSpacing, isBlank]) rfl (by decide) (by decide) hgroup
  exact ⟨cx, d, hcx, hd, hcontent, hmessages⟩

end MacroMarkup
