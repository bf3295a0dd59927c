import MacroMarkup.Proofs.Standing

/-!
# Escaped text

Whatever a text holds, it can be written so that it is read as a paragraph that holds it: with a
backslash before its first character, and before each other one that means something in a
paragraph.

* `escapeText`: a backslash before each character of a kind.
* `writeParagraph`: how a text is written as a paragraph.
* `literalText?`: what text and escaped characters say together.
* `ensures_readParagraph_escaped`: the paragraph loop on an escaped text, by induction on the text.
* `parse_escaped_text`: **escaped text is read as what it says.**
-/

namespace MacroMarkup

/-! ### Writing -/

def escapeChar (special : Char → Bool) (c : Char) : List Char :=
  if special c then ['\\', c] else [c]

/-- A text with a backslash before each special character. -/
def escapeText (special : Char → Bool) (text : List Char) : List Char :=
  text.flatMap (escapeChar special)

/-- The characters that mean something inside a paragraph. -/
def isParagraphSign (c : Char) : Bool := c = '\\' || c = '[' || c = '\n'

def writeParagraph (text : String) : String :=
  match text.toList with
  | [] => ""
  | c :: rest => String.ofList ('\\' :: c :: escapeText isParagraphSign rest)

section Writing

variable {special : Char → Bool} {c : Char}

@[simp] theorem escapeText_nil : escapeText special [] = [] := rfl

theorem escapeText_special (h : special c = true) (rest : List Char) :
    escapeText special (c :: rest) = '\\' :: c :: escapeText special rest := by
  simp [escapeText, escapeChar, h]

theorem escapeText_other (h : special c = false) (rest : List Char) :
    escapeText special (c :: rest) = c :: escapeText special rest := by
  simp [escapeText, escapeChar, h]

theorem toString_append_ofList (c : Char) (rest : List Char) :
    c.toString ++ String.ofList rest = String.ofList (c :: rest) :=
  String.toList_injective (by simp)

theorem length_le_escapeText (special : Char → Bool) (text : List Char) :
    text.length ≤ (escapeText special text).length := by
  induction text with
  | nil => exact Nat.le_refl _
  | cons c rest ih =>
    cases h : special c with
    | true =>
      rw [escapeText_special h]
      simp only [List.length_cons]
      omega
    | false =>
      rw [escapeText_other h]
      simp only [List.length_cons]
      omega

end Writing

/-! ### What text and escaped characters say -/

/-- What a node says, if it is text or an escaped character. -/
def Node.literal? : Node → Option String
  | .text _ content => some content
  | .escaped _ content => some content
  | _ => none

def literalText? : List Node → Option String
  | [] => some ""
  | n :: rest => n.literal?.bind fun content => (literalText? rest).map (content ++ ·)

section Literal

variable {nodes : List Node} {content : String}

theorem literalText?_append (a b : List Node) :
    literalText? (a ++ b) = (literalText? a).bind fun s => (literalText? b).map (s ++ ·) := by
  induction a with
  | nil => cases h : literalText? b <;> simp [literalText?, h]
  | cons n rest ih =>
    simp only [List.cons_append, literalText?, ih]
    cases n.literal? <;> cases literalText? rest <;> cases literalText? b <;>
      simp [String.append_assoc]

@[simp] theorem literalText?_singleton (n : Node) : literalText? [n] = n.literal? := by
  cases h : n.literal? <;> simp [literalText?, h]

theorem literalText?_escaped (h : literalText? nodes.reverse = some content) (span : Span)
    (more : String) :
    literalText? (Node.escaped span more :: nodes).reverse = some (content ++ more) := by
  rw [List.reverse_cons, literalText?_append, h, literalText?_singleton]
  rfl

/-- Text that is joined with text says no more and no less. -/
theorem literalText?_appendText (h : literalText? nodes.reverse = some content) (span : Span)
    (more : String) :
    literalText? (appendText more span nodes).reverse = some (content ++ more) := by
  unfold appendText
  split
  · rename_i before text rest
    rw [List.reverse_cons, literalText?_append, literalText?_singleton] at h ⊢
    cases hrest : literalText? rest.reverse with
    | none =>
      rw [hrest] at h
      cases h
    | some start =>
      rw [hrest] at h
      obtain rfl : start ++ text = content := Option.some.inj h
      have hassoc : start ++ text ++ more = start ++ (text ++ more) := String.append_assoc
      exact congrArg some hassoc.symm
  · rw [List.reverse_cons, literalText?_append, h, literalText?_singleton]
    rfl

end Literal

/-! ### Reading -/

section Reading

open Parse

variable {e : Engine} {r : Reader} {position : Nat} {text : List Char}

theorem stands_readInline_escaped {fuel : Nat} {before : List Node} {c : Char}
    (h : r.StandsAt e position ('\\' :: c :: text)) :
    Ensures noFault (readInline (fuel + 1) before) r fun read r' =>
      read = (.escaped ⟨position, position + 2⟩ c.toString :: before, true) ∧
        r'.StandsAt e (position + 2) text := by
  refine stands_readInline_start h (by decide) ?_
  rw [ensures_bind]
  refine (stands_accept .escape h).mono ?_
  rintro _ r₁ ⟨rfl, h₁⟩
  rw [if_pos rfl, ensures_bind, readEscaped, ensures_bind]
  refine (stands_takeChar h₁).mono ?_
  rintro _ r₂ ⟨rfl, h₂⟩
  simp only [ensures_bind]
  refine (stands_spanFrom h₂ (Nat.le_add_right position 2)).mono ?_
  rintro _ _ ⟨rfl, rfl⟩
  exact ⟨rfl, h₂⟩

theorem stands_readParagraph_backslash {fuel : Nat} {before : List Node} {c : Char}
    {post : List Node → Reader → Prop} (h : r.StandsAt e position ('\\' :: c :: text))
    (hread : ∀ r', r'.StandsAt e (position + 2) text → Ensures noFault (readParagraph (fuel + 1)
      (.escaped ⟨position, position + 2⟩ c.toString :: before)) r' post) :
    Ensures noFault (readParagraph (fuel + 2) before) r post := by
  refine ensures_readParagraph_more h.rest ((stands_readInline_escaped h).mono ?_)
  rintro _ r₁ ⟨rfl, h₁⟩
  exact hread r₁ h₁

/-- **The paragraph loop on an escaped text**: at no character does it leave the paragraph. -/
theorem ensures_readParagraph_escaped (text : List Char) : ∀ {fuel : Nat} {r : Reader}
    {position : Nat} {nodes : List Node} {content : String},
    r.StandsAt e position (escapeText isParagraphSign text) →
    literalText? nodes.reverse = some content → text.length + 2 ≤ fuel →
    Ensures noFault (readParagraph fuel nodes) r fun nodes' r' =>
      literalText? nodes' = some (content ++ String.ofList text) ∧
        r'.StandsAt e (position + (escapeText isParagraphSign text).length) [] := by
  induction text with
  | nil =>
    intro fuel r position nodes content h hnodes hfuel
    obtain ⟨fuel, rfl⟩ : ∃ more, fuel = more + 1 := ⟨fuel - 1, by omega⟩
    refine (ensures_readParagraph_done h.rest).mono ?_
    rintro _ _ ⟨rfl, rfl⟩
    exact ⟨by simpa using hnodes, h⟩
  | cons c rest ih =>
    intro fuel r position nodes content h hnodes hfuel
    obtain ⟨fuel, rfl⟩ : ∃ more, fuel = more + 2 := ⟨fuel - 2, by omega⟩
    have hcontent : content ++ String.ofList (c :: rest)
        = content ++ c.toString ++ String.ofList rest := by
      rw [String.append_assoc, toString_append_ofList]
    simp only [List.length_cons] at hfuel
    rw [hcontent]
    cases hsign : isParagraphSign c with
    | true =>
      rw [escapeText_special hsign] at h ⊢
      refine stands_readParagraph_backslash h fun r₁ h₁ => ?_
      refine (ih h₁ (literalText?_escaped hnodes _ c.toString) (by omega)).mono ?_
      rintro nodes' r₂ ⟨hnodes', h₂⟩
      simp only [List.length_cons]
      rw [show position + ((escapeText isParagraphSign rest).length + 1 + 1)
        = position + 2 + (escapeText isParagraphSign rest).length by omega]
      exact ⟨hnodes', h₂⟩
    | false =>
      rw [escapeText_other hsign] at h ⊢
      have hplain : c ∉ ['[', '\\', '\n'] := by
        obtain ⟨hescape, hbracket, hline⟩ : c ≠ '\\' ∧ c ≠ '[' ∧ c ≠ '\n' := by
          simpa [isParagraphSign, and_assoc] using hsign
        simp [hescape, hbracket, hline]
      refine stands_readParagraph_character hplain h fun r₁ h₁ => ?_
      refine (ih h₁ (literalText?_appendText hnodes _ c.toString) (by omega)).mono ?_
      rintro nodes' r₂ ⟨hnodes', h₂⟩
      simp only [List.length_cons]
      rw [show position + ((escapeText isParagraphSign rest).length + 1)
        = position + 1 + (escapeText isParagraphSign rest).length by omega]
      exact ⟨hnodes', h₂⟩

end Reading

/-- **Escaped text is read as what it says.**  Whatever the context, a text that is not empty,
written with a backslash before its first character and before each other backslash, opening
bracket and line break, is read without messages as one paragraph, which holds nothing but text
and escaped characters, and these say the text. -/
theorem parse_escaped_text (cx : Context) (text : String) (htext : text ≠ "") :
    ∃ d span nodes, cx.parse (writeParagraph text) = .ok d ∧ d.messages = [] ∧
      d.content = [.paragraph span nodes] ∧ literalText? nodes = some text := by
  obtain ⟨c, rest, hchars⟩ : ∃ c rest, text.toList = c :: rest :=
    List.exists_cons_of_ne_nil fun hnil => htext (String.toList_eq_nil_iff.mp hnil)
  have hsource : (writeParagraph text).toList = '\\' :: c :: escapeText isParagraphSign rest := by
    rw [writeParagraph, hchars, String.toList_ofList]
  have hstarts : ∀ x, (writeParagraph text).toList.head? = some x → isSpacing x = false := by
    intro x hx
    rw [hsource] at hx
    rw [← Option.some.inj hx]
    decide
  have hblock : ∀ r : Reader, r.StandsAt (.start cx) 0 (writeParagraph text).toList →
      Ensures noFault (Parse.readBlock (8 * (writeParagraph text).toList.length + 7)) r
        fun blocks r' => r'.cursor.rest = [] ∧ r'.engine = .start cx ∧
          ∃ span nodes, blocks = [.paragraph span nodes] ∧ literalText? nodes = some text := by
    intro r h
    rw [hsource] at h ⊢
    refine stands_readBlock_paragraph h (not_isPrefixOf_of_backslash _) fun r₁ h₁ => ?_
    refine stands_readParagraph_backslash h₁ fun r₂ h₂ => ?_
    have hlength := length_le_escapeText isParagraphSign rest
    have hfirst : literalText? [Node.escaped ⟨0, 0 + 2⟩ c.toString].reverse = some c.toString :=
      literalText?_singleton _
    refine (ensures_readParagraph_escaped rest h₂ hfirst ?_).mono ?_
    · simp only [List.length_cons]
      omega
    rintro nodes r₃ ⟨hnodes, h₃⟩
    rw [toString_append_ofList, ← hchars, String.ofList_toList] at hnodes
    refine (stands_spanFrom h₃ (Nat.zero_le _)).mono ?_
    rintro span _ ⟨rfl, rfl⟩
    exact ⟨h₃.rest, h₃.engine, _, nodes, rfl, hnodes⟩
  obtain ⟨d, e, hd, hmessages, rfl, span, nodes, hcontent, hnodes⟩ := parse_of_block
    (fun blocks e => e = .start cx ∧
      ∃ span nodes, blocks = [.paragraph span nodes] ∧ literalText? nodes = some text)
    (hsource ▸ List.cons_ne_nil _ _) hstarts hblock
  exact ⟨d, span, nodes, hd, hmessages, hcontent, hnodes⟩

/-- A text that starts with the mark of a group, and has a blank line, an end tag, the start of a
block and blanks at its end. -/
theorem parse_escaped_text_marks :
    ":--\n \n[/][.raw]\\ " ≠ "" ∧ writeParagraph ":--\n \n[/][.raw]\\ " =
      "\\:--\\\n \\\n\\[/]\\[.raw]\\\\ " ∧
      ∃ cx d span nodes, Context.start Builtin.configuration .empty = .ok cx ∧
        cx.parse "\\:--\\\n \\\n\\[/]\\[.raw]\\\\ " = .ok d ∧ d.messages = [] ∧
        d.content = [.paragraph span nodes] ∧
        literalText? nodes = some ":--\n \n[/][.raw]\\ " := by
  obtain ⟨cx, hcx⟩ : ∃ cx, Context.start Builtin.configuration .empty = .ok cx := ⟨_, rfl⟩
  have hwritten : writeParagraph ":--\n \n[/][.raw]\\ "
      = "\\:--\\\n \\\n\\[/]\\[.raw]\\\\ " := by decide
  obtain ⟨d, span, nodes, hd, hrest⟩ := parse_escaped_text cx ":--\n \n[/][.raw]\\ " (by decide)
  rw [hwritten] at hd
  exact ⟨by decide, hwritten, cx, d, span, nodes, hcx, hd, hrest⟩

end MacroMarkup
