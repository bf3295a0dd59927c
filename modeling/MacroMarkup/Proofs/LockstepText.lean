import MacroMarkup.Proofs.LockstepLines

/-!
# Text in lockstep

A line break in a paragraph ends it or goes on, by what stands at the start of the next line;
this is the same in both sources, as no mark begins before the gap and ends in it.  Only where a
block starts inside a line do the two runs differ: there the second one passes a line break.

* `LineStart`, `readCharacter_eq`: what a line break comes to.
* `InStep.readCharacter`, `InStep.readEscaped`, `InStep.acceptInlineClose`: pieces of text.
* `InStep.readInline`: **a piece of a paragraph is read in step**, and with it the warning about
  a block inside a line is mended.
* `InStep.readPreformatted`: raw text.
-/

namespace MacroMarkup

open Parse
open Placed (placeless)

namespace Mend

variable {M : Mend} {K : Lasting} {w : List Char}

abbrev Together (M : Mend) : Reader → Reader → Prop := M.Tied fun _ => True

/-- Where a paragraph may go on, or where it ended. -/
def AtRest (M : Mend) (continues : Bool) (w : List Char) : Prop :=
  if continues then M.AtPiece w else M.AtLines w

/-! ### What is known of the text before the gap -/

section Places

theorem AtLines.firm_newline (h : M.AtLines w) : M.Firm ('\n' :: w) := by
  rcases h with h | ⟨hproblem, rfl⟩
  · exact h.append ['\n']
  · simp [Firm, hproblem]

theorem AtLines.firm_groupClose (h : M.AtLines w) : M.Firm ('-' :: '-' :: ':' :: w) := by
  rcases h with h | ⟨hproblem, rfl⟩
  · exact h.append ['-', '-', ':']
  · simp [Firm, hproblem]

theorem AtPiece.firm_cons (c : Char) (h : M.AtPiece w) : M.Firm (c :: w) := by
  rcases h with h | ⟨hproblem, rfl⟩
  · exact h.append [c]
  · simp [Firm, hproblem]

theorem AtPiece.firm_mark (mark : Mark) (h : M.AtPiece w) : M.Firm (mark.text.toList ++ w) := by
  rcases h with h | ⟨hproblem, rfl⟩
  · exact h.append _
  · simpa [Firm, hproblem] using mark_text_ne_empty mark

theorem Firm.append_tail_ne_nil (h : M.Firm w) (t : List Char) : w ++ t ≠ [] :=
  List.append_ne_nil_of_left_ne_nil h.ne_nil t

theorem AtLines.append_tail_ne_nil (hM : M.Place) (h : M.AtLines w) : w ++ M.tail .ahead ≠ [] := by
  rcases h with h | ⟨hproblem, rfl⟩
  · exact h.append_tail_ne_nil _
  · simp only [Place, hproblem] at hM
    exact List.append_ne_nil_of_left_ne_nil hM.1 _

theorem tail_of_blockInsideLine (hM : M.Place) (hproblem : M.problem = .blockInsideLine) :
    ∃ rest, M.tail .ahead = '[' :: '.' :: rest ∧ M.tail' .ahead = '\n' :: '[' :: '.' :: rest := by
  simp only [Place, hproblem] at hM
  obtain ⟨hgap, rest, hafter⟩ := hM
  refine ⟨rest, ?_, ?_⟩
  · rw [tail, hgap, ← hafter]
    rfl
  · rw [tail', fill, if_neg (by rw [hproblem]; decide), ← hafter]
    rfl

theorem AtPiece.append_tail_ne_nil (hM : M.Place) (h : M.AtPiece w) :
    w ++ M.tail .ahead ≠ [] ∧ w ++ M.tail' .ahead ≠ [] := by
  rcases h with h | ⟨hproblem, rfl⟩
  · exact ⟨h.append_tail_ne_nil _, h.append_tail_ne_nil _⟩
  · obtain ⟨rest, htail, htail'⟩ := tail_of_blockInsideLine hM hproblem
    rw [htail, htail']
    exact ⟨List.cons_ne_nil _ _, List.cons_ne_nil _ _⟩

theorem AtPiece.firm_of_not_block (hM : M.Place) (h : M.AtPiece w)
    (hnot : Mark.blockOpen.text.toList.isPrefixOf (w ++ M.tail .ahead) = false) : M.Firm w := by
  refine h.resolve_right ?_
  rintro ⟨hproblem, rfl⟩
  obtain ⟨rest, htail, -⟩ := tail_of_blockInsideLine hM hproblem
  rw [htail] at hnot
  cases hnot

/-- The marks that are looked for at the start of a piece are not those at the gap. -/
theorem AtPiece.isPrefixOf (hM : M.Place) (h : M.AtPiece w) {mark : Mark}
    (hmark : mark ≠ .blockOpen) (hbreak : mark ≠ .newline) :
    mark.text.toList.isPrefixOf (w ++ M.tail' .ahead)
      = mark.text.toList.isPrefixOf (w ++ M.tail .ahead) := by
  rcases h with h | ⟨hproblem, rfl⟩
  · exact h.isPrefixOf hM mark
  · obtain ⟨rest, htail, htail'⟩ := tail_of_blockInsideLine hM hproblem
    rw [htail, htail']
    cases mark <;> first | rfl | exact absurd rfl hmark | exact absurd rfl hbreak

theorem not_spacing_of_mark {mark : Mark} {rest : List Char} (hmark : mark ≠ .newline)
    (h : mark.text.toList.isPrefixOf rest = true) :
    ∀ c, rest.head? = some c → isSpacing c = false := by
  obtain ⟨t, rfl⟩ := List.isPrefixOf_iff_prefix.mp h
  intro c hc
  cases mark <;> first | exact absurd rfl hmark | (cases hc; rfl)

end Places

/-! ### Lines of a paragraph -/

/-- What stands behind a line break in a paragraph. -/
inductive LineStart where
  /-- Something that ends the paragraph. -/
  | ends
  /-- Another line break, which ends it too. -/
  | blank
  /-- Something that belongs to it. -/
  | goesOn
deriving DecidableEq

def endsParagraph (inGroup : Bool) (rest : List Char) : Bool :=
  Mark.blockOpen.text.toList.isPrefixOf rest || Mark.systemOpen.text.toList.isPrefixOf rest ||
    (inGroup && Mark.groupClose.text.toList.isPrefixOf rest) || rest.isEmpty

def lineStart (inGroup : Bool) (rest : List Char) : LineStart :=
  if endsParagraph inGroup rest then .ends
  else if Mark.newline.text.toList.isPrefixOf rest then .blank
  else .goesOn

/-- How much of the text at the start of a line is passed. -/
def passedAtStart (inGroup : Bool) (rest : List Char) : Nat :=
  if lineStart inGroup rest = .blank then 1 else 0

def startLine (inGroup : Bool) : Parse LineStart := do
  if (← peek .blockOpen) || (← peek .systemOpen) || (inGroup && (← peek .groupClose))
      || (← isAtEnd) then
    return .ends
  if ← accept .newline then return .blank
  return .goesOn

theorem startLine_eq (inGroup : Bool) (r : Reader) :
    startLine inGroup r = .ok (lineStart inGroup r.cursor.rest,
      r.advance (passedAtStart inGroup r.cursor.rest)) := by
  show (if endsParagraph inGroup r.cursor.rest = true then (pure LineStart.ends : Parse LineStart)
    else do if ← accept .newline then return .blank else return .goesOn) r = _
  unfold passedAtStart lineStart
  cases endsParagraph inGroup r.cursor.rest with
  | true => rfl
  | false =>
    simp only [Bool.false_eq_true, if_false]
    rw [bind_of_ok (accept_eq .newline r)]
    cases Mark.newline.text.toList.isPrefixOf r.cursor.rest <;> rfl

def goOn (start : Nat) (nodes : List Node) : LineStart → Parse (List Node × Bool)
  | .ends => return (nodes, false)
  | .blank => do
    skipLines 0
    return (nodes, false)
  | .goesOn => do
    let span ← Span.checked start (start + 1)
    return (appendText Mark.newline.text span nodes, true)

theorem readCharacter_eq (nodes : List Node) : Parse.readCharacter nodes = (do
    let start ← position
    if ← accept .newline then
      skipBlanks
      let reader ← get
      let found ← startLine (reader.openGroups ≠ 0)
      goOn start nodes found
    else
      match ← takeChar? with
      | some c => return (appendText c.toString (← spanFrom start) nodes, true)
      | none => return (nodes, false)) := by
  refine bind_congr fun start => bind_congr fun broke => ?_
  cases broke with
  | false => rfl
  | true =>
    simp only [if_true, startLine, bind_assoc]
    refine bind_congr fun _ => bind_congr fun reader => bind_congr fun block =>
      bind_congr fun system => bind_congr fun close => bind_congr fun atEnd => ?_
    split
    · rfl
    · rw [bind_assoc]
      refine bind_congr fun again => ?_
      cases again <;> rfl

theorem Firm.lineStart (hM : M.Place) (h : M.Firm w) (inGroup : Bool) :
    Mend.lineStart inGroup (w ++ M.tail' .ahead) = Mend.lineStart inGroup (w ++ M.tail .ahead) := by
  have hmark : ∀ mark : Mark, mark.text.toList.isPrefixOf (w ++ M.tail' .ahead)
      = mark.text.toList.isPrefixOf (w ++ M.tail .ahead) := h.isPrefixOf hM
  have hsome : ∀ t, (w ++ t).isEmpty = false :=
    fun t => List.isEmpty_eq_false_iff.mpr (h.append_tail_ne_nil t)
  rw [Mend.lineStart, Mend.lineStart, endsParagraph, endsParagraph, hmark, hmark, hmark, hmark,
    hsome, hsome]

theorem not_spacing_of_ends {inGroup : Bool} {rest : List Char}
    (h : endsParagraph inGroup rest = true) : ∀ c, rest.head? = some c → isSpacing c = false := by
  simp only [endsParagraph, Bool.or_eq_true, Bool.and_eq_true, List.isEmpty_iff] at h
  rcases h with ((h | h) | ⟨-, h⟩) | rfl
  · exact @not_spacing_of_mark .blockOpen _ (by decide) h
  · exact @not_spacing_of_mark .systemOpen _ (by decide) h
  · exact @not_spacing_of_mark .groupClose _ (by decide) h
  · exact fun c hc => by cases hc

/-- What the text before the gap may be behind the start of a line. -/
def BehindStart (M : Mend) : LineStart → List Char → Prop
  | .goesOn => M.AtPiece
  | _ => M.AtLines

theorem BehindStart.firm (hM : M.Place) {inGroup : Bool} {passed : List Char}
    (hpassed : passedAtStart inGroup (passed ++ (w ++ M.tail .ahead)) = passed.length)
    (h : M.BehindStart (lineStart inGroup (passed ++ (w ++ M.tail .ahead))) w) :
    M.Firm (passed ++ w) := by
  unfold passedAtStart at hpassed
  unfold lineStart at h hpassed
  cases hends : endsParagraph inGroup (passed ++ (w ++ M.tail .ahead)) with
  | true =>
    rw [hends] at h hpassed
    obtain rfl := List.length_eq_zero_iff.mp hpassed.symm
    exact AtLines.firm_of_not_spacing hM h (not_spacing_of_ends hends)
  | false =>
    rw [hends] at h hpassed
    cases hbreak : Mark.newline.text.toList.isPrefixOf (passed ++ (w ++ M.tail .ahead)) with
    | true =>
      rw [hbreak] at h hpassed
      have hcount : (if Mark.newline.text.toList.isPrefixOf (passed ++ (w ++ M.tail .ahead))
          then Mark.newline.text.toList.length else 0) = passed.length := by
        rw [hbreak]
        exact hpassed
      rcases passed_literal hcount with ⟨-, rfl⟩ | ⟨hnot, -⟩
      · exact AtLines.firm_newline h
      · rw [hbreak] at hnot
        cases hnot
    | false =>
      rw [hbreak] at h hpassed
      obtain rfl := List.length_eq_zero_iff.mp hpassed.symm
      refine AtPiece.firm_of_not_block hM h ?_
      simp only [endsParagraph, Bool.or_eq_false_iff] at hends
      exact hends.1.1.1

theorem InStep.startLine (inGroup : Bool) :
    M.InStep K M.Together M.Firm (Mend.startLine inGroup) (Mend.startLine inGroup) M.BehindStart
      Eq := by
  refine .scan (lineStart inGroup) (passedAtStart inGroup) (startLine_eq inGroup) (fun rest => ?_)
    (fun hM passed w hpassed h => h.firm hM.place hpassed) fun hM passed w hpassed h => ?_
  · unfold passedAtStart lineStart
    cases endsParagraph inGroup rest with
    | true => exact Nat.zero_le _
    | false =>
      cases hbreak : Mark.newline.text.toList.isPrefixOf rest with
      | true => exact (List.isPrefixOf_iff_prefix.mp hbreak).length_le
      | false => exact Nat.zero_le _
  · have hsame := (h.firm hM.place hpassed).lineStart hM.place inGroup
    simp only [List.append_assoc] at hsame
    exact ⟨hsame, by rw [passedAtStart, hsame]; exact hpassed⟩

/-! ### Characters -/

section Characters

variable {nodes nodes' : List Node}

theorem alike_appendText {text : String} {span span' : Span} (h : Alike nodes nodes') :
    Alike (appendText text span nodes) (appendText text span' nodes') := by
  have hplaceless : ∀ (span : Span) (nodes : List Node),
      placeless (appendText text span nodes) = appendText text .nowhere (placeless nodes) := by
    intro span nodes
    rcases nodes with _ | ⟨node, rest⟩
    · rfl
    · cases node with
      | modifier m =>
        show placeless (Node.text span text) :: placeless (Node.modifier m) :: placeless rest = _
        rw [placeless_cons, placeless_modifier]
        rfl
      | _ => rfl
  rw [Alike, hplaceless, hplaceless, h]

theorem alike_read {continues : Bool} (h : Alike nodes nodes') :
    Alike (nodes, continues) (nodes', continues) := Prod.ext h rfl

theorem exists_read {α : Type} [Placed α] {read read' : α × Bool} (h : Alike read read') :
    ∃ a a' continues, read = (a, continues) ∧ read' = (a', continues) ∧ Alike a a' := by
  obtain ⟨a, continues⟩ := read
  obtain ⟨a', continues'⟩ := read'
  obtain ⟨ha, hcontinues⟩ := Prod.mk.inj h
  have hcontinues : continues' = continues := hcontinues
  exact ⟨a, a', continues, rfl, by rw [hcontinues], ha⟩

theorem InStep.goOn (start start' : Nat) (h : Alike nodes nodes') (found : LineStart) :
    M.InStep K M.Together (M.BehindStart found) (Mend.goOn start nodes found)
      (Mend.goOn start' nodes' found) (fun read => M.AtRest read.2) Alike := by
  cases found with
  | ends => exact .pure (alike_read h) fun _ _ hw => hw
  | blank =>
    exact .bind_of_refl (.skipLines 0) (fun _ => rfl) fun _ _ _ =>
      .pure (alike_read h) fun _ _ hw => hw
  | goesOn =>
    exact .bind_of_refl (.checked _ _ _ _) (fun _ => rfl) fun _ _ _ =>
      .pure (alike_read (alike_appendText h)) fun _ _ hw => hw

/-- Where a character was taken a piece of a paragraph may follow. -/
def BehindCharacter (M : Mend) (taken : Option Char) : List Char → Prop :=
  M.AtRest taken.isSome

theorem InStep.takeCharacter :
    M.InStep K M.Together M.Firm Parse.takeChar? Parse.takeChar? M.BehindCharacter Eq :=
  .takeChar? (fun _ c _ h => AtPiece.firm_cons c h) fun hM _ h =>
    AtLines.append_tail_ne_nil hM.place h

theorem InStep.readCharacter (h : Alike nodes nodes') :
    M.InStep K M.Together M.Firm (Parse.readCharacter nodes) (Parse.readCharacter nodes')
      (fun read => M.AtRest read.2) Alike := by
  rw [readCharacter_eq, readCharacter_eq]
  refine .bind_of_refl .position (fun _ => trivial) fun start start' _ => ?_
  have hbreak : M.InStep K M.Together M.Firm (Parse.accept .newline) (Parse.accept .newline)
      (fun _ => M.Firm) Eq :=
    .accept (fun _ _ h => h.append _) (fun _ _ h => h) fun hM _ h => h.isPrefixOf hM.place _
  refine .bind_of_refl hbreak (fun _ => rfl) fun broke _ hbroke => ?_
  subst hbroke
  cases broke with
  | true =>
    have hblanks : M.InStep K M.Together M.Firm skipBlanks skipBlanks (fun _ => M.Firm) Eq := by
      refine .skipWhile (fun _ passed _ _ h => h.append passed) fun _ w h hstop => ?_
      rwa [List.head?_append_of_ne_nil w h.ne_nil] at hstop ⊢
    have hline : ∀ inGroup : Bool, M.InStep K M.Together M.Firm
        (Mend.startLine inGroup >>= Mend.goOn start nodes)
        (Mend.startLine inGroup >>= Mend.goOn start' nodes')
        (fun read => M.AtRest read.2) Alike := by
      refine fun inGroup =>
        .bind_of_refl (.startLine inGroup) (fun _ => rfl) fun found _ hfound => ?_
      subst hfound
      exact .goOn start start' h found
    refine .bind_of_refl hblanks (fun _ => rfl) fun _ _ _ => ?_
    refine .get (fun r => (hline _).back) fun r s _ _ hT => ?_
    obtain ⟨φ, -, hat⟩ := hT
    rw [hat.openGroups]
    exact hline _
  | false =>
    refine .bind_of_refl .takeCharacter (fun _ => rfl) fun taken _ htaken => ?_
    subst htaken
    cases taken with
    | none => exact .pure (alike_read h) fun _ _ hw => hw
    | some c =>
      exact .bind_of_refl (.spanFrom _ _) (fun _ => rfl) fun _ _ _ =>
        .pure (alike_read (alike_appendText h)) fun _ _ hw => hw

theorem InStep.readEscaped (start start' : Nat) (h : Alike nodes nodes') :
    M.InStep K M.Together M.Firm (Parse.readEscaped start nodes) (Parse.readEscaped start' nodes')
      (fun _ => M.AtPiece) Alike := by
  have htake : M.InStep K M.Together M.Firm Parse.takeChar? Parse.takeChar?
      (fun _ => M.AtPiece) Eq :=
    .takeChar? (fun _ c _ h => AtPiece.firm_cons c h)
      fun hM _ h => (AtPiece.append_tail_ne_nil hM.place h).1
  refine .bind_of_refl htake (fun _ => rfl) fun taken _ htaken => ?_
  subst htaken
  cases taken with
  | none =>
    exact .bind_of_refl (.spanFrom _ _) (fun _ => rfl) fun _ _ _ =>
      .pure (alike_appendText h) fun _ _ hw => hw
  | some c =>
    exact .bind_of_refl (.spanFrom _ _) (fun _ => rfl) fun _ _ _ =>
      .pure (alike_cons (by rfl) h) fun _ _ hw => hw

theorem InStep.acceptInlineClose :
    M.InStep K M.Together M.AtPiece Parse.acceptInlineClose Parse.acceptInlineClose
      (fun _ => M.AtPiece) Eq := by
  have hclose : ∀ mark : Mark, mark ≠ .blockOpen → mark ≠ .newline →
      M.InStep K M.Together M.AtPiece (Parse.accept mark) (Parse.accept mark) (fun _ => M.AtPiece)
        Eq := by
    intro mark hmark hbreak
    exact .accept (fun _ w h => .inl (AtPiece.firm_mark mark h)) (fun _ _ h => h) fun hM _ h =>
      AtPiece.isPrefixOf hM.place h hmark hbreak
  refine .bind_of_refl (hclose .inlineClose (by decide) (by decide)) (fun _ => rfl)
    fun closed _ hclosed => ?_
  subst hclosed
  cases closed with
  | true => exact .pure rfl fun _ _ h => h
  | false => exact hclose .inlineCloseOther (by decide) (by decide)

end Characters

/-! ### Pieces of a paragraph -/

section Pieces

variable {fuel : Nat} {nodes nodes' : List Node} {r s : Reader}

def readPiece (fuel : Nat) (before : List Node) : Parse (List Node × Bool) := do
  if ← peek .inlineOpen then
    let (m, continues) ← readModifier fuel .inline
    return (.modifier m :: before, continues)
  if ← peek .systemOpen then return (before, false)
  let start ← position
  if ← accept .escape then return (← Parse.readEscaped start before, true)
  Parse.readCharacter before

theorem readInline_eq (fuel : Nat) (before : List Node) (h : r.engine.referring = []) :
    Parse.readInline (fuel + 1) before r =
      if Mark.blockOpen.text.toList.isPrefixOf r.cursor.rest then
        .ok ((before, false), warned .blockInsideLine r.cursor.position r)
      else readPiece fuel before r := by
  rw [Parse.readInline]
  show (if Mark.blockOpen.text.toList.isPrefixOf r.cursor.rest = true then (do
    Parse.emit [Problem.blockInsideLine.message (.empty (← position))]
    return (before, false) : Parse (List Node × Bool)) else readPiece fuel before) r = _
  split
  · show (Parse.emit [Problem.blockInsideLine.message ⟨r.cursor.position, r.cursor.position⟩] >>=
      fun _ => pure (before, false)) r = _
    exact bind_of_ok (emit_eq h)
  · rfl

/-- In the mended source a line break is passed where a block starts. -/
theorem readInline_mended {rest : List Char} (before : List Node)
    (hs : s.cursor.rest = '\n' :: '[' :: '.' :: rest) :
    Parse.readInline (fuel + 1) before s = .ok ((before, false), s.advance 1) := by
  obtain ⟨⟨source, _, position, inspectors⟩, engine, openGroups, sightings⟩ := s
  cases hs
  rw [Parse.readInline]
  rfl

theorem alike_modifier {m m' : Modifier} (h : Alike m m') :
    Alike (Node.modifier m) (Node.modifier m') := by
  rw [Alike, placeless_modifier, placeless_modifier, h]

/-- What is known of the inline modifiers that a paragraph holds. -/
abbrev ReadsInline (M : Mend) (K : Lasting) (fuel : Nat) : Prop :=
  ∀ fuel', M.InStep K M.Together M.Firm (readModifier fuel .inline) (readModifier fuel' .inline)
    (fun read => M.AtRest read.2) Alike

theorem InStep.readPiece (hmodifier : M.ReadsInline K fuel) (fuel' : Nat)
    (h : Alike nodes nodes') :
    M.InStep K M.Together M.Firm (Mend.readPiece fuel nodes) (Mend.readPiece fuel' nodes')
      (fun read => M.AtRest read.2) Alike := by
  have hinline : M.InStep K M.Together M.Firm (Parse.peek .inlineOpen) (Parse.peek .inlineOpen)
      (fun _ => M.Firm) Eq :=
    .peek (fun _ _ h => h) fun hM _ h => h.isPrefixOf hM.place _
  have hsystem : M.InStep K M.Together M.Firm (Parse.peek .systemOpen) (Parse.peek .systemOpen)
      (fun found w => if found then M.AtLines w else M.Firm w) Eq := by
    refine .peek (fun hM w h => ?_) fun hM _ h => h.isPrefixOf hM.place _
    split at h
    · rename_i hfound
      exact AtLines.firm_of_not_spacing hM.place h
        (@not_spacing_of_mark .systemOpen _ (by decide) hfound)
    · exact h
  have hescape : M.InStep K M.Together M.Firm (Parse.accept .escape) (Parse.accept .escape)
      (fun _ => M.Firm) Eq :=
    .accept (fun _ _ h => h.append _) (fun _ _ h => h) fun hM _ h => h.isPrefixOf hM.place _
  refine .bind_of_refl hinline (fun _ => rfl) fun inline _ heq => ?_
  subst heq
  refine .ite Iff.rfl (fun _ => ?_) fun _ => ?_
  · refine .bind_of_refl (hmodifier fuel') (fun _ => rfl) fun read read' hread => ?_
    obtain ⟨m, m', continues, rfl, rfl, hm⟩ := exists_read hread
    exact .pure (alike_read (alike_cons (alike_modifier hm) h)) fun _ _ hw => hw
  refine .bind_of_refl hsystem (fun _ => rfl) fun system _ heq => ?_
  subst heq
  cases system with
  | true => exact .pure (alike_read h) fun _ _ hw => hw
  | false =>
    refine .bind_of_refl .position (fun _ => trivial) fun start start' _ => ?_
    refine .bind_of_refl hescape (fun _ => rfl) fun escaped _ heq => ?_
    subst heq
    refine .ite Iff.rfl (fun _ => ?_) fun _ => .readCharacter h
    exact .bind_of_refl (.readEscaped start start' h) (fun _ => rfl) fun _ _ hread =>
      .pure (alike_read hread) fun _ _ hw => hw

/-- Where a block starts the gap is not next, unless it is inside the line. -/
theorem Fine.firm_of_block (hblock : Mark.blockOpen.text.toList.isPrefixOf r.cursor.rest = true)
    (h : M.Fine M.AtLines r) : M.Fine M.Firm r := by
  refine ⟨h.clean, h.place.imp_right ?_⟩
  rintro ⟨hM, w, hw, hlines⟩
  refine ⟨hM, w, hw, AtLines.firm_of_not_spacing hM.place hlines ?_⟩
  rw [hw] at hblock
  exact @not_spacing_of_mark .blockOpen _ (by decide) hblock

theorem arises_of_block (hr : M.Inv K r)
    (hblock : Mark.blockOpen.text.toList.isPrefixOf r.cursor.rest = true)
    (h : M.message = Problem.blockInsideLine.message ⟨r.cursor.position, r.cursor.position⟩) :
    M.Arises ∧ M.problem = .blockInsideLine ∧ r.cursor.rest = M.tail .ahead := by
  obtain ⟨hproblem, hstart, hstop, hafter, harises⟩ := of_warning rfl hr (Nat.le_refl _) h
  have hgap : M.gap = [] := List.length_eq_zero_iff.mp (by omega)
  have hrest : r.cursor.rest = M.tail .ahead := by rw [hafter, tail, hgap, List.nil_append]
  refine ⟨⟨harises, ?_⟩, hproblem, hrest⟩
  simp only [Place, hproblem]
  exact ⟨hgap, List.isPrefixOf_iff_prefix.mp (hafter ▸ hblock)⟩

/-- Where nothing but the rest of the source follows the gap, the second run mends it here. -/
theorem At.crosses_block (fuel : Nat) (nodes : List Node) (hat : M.At .ahead r s) (hr : M.Inv K r)
    (hblock : Mark.blockOpen.text.toList.isPrefixOf r.cursor.rest = true)
    (h : M.message = Problem.blockInsideLine.message ⟨r.cursor.position, r.cursor.position⟩) :
    Parse.readInline (fuel + 1) nodes s = .ok ((nodes, false), s.advance 1) ∧
      M.At .behind (Mend.warned .blockInsideLine r.cursor.position r) (s.advance 1) := by
  obtain ⟨hM, hproblem, hrest⟩ := arises_of_block hr hblock h
  obtain ⟨rest, htail, htail'⟩ := tail_of_blockInsideLine hM.place hproblem
  have hs : s.cursor.rest = M.tail' .ahead := (@At.passed M r s [] [] hat hrest).1
  obtain ⟨-, -, -, hafter, -⟩ := of_warning rfl hr (Nat.le_refl _) h
  refine ⟨readInline_mended nodes (hs.trans htail'), hat.crossed (m := 0) (n := 1) hafter ?_ h⟩
  show s.cursor.rest.drop 1 = _
  rw [hs, htail', ← hafter, hrest, htail]
  rfl

/-- **A piece of a paragraph is read in step.**  Where a block starts inside the line, and the
message is about it, the second run passes the line break that was put there. -/
theorem InStep.readInline (hmodifier : M.ReadsInline K fuel) (fuel' : Nat)
    (h : Alike nodes nodes') :
    M.InStep K M.Together M.AtPiece (Parse.readInline (fuel + 1) nodes)
      (Parse.readInline fuel' nodes') (fun read => M.AtRest read.2) Alike := by
  have hpiece := fun fuel' => InStep.readPiece hmodifier fuel' h
  refine .of_succ (y := fun fuel' => Parse.readInline fuel' nodes') rfl (fun fuel' => ?_) fuel'
  constructor
  · intro r a r' hr hrun
    rw [readInline_eq _ _ hr.referring] at hrun
    split at hrun
    · rename_i hblock
      cases hrun
      refine ⟨hr.warned, fun hfine => ?_⟩
      rcases hfine.of_warned with hfine | ⟨hclean, hmessage⟩
      · exact (hfine.firm_of_block hblock).mono fun _ _ => .inl
      · obtain ⟨hM, hproblem, hrest⟩ := arises_of_block hr hblock hmessage
        exact ⟨hclean, .inr ⟨hM, [], hrest, .inr ⟨hproblem, rfl⟩⟩⟩
    · obtain ⟨hr', hback⟩ := (hpiece 0).back r a r' hr hrun
      exact ⟨hr', fun hfine => (hback hfine).mono fun _ _ => .inl⟩
  · rintro r a r' s hr hrun hfine ⟨φ, hφ, hat⟩
    rw [readInline_eq _ _ hr.referring] at hrun
    -- where the gap is not next, a block starts in both sources or in none
    have hsame : M.Fine M.Firm r → Mark.blockOpen.text.toList.isPrefixOf s.cursor.rest
        = Mark.blockOpen.text.toList.isPrefixOf r.cursor.rest := by
      intro hfirm
      cases φ with
      | behind => rw [(hat.advanced_behind 0).1]
      | ahead =>
        obtain ⟨hM, w, hw, hQ⟩ := hfirm.place.resolve_left hat.messages.2
        rw [(@At.passed M r s [] w hat hw).1, hw]
        exact hQ.isPrefixOf hM.place _
    split at hrun
    · rename_i hblock
      cases hrun
      by_cases hcross : φ = .ahead ∧ M.message
          = Problem.blockInsideLine.message ⟨r.cursor.position, r.cursor.position⟩
      · obtain ⟨rfl, hmessage⟩ := hcross
        obtain ⟨hrun', hat'⟩ := hat.crosses_block fuel' nodes' hr hblock hmessage
        rw [Ensures, hrun']
        exact ⟨alike_read h, .behind, trivial, hat'⟩
      · have hagain : Mark.blockOpen.text.toList.isPrefixOf s.cursor.rest = true := by
          cases φ with
          | behind => rw [(hat.advanced_behind 0).1, hblock]
          | ahead =>
            have hother := hfine.of_warned.resolve_right fun hmessage => hcross ⟨rfl, hmessage.2⟩
            rw [hsame (hother.firm_of_block hblock), hblock]
        rw [Ensures, readInline_eq _ _ (hat.referring hr), if_pos hagain]
        exact ⟨alike_read h, φ, trivial, hat.warned fun hφ hmessage => hcross ⟨hφ, hmessage⟩⟩
    · rename_i hnot
      have hfirm := ((hpiece 0).back r a r' hr hrun).2 hfine
      rw [Ensures, readInline_eq _ _ (hat.referring hr), hsame hfirm, if_neg hnot]
      exact (hpiece fuel').same r a r' s hr hrun hfine ⟨φ, hφ, hat⟩

end Pieces

/-! ### Raw text -/

section Raw

def rawText (grouped : Bool) : Parse RawText := do
  let raw := RawText.ofChars grouped (← get).cursor.rest
  moveCursor fun cursor => cursor.advance raw.length
  return raw

/-- **Raw text before the gap is the same in both sources**, as it ends with a line break or with
the mark that closes a group. -/
theorem InStep.rawText (grouped : Bool) :
    M.InStep K M.Together M.Firm (Mend.rawText grouped) (Mend.rawText grouped)
      (fun _ => M.AtLines) Eq := by
  have hscan : M.Place → ∀ passed w,
      (RawText.ofChars grouped (passed ++ (w ++ M.tail .ahead))).length = passed.length →
      M.AtLines w →
      RawText.ofChars grouped (passed ++ (w ++ M.tail' .ahead))
          = RawText.ofChars grouped (passed ++ (w ++ M.tail .ahead)) ∧
        (['\n'] <:+ passed ∨ ['-', '-', ':'] <:+ passed) := by
    intro hM passed w hlength h
    refine RawText.scan_append (AtLines.append_tail_ne_nil hM h) passed "" 0 none ?_
    rw [RawText.kept, Option.getD_none, String.toList_empty, List.length_nil, Nat.zero_add]
    exact hlength
  refine .scan (RawText.ofChars grouped) (fun rest => (RawText.ofChars grouped rest).length)
    (fun _ => rfl) (fun rest => (RawText.ofChars_reads grouped rest).2.2) ?_ ?_
  · intro hM passed w hlength h
    obtain ⟨-, hend⟩ := hscan hM.place passed w hlength h
    rcases h with h | ⟨hproblem, rfl⟩
    · exact h.append passed
    · simp only [Firm, hproblem, List.append_nil]
      exact .inr hend
  · intro hM passed w hlength h
    obtain ⟨hsame, -⟩ := hscan hM.place passed w hlength h
    exact ⟨hsame, by rw [hsame]; exact hlength⟩

def rawNode (start contentStart : Nat) (grouped : Bool) (raw : RawText) : Parse Node := do
  leaveRaw grouped raw
  if raw.unclosed then emit [Problem.expectedAt (← position) Mark.groupClose.text]
  let span ← spanFrom start
  let contentSpan ← Span.checked contentStart (contentStart + raw.contentLength)
  return .preformatted span contentSpan raw.text

theorem readRaw_eq (start : Nat) (grouped : Bool) : Parse.readRaw start grouped =
    position >>= fun contentStart =>
      Mend.rawText grouped >>= rawNode start contentStart grouped := rfl

theorem InStep.rawNode (start start' contentStart contentStart' : Nat) (grouped : Bool)
    (raw : RawText) :
    M.InStep K M.Together M.AtLines (Mend.rawNode start contentStart grouped raw)
      (Mend.rawNode start' contentStart' grouped raw) (fun _ => M.AtLines) Alike := by
  have hleave : M.InStep K M.Together M.AtLines (leaveRaw grouped raw) (leaveRaw grouped raw)
      (fun _ => M.AtLines) fun _ _ => True :=
    .ite Iff.rfl (fun _ => .leave _) fun _ => .pure trivial fun _ _ h => h
  refine .bind_of_refl hleave (fun _ => trivial) fun _ _ _ => ?_
  have hnode : M.InStep K M.Together M.AtLines
      (do
        let span ← Parse.spanFrom start
        let contentSpan ← Span.checked contentStart (contentStart + raw.contentLength)
        return Node.preformatted span contentSpan raw.text)
      (do
        let span ← Parse.spanFrom start'
        let contentSpan ← Span.checked contentStart' (contentStart' + raw.contentLength)
        return Node.preformatted span contentSpan raw.text) (fun _ => M.AtLines) Alike := by
    refine .bind_of_refl (.spanFrom _ _) (fun _ => rfl) fun _ _ _ => ?_
    refine .bind_of_refl (.checked _ _ _ _) (fun _ => rfl) fun _ _ _ => ?_
    exact .pure rfl fun _ _ h => h
  obtain ⟨text, contentLength, length, unclosed⟩ := raw
  cases unclosed with
  | false => exact hnode
  | true =>
    refine .bind_of_refl .position (fun _ => trivial) fun _ _ _ => ?_
    exact .bind_of_refl (R := Eq) .expected (fun _ => rfl) fun _ _ _ => hnode

theorem InStep.readPreformatted :
    M.InStep K M.Together M.Firm Parse.readPreformatted Parse.readPreformatted
      (fun _ => M.AtLines) Alike := by
  have hgroup : M.InStep K M.Together M.Firm (Parse.accept .groupOpen) (Parse.accept .groupOpen)
      (fun grouped w => if grouped then M.AtLineEnd w else M.Firm w) Eq :=
    .accept (fun _ _ h => AtLineEnd.firm_groupOpen h) (fun _ _ h => h)
      fun hM _ h => h.isPrefixOf hM.place _
  have hraw : ∀ start start' grouped, M.InStep K M.Together M.Firm (Parse.readRaw start grouped)
      (Parse.readRaw start' grouped) (fun _ => M.AtLines) Alike := by
    intro start start' grouped
    rw [readRaw_eq, readRaw_eq]
    refine .bind_of_refl .position (fun _ => trivial) fun _ _ _ => ?_
    refine .bind_of_refl (.rawText grouped) (fun _ => rfl) fun raw _ hsame => ?_
    subst hsame
    exact .rawNode _ _ _ _ grouped raw
  refine .bind_of_refl .position (fun _ => trivial) fun start start' _ => ?_
  refine .bind_of_refl hgroup (fun _ => rfl) fun grouped _ hsame => ?_
  subst hsame
  cases grouped with
  | false => exact hraw start start' false
  | true =>
    refine .bind_of_refl (.mono .endLine (fun _ _ h => h) fun _ _ _ h => .inl h) (fun _ => rfl)
      fun _ _ _ => ?_
    exact .bind_of_refl (.enter .raw) (fun _ => trivial) fun _ _ _ => hraw start start' true

end Raw

end Mend

end MacroMarkup
