import MacroMarkup.Parser.Document
import MacroMarkup.Proofs.Mirror

/-!
# The seam of a mended source

The fix of a warning about the layout replaces the text that the warning is about: line breaks by
nothing, nothing by a line break.  A reader before this gap looks ahead, so what it does could
depend on what is in the gap.  It does not as long as the text before the gap cannot be continued
to a mark.

* `Mend`: a source and a message that is mended in it.
* `Mend.Place`, `Mend.Arises`: what the message says about the text around the gap.
* `Mend.Firm`: text before the gap that no mark goes on behind.
* `Mend.AtLines`, `Mend.AtPiece`, `Mend.AtLineEnd`: where lines may be passed, a piece of text may
  start and a line may end, if the text before the gap may also be used up.
* `Mend.Firm.isPrefixOf`: **a mark stands before the gap if and only if it stands there in the
  mended source.**
* `isPrefixOf_name_append`, `unknownHead_append`: names that are read before the gap.
-/

namespace MacroMarkup

/-- A place in a source where a warning about the layout is mended: the text in the gap, which is
what the message is about, is replaced. -/
structure Mend where
  source : List Char
  problem : Problem
  message : Message
  layout : problem.isLayout = true
  severity : message.severity = .warning
  code : message.code = problem.code

namespace Mend

variable {M : Mend} {w passed : List Char}

def before (M : Mend) : List Char := M.source.take M.message.position

/-- The text that the message is about. -/
def gap (M : Mend) : List Char := (M.source.drop M.message.position).take M.message.length

def after (M : Mend) : List Char := (M.source.drop M.message.position).drop M.message.length

theorem source_eq (M : Mend) : M.source = M.before ++ (M.gap ++ M.after) := by
  rw [gap, after, List.take_append_drop, before, List.take_append_drop]

/-- What is put into the gap. -/
def fill (M : Mend) : List Char := if M.problem = .redundantNewlines then [] else ['\n']

theorem isLayout_message (M : Mend) : M.message.isLayout = true := by
  have hlayout := M.layout
  rw [Message.isLayout, M.severity, M.code]
  cases hproblem : M.problem <;> rw [hproblem] at hlayout <;> first | rfl | cases hlayout

def mended (M : Mend) : List Char := M.before ++ (M.fill ++ M.after)

def Place (M : Mend) : Prop :=
  match M.problem with
  | .redundantNewlines => M.gap ≠ [] ∧ (∀ c ∈ M.gap, isSpacing c = true) ∧
    ∀ c, M.after.head? = some c → isSpacing c = false
  | .blockInsideLine => M.gap = [] ∧ ['[', '.'] <+: M.after
  | .groupContentInsideLine => M.gap = [] ∧ ∀ c, M.after.head? = some c → isSpacing c = false
  | _ => False

/-- The message reports the problem there. -/
structure Arises (M : Mend) : Prop where
  message : M.message = M.problem.message ⟨M.before.length, M.before.length + M.gap.length⟩
  place : M.Place

/-- No mark that is looked for in this text goes on in the gap. -/
def Firm (M : Mend) (w : List Char) : Prop :=
  match M.problem with
  | .redundantNewlines => [']'] <:+ w ∨ ['\n'] <:+ w ∨ ['-', '-', ':'] <:+ w
  | .blockInsideLine => w ≠ []
  | _ => ∃ blanks, (∀ c ∈ blanks, isBlank c = true) ∧ ':' :: '-' :: '-' :: blanks <:+ w

theorem Firm.append (h : M.Firm w) (passed : List Char) : M.Firm (passed ++ w) := by
  have happend : ∀ {end' : List Char}, end' <:+ w → end' <:+ passed ++ w :=
    fun h => h.trans (List.suffix_append _ _)
  unfold Firm at h ⊢
  split at h
  · exact h.imp happend (Or.imp happend happend)
  · simp [h]
  · obtain ⟨blanks, hblanks, hend⟩ := h
    exact ⟨blanks, hblanks, happend hend⟩

theorem Firm.ne_nil (h : M.Firm w) : w ≠ [] := by
  rintro rfl
  unfold Firm at h
  split at h
  · simp at h
  · exact h rfl
  · simp at h

/-- Lines may be passed here: all of the text, or all but the line breaks in the gap, was read. -/
def AtLines (M : Mend) (w : List Char) : Prop := M.Firm w ∨ M.problem = .redundantNewlines ∧ w = []

def AtPiece (M : Mend) (w : List Char) : Prop := M.Firm w ∨ M.problem = .blockInsideLine ∧ w = []

def AtLineEnd (M : Mend) (w : List Char) : Prop :=
  M.Firm w ∨ M.problem = .groupContentInsideLine ∧ ∀ c ∈ w, isBlank c = true

def AtBody (M : Mend) (w : List Char) : Prop := M.AtLines w ∨ M.AtPiece w

theorem AtBody.firm_headClose (h : M.AtBody w) : M.Firm (']' :: w) := by
  rcases h with (h | ⟨hproblem, rfl⟩) | h | ⟨hproblem, rfl⟩
  · exact h.append [_]
  · simp [Firm, hproblem]
  · exact h.append [_]
  · simp [Firm, hproblem]

theorem AtLineEnd.firm_groupOpen (h : M.AtLineEnd w) : M.Firm (':' :: '-' :: '-' :: w) := by
  rcases h with h | ⟨hproblem, hall⟩
  · exact h.append [':', '-', '-']
  · simp only [Firm, hproblem]
    exact ⟨w, hall, List.suffix_refl _⟩

/-- A literal that does not go on behind a text is looked for in that text. -/
theorem isPrefixOf_append {literal w : List Char} (h : w <+: literal → w = literal)
    (t : List Char) : literal.isPrefixOf (w ++ t) = literal.isPrefixOf w := by
  rw [Bool.eq_iff_iff, List.isPrefixOf_iff_prefix, List.isPrefixOf_iff_prefix]
  constructor
  · intro hahead
    rcases List.prefix_or_prefix_of_prefix hahead (List.prefix_append w t) with h' | h'
    · exact h'
    · exact (h h') ▸ List.prefix_refl _
  · exact fun hahead => hahead.trans (List.prefix_append w t)

/-- A firm text does not end inside a mark. -/
theorem Firm.eq_of_prefix {mark : Mark} (h : M.Firm w)
    (hproblem : M.problem ≠ .blockInsideLine) (hahead : w <+: mark.text.toList) :
    w = mark.text.toList := by
  have hends : ∀ mark : Mark, ∀ n < mark.text.toList.length,
      ¬ ([']'] <:+ mark.text.toList.take n ∨ ['\n'] <:+ mark.text.toList.take n ∨
        ['-', '-', ':'] <:+ mark.text.toList.take n) := by
    intro mark
    cases mark <;> decide
  have hshort : ∀ mark : Mark, mark.text.toList.length ≤ 3 := by
    intro mark
    cases mark <;> decide
  refine hahead.eq_of_length_le (Nat.le_of_not_lt fun hlt => ?_)
  unfold Firm at h
  split at h
  · rw [List.prefix_iff_eq_take.mp hahead] at h
    exact hends mark _ hlt h
  · exact hproblem (by assumption)
  · obtain ⟨blanks, -, hend⟩ := h
    have hle := hend.length_le
    have := hshort mark
    simp only [List.length_cons] at hle
    omega

theorem not_prefix_mark {mark : Mark} {c : Char} (hw : w ≠ []) (hc : c = '[' ∨ c = '\n') :
    ¬ w ++ [c] <+: mark.text.toList := by
  have hinside : mark.text.toList.tail.all (fun c => c != '[' && c != '\n') = true := by
    cases mark <;> decide
  rw [List.all_eq_true] at hinside
  intro hahead
  obtain ⟨d, w, rfl⟩ := List.exists_cons_of_ne_nil hw
  obtain ⟨t, ht⟩ := hahead
  have hmem : c ∈ mark.text.toList.tail := by
    rw [← ht, List.cons_append, List.cons_append, List.tail_cons]
    exact List.mem_append_left t (List.mem_append_right w List.mem_cons_self)
  have hother := hinside c hmem
  rcases hc with rfl | rfl
  · exact absurd hother (by decide)
  · exact absurd hother (by decide)

theorem isPrefixOf_mark_append {mark : Mark} {c : Char} (hw : w ≠ []) (hc : c = '[' ∨ c = '\n')
    (t : List Char) :
    mark.text.toList.isPrefixOf (w ++ c :: t) = mark.text.toList.isPrefixOf w := by
  rw [List.append_cons, isPrefixOf_append fun h => absurd h (not_prefix_mark hw hc),
    Bool.eq_iff_iff, List.isPrefixOf_iff_prefix, List.isPrefixOf_iff_prefix,
    List.prefix_concat_iff]
  exact or_iff_right fun heq => @not_prefix_mark _ mark _ hw hc (heq ▸ List.prefix_refl _)

/-- **A mark stands before the gap if and only if it stands there in the mended source.** -/
theorem Firm.isPrefixOf (hM : M.Place) (h : M.Firm w) (mark : Mark) :
    mark.text.toList.isPrefixOf (w ++ (M.fill ++ M.after))
      = mark.text.toList.isPrefixOf (w ++ (M.gap ++ M.after)) := by
  by_cases hproblem : M.problem = .blockInsideLine
  · have hw := h.ne_nil
    simp only [Place, hproblem] at hM
    obtain ⟨hgap, rest, hafter⟩ := hM
    have hfill : M.fill = ['\n'] := by simp [fill, hproblem]
    rw [hgap, hfill, ← hafter]
    exact (isPrefixOf_mark_append hw (.inr rfl) _).trans
      (isPrefixOf_mark_append hw (.inl rfl) _).symm
  · rw [isPrefixOf_append (h.eq_of_prefix hproblem), isPrefixOf_append (h.eq_of_prefix hproblem)]

end Mend

/-! ### Names before the gap -/

theorem isPrefixOf_name_append {name : String} {w : List Char} (hw : ']' ∈ w)
    (hname : ']' ∉ name.toList) (t : List Char) :
    name.toList.isPrefixOf (w ++ t) = name.toList.isPrefixOf w :=
  Mend.isPrefixOf_append (fun hahead => absurd (hahead.subset hw) hname) t

theorem unknownHead_cons {c : Char} (hescape : c ≠ '\\') (rest : List Char) :
    unknownHead (c :: rest) = if isBlank c then ([], 1)
      else if c = ']' || c = ';' then ([], 0)
      else (c :: (unknownHead rest).1, (unknownHead rest).2 + 1) := by
  rw [unknownHead]
  · exact fun h _ => hescape h
  · exact fun _ _ h _ => hescape h

/-- The name of an unknown modifier that ends in a text depends on that text only. -/
theorem unknownHead_append {w t t' : List Char} (h : (unknownHead (w ++ t)).2 < w.length) :
    unknownHead (w ++ t') = unknownHead (w ++ t) := by
  induction w using unknownHead.induct with
  | case1 => simp at h
  | case2 => cases t <;> simp [unknownHead] at h
  | case3 c rest name count hrest ih =>
    simp only [List.cons_append, unknownHead, List.length_cons] at h ⊢
    rw [ih (by omega)]
  | case4 c rest hlast hnext hblank =>
    have hescape : c ≠ '\\' := fun hc => by
      cases rest with
      | nil => exact hlast hc rfl
      | cons d rest => exact hnext d rest hc rfl
    simp only [List.cons_append, unknownHead_cons hescape, if_pos hblank]
  | case5 c rest hlast hnext hblank hend =>
    have hescape : c ≠ '\\' := fun hc => by
      cases rest with
      | nil => exact hlast hc rfl
      | cons d rest => exact hnext d rest hc rfl
    simp only [List.cons_append, unknownHead_cons hescape, if_pos hend]
  | case6 c rest hlast hnext hblank hend name count hrest ih =>
    have hescape : c ≠ '\\' := fun hc => by
      cases rest with
      | nil => exact hlast hc rfl
      | cons d rest => exact hnext d rest hc rfl
    simp only [List.cons_append, unknownHead_cons hescape, if_neg hblank, if_neg hend,
      List.length_cons] at h ⊢
    rw [ih (by omega)]

end MacroMarkup
