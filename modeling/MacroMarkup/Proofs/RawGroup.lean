import Mathlib.Data.List.Infix
import MacroMarkup.Proofs.Asking
import MacroMarkup.Proofs.Fresh

/-!
# Raw groups

A group of raw text holds whatever stands between the line that opens it and the mark that closes
it.  The scan keeps each line break and the blanks behind it back until it knows whether they
belong to the text, so a text is read as it is if no line of it starts, behind blanks, with the
mark.

* `RawText.ClosesEarly`: a line of the text starts with the mark that closes a group.
* `RawText.scan_group`: the scan of a text in a group, by induction on the text.
* `stands_readPreformatted_group`: a group of raw text is read as it is.
* `parse_raw_group`: **raw groups hold any text** in which no line closes them.
-/

namespace MacroMarkup

namespace RawText

/-- A line behind the first one starts, behind blanks, with the mark that closes a group. -/
def ClosesEarly (text : List Char) : Prop :=
  ∃ before blanks behind, text = before ++ '\n' :: (blanks ++ (['-', '-', ':'] ++ behind)) ∧
    ∀ c ∈ blanks, isBlank c = true

theorem ClosesEarly.behind {text : List Char} (h : ClosesEarly text) (before : List Char) :
    ClosesEarly (before ++ text) := by
  obtain ⟨others, blanks, behind, rfl, hblanks⟩ := h
  exact ⟨before ++ others, blanks, behind, by simp, hblanks⟩

/-- To find such a line one looks at the text behind each line break. -/
theorem closesEarly_iff (text : List Char) : ClosesEarly text ↔ ∃ line ∈ text.tails,
    line.head? = some '\n' ∧ ['-', '-', ':'] <+: line.tail.dropWhile isBlank := by
  constructor
  · rintro ⟨before, blanks, behind, rfl, hblanks⟩
    refine ⟨_, (List.mem_tails _ _).mpr ⟨before, rfl⟩, rfl, behind, ?_⟩
    rw [List.tail_cons, List.dropWhile_append_of_pos hblanks]
    rfl
  · rintro ⟨line, hline, hbreak, behind, hbehind⟩
    obtain ⟨before, rfl⟩ := (List.mem_tails _ _).mp hline
    obtain ⟨rest, rfl⟩ := List.head?_eq_some_iff.mp hbreak
    refine ⟨before, rest.takeWhile isBlank, behind, ?_, fun c hc => List.mem_takeWhile_imp hc⟩
    rw [hbehind, List.tail_cons, List.takeWhile_append_dropWhile]

instance : DecidablePred ClosesEarly := fun text => decidable_of_iff' _ (closesEarly_iff text)

/-- What is kept back: a line break, and blanks behind it. -/
def IsGap (gap : Option String) : Prop :=
  ∀ white, gap = some white →
    ∃ blanks, white.toList = '\n' :: blanks ∧ ∀ c ∈ blanks, isBlank c = true

theorem isGap_none : IsGap none := fun _ h => by cases h

theorem isGap_line : IsGap (some "\n") := by
  rintro _ ⟨⟩
  exact ⟨[], rfl, List.forall_mem_nil _⟩

theorem IsGap.push {white : String} (h : IsGap (some white)) {c : Char} (hc : isBlank c = true) :
    IsGap (some (white.push c)) := by
  rintro _ ⟨⟩
  obtain ⟨blanks, hwhite, hblanks⟩ := h white rfl
  refine ⟨blanks ++ [c], by simp [hwhite], fun x hx => ?_⟩
  rcases List.mem_append.mp hx with hx | hx
  · exact hblanks x hx
  · rwa [List.mem_singleton.mp hx]

theorem not_isPrefixOf_of_not_closesEarly {white : String} {rest : List Char}
    (hgap : IsGap (some white)) (h : ¬ ClosesEarly (white.toList ++ rest)) :
    ['-', '-', ':'].isPrefixOf (rest ++ ['\n', '-', '-', ':']) = false := by
  refine Bool.eq_false_iff.mpr fun hmark => h ?_
  have hline : ∀ c, ['\n', '-', '-', ':'].head? = some c → c = '\n' :=
    fun c hc => (Option.some.inj hc).symm
  have hprefix : ['-', '-', ':'] <+: rest :=
    prefix_of_prefix_line (by decide) hline (List.isPrefixOf_iff_prefix.mp hmark)
  obtain ⟨behind, rfl⟩ := hprefix
  obtain ⟨blanks, hwhite, hblanks⟩ := hgap white rfl
  exact ⟨[], blanks, behind, by simp [hwhite], hblanks⟩

/-- **The scan of a text in a group**: it ends where the mark stands behind the text, and the text
and what was kept back before it are read as they are. -/
theorem scan_group (text : List Char) : ∀ (before : String) (count : Nat) (gap : Option String),
    IsGap gap → ¬ ClosesEarly (kept gap ++ text) →
    scan true before count gap (text ++ ['\n', '-', '-', ':']) =
      ⟨String.ofList (before.toList ++ (kept gap ++ text)), count + (kept gap ++ text).length,
        count + (kept gap ++ text).length + 4, false⟩ := by
  induction text with
  | nil =>
    intro before count gap hgap h
    cases gap with
    | none => simp [scan, kept, isBlank]
    | some white => simp [scan, kept, isBlank]
  | cons c rest ih =>
    intro before count gap hgap h
    cases gap with
    | none =>
      by_cases hc : c = '\n'
      · subst hc
        have hline := ih before count (some "\n") isGap_line h
        rwa [List.cons_append, scan, if_pos rfl]
      · have hplain := ih (before.push c) (count + 1) none isGap_none fun hearly =>
          h (hearly.behind [c])
        rw [List.cons_append, scan_plain hc, hplain]
        simp [kept]
        omega
    | some white =>
      have hmark := not_isPrefixOf_of_not_closesEarly hgap h
      rw [List.cons_append] at hmark ⊢
      simp only [scan, hmark, Bool.and_false, Bool.false_eq_true, if_false, Bool.not_true,
        Bool.false_and]
      by_cases hblank : isBlank c = true
      · have hlonger := ih before count (some (white.push c)) (hgap.push hblank) (by
          simpa [kept] using h)
        rw [if_pos hblank, hlonger]
        simp [kept]
      rw [if_neg hblank]
      by_cases hc : c = '\n'
      · subst hc
        have hline := ih (before ++ white) (count + white.toList.length) (some "\n") isGap_line
          fun hearly => h (hearly.behind _)
        rw [if_pos rfl, hline]
        simp [kept]
        omega
      · have hplain := ih ((before ++ white).push c) (count + white.toList.length + 1) none
          isGap_none fun hearly => h ((hearly.behind [c]).behind _)
        rw [if_neg hc, hplain]
        simp [kept]
        omega

theorem ofChars_group {text : List Char} (h : ¬ ClosesEarly text) :
    ofChars true (text ++ ['\n', '-', '-', ':'])
      = ⟨String.ofList text, text.length, text.length + 4, false⟩ := by
  simpa [ofChars, kept] using scan_group text "" 0 none isGap_none h

end RawText

/-! ### Reading -/

def Builtin.raw : Definition := { modifier "raw" .block .preformatted .raw with stamp := 5 }

theorem Builtin.isWhole_raw (span : Span) :
    Parse.Head.isWhole ⟨.ofHead raw span [], false⟩ = false := rfl

theorem Builtin.findLongest?_raw (text : List Char) :
    configuration.blocks.findLongest?
      (fun name => name.toList.isPrefixOf (raw.name.toList ++ ']' :: text)) = some raw := rfl

section Reading

open Parse

variable {e : Engine} {r : Reader} {position : Nat} {text : List Char}

theorem stands_readPreformatted_group (htext : ¬ RawText.ClosesEarly text)
    (h : r.StandsAt e position (':' :: '-' :: '-' :: '\n' :: (text ++ ['\n', '-', '-', ':']))) :
    Ensures noFault readPreformatted r fun node r' =>
      (∃ span contentSpan, node = .preformatted span contentSpan (String.ofList text)) ∧
        ∃ stop, position ≤ stop ∧ r'.StandsAt e stop [] := by
  have hlength : (text ++ ['\n', '-', '-', ':']).length = text.length + 4 := List.length_append
  simp only [readPreformatted, ensures_bind, ensures_position, h.position]
  refine (stands_accept .groupOpen h).mono ?_
  rintro _ r₁ ⟨rfl, h₁⟩
  rw [if_pos rfl]
  simp only [endLine, ensures_bind, ensures_enter]
  have hskip : r₁.StandsAt e _ ([] ++ '\n' :: (text ++ ['\n', '-', '-', ':'])) := h₁
  refine (stands_skipWhile hskip (List.forall_mem_nil _) fun c hc => ?_).mono fun _ r₂ h₂ => ?_
  · rw [← Option.some.inj hc]
    decide
  refine (stands_accept .newline h₂).mono ?_
  rintro _ r₃ ⟨rfl, h₃⟩
  rw [if_neg (by decide)]
  -- behind the opening line
  have hopen : (r₃.enter .raw).StandsAt e (position + 4)
      ((text ++ ['\n', '-', '-', ':']) ++ []) := by
    rw [List.append_nil]
    exact h₃.enter .raw
  have hclosed := hopen.advance.leave (RawText.closed ⟨String.ofList text, text.length,
    text.length + 4, false⟩)
  rw [hlength] at hclosed
  simp only [ensures_pure, readRaw, ensures_bind, ensures_position, ensures_get, hopen.rest,
    hopen.position, List.append_nil, RawText.ofChars_group htext, moveCursor, ensures_modify,
    leaveRaw, if_true, ensures_leave, Bool.false_eq_true, if_false]
  refine (stands_spanFrom hclosed (by omega)).mono ?_
  rintro _ _ ⟨rfl, rfl⟩
  refine ensures_checked (Nat.le_add_right _ _) ?_
  exact ⟨⟨_, _, rfl⟩, _, by omega, hclosed⟩

theorem expandRead_raw (levels : Nat) (span head : Span) (arguments : List Argument)
    (inside contentSpan : Span) (text : String) (hnow : e.delayDepth = 0) :
    let m : Modifier :=
      ⟨span, head, Builtin.raw, arguments, [.preformatted inside contentSpan text], none⟩
    expandRead (process (levels + 1)) m Builtin.raw.behaviour.lifecycle.idle e
      = .ok (({ m with expansion := some m.content }, true), e) := by
  obtain ⟨context, emitted, referring, delayDepth, refusals, losses, anticipations⟩ := e
  obtain rfl : delayDepth = 0 := hnow
  rfl

theorem Builtin.named_blocks : configuration.blocks.All fun d => Named.name d ≠ "" := by
  have hnames : ∀ d ∈ definitions, d.name ≠ "" := by decide
  exact (all_configuration fun d hd _ => hnames d hd).blocks

theorem stands_readBody_raw {fuel : Nat} {span : Span} (htext : ¬ RawText.ClosesEarly text)
    (h : r.StandsAt e position
      ('\n' :: ':' :: '-' :: '-' :: '\n' :: (text ++ ['\n', '-', '-', ':']))) :
    Ensures noFault (readBody (fuel + 1) .block ⟨.ofHead Builtin.raw span [], false⟩) r
      fun body r' => (∃ inside contentSpan,
        body = ([.preformatted inside contentSpan (String.ofList text)], true)) ∧
        ∃ stop, position ≤ stop ∧ r'.StandsAt e stop [] := by
  have hopens : r.StandsAt e position
      (['\n'] ++ (':' :: '-' :: '-' :: '\n' :: (text ++ ['\n', '-', '-', ':']))) := h
  have hslot : (Modifier.ofHead Builtin.raw span []).definition.slot = .preformatted := rfl
  simp only [readBody, Builtin.isWhole_raw, hslot, reduceCtorEq, Bool.false_eq_true, if_false,
    if_true, ensures_bind]
  refine (stands_skipLines hopens (List.forall_mem_singleton.mpr rfl) fun c hc => ?_).mono
    fun _ r₁ h₁ => ?_
  · rw [← Option.some.inj hc]
    rfl
  refine stands_isAtEnd h₁ ?_
  rw [List.isEmpty_cons, if_neg Bool.false_ne_true, ensures_bind]
  refine (stands_readPreformatted_group htext h₁).mono ?_
  rintro _ r₂ ⟨⟨inside, contentSpan, rfl⟩, stop, hle, h₂⟩
  exact ⟨⟨inside, contentSpan, rfl⟩, stop, Nat.le_of_add_right_le hle, h₂⟩

/-- **A raw group is read as it is**, and stands for one preformatted node. -/
theorem stands_readBlock_raw (fuel : Nat) (hnow : e.delayDepth = 0)
    (hblocks : e.context.configuration.blocks = Builtin.configuration.blocks)
    (htext : ¬ RawText.ClosesEarly text)
    (h : r.StandsAt e position ("[.raw]\n:--\n".toList ++ (text ++ ['\n', '-', '-', ':']))) :
    Ensures noFault (readBlock (fuel + 3)) r fun nodes r' =>
      r'.cursor.rest = [] ∧ r'.engine = e ∧ ∃ span contentSpan,
        stripNodes nodes = [.preformatted span contentSpan (String.ofList text)] := by
  refine stands_readBlock_modifier .block (by decide) h fun r₁ h₁ => ?_
  refine stands_readModifier (d := Builtin.raw) ⟨fun _ _ => rfl, fun _ => rfl⟩ ?_
  let body := '\n' :: ':' :: '-' :: '-' :: '\n' :: (text ++ ['\n', '-', '-', ':'])
  have hhead : r₁.StandsAt e position (ModifierKind.block.opening.text.toList ++
      (Builtin.raw.name.toList ++ (headEnding false ++ body))) := h₁
  have hnamed : (e.context.configuration.modifiers .block).All fun d => Named.name d ≠ "" := by
    show e.context.configuration.blocks.All _
    rw [hblocks]
    exact Builtin.named_blocks
  have hfound : ∀ text, (e.context.configuration.modifiers .block).findLongest?
      (fun name => name.toList.isPrefixOf (Builtin.raw.name.toList ++ (headEnding false ++ text)))
        = some Builtin.raw := by
    intro text
    show e.context.configuration.blocks.findLongest? _ = _
    rw [hblocks]
    exact Builtin.findLongest?_raw text
  have hargs : ∀ position r', Reader.StandsAt r' e position (headEnding false ++ body) →
      Ensures noFault readArguments r' fun arguments r'' => arguments = [] ∧
        ∃ stop, position ≤ stop ∧ r''.StandsAt e stop (headEnding false ++ body) := by
    intro position r' h'
    refine (stands_readArguments_none (.inr rfl) h').mono ?_
    rintro _ r'' ⟨rfl, h''⟩
    exact ⟨rfl, position, Nat.le_refl _, h''⟩
  have hvalues : ∀ arguments, arguments = [] →
      Ensures noFault (expandArguments arguments) e fun arguments' e' =>
        e' = e ∧ arguments' = [] := by
    rintro _ rfl
    exact ⟨rfl, rfl⟩
  refine (stands_readHead hnamed (by decide) (hfound _) hargs hvalues hhead).mono ?_
  rintro _ r₂ ⟨stop, _, hle, h₂, rfl, rfl⟩
  refine ⟨_, _, _, rfl, ?_⟩
  refine (stands_readBody_raw (r := r₂.inBody Builtin.raw) htext h₂).mono ?_
  rintro _ r₃ ⟨⟨inside, contentSpan, rfl⟩, behind, hle', h₃⟩
  rw [wholeSpan, Builtin.isWhole_raw, if_neg Bool.false_ne_true]
  refine (stands_spanFrom h₃ (Nat.le_trans hle hle')).mono ?_
  rintro _ r₄ ⟨rfl, rfl⟩
  have hengine : (r₄.behindBody Builtin.raw).engine = e := h₃.engine
  obtain ⟨levels, hlevels⟩ : ∃ levels, r₄.engine.levels = levels + 1 := ⟨_, rfl⟩
  rw [hengine, hlevels]
  refine (ensures_of_eq (expandRead_raw levels _ _ [] inside contentSpan _ hnow)).mpr ?_
  refine ⟨h₃.rest, rfl, inside, contentSpan, ?_⟩
  rw [stripNodes, stripNode_replaced (fun hkind => by cases hkind)]
  simp [stripNodes, stripNode]

end Reading

/-- **A raw group holds any text** in which no line break has blanks and the mark that closes a
group behind it.  With the blocks of the language, the text in a group of `[.raw]` is read without
messages, and what is left of the document is one preformatted node with just that text. -/
theorem parse_raw_group (cx : Context) (text : String)
    (hblocks : cx.configuration.blocks = Builtin.configuration.blocks)
    (htext : ¬ RawText.ClosesEarly text.toList) :
    ∃ d span contentSpan, cx.parse ("[.raw]\n:--\n" ++ text ++ "\n--:") = .ok d ∧
      d.messages = [] ∧ d.strip.content = [.preformatted span contentSpan text] := by
  have hsource : ("[.raw]\n:--\n" ++ text ++ "\n--:").toList
      = "[.raw]\n:--\n".toList ++ (text.toList ++ ['\n', '-', '-', ':']) := by
    simp [String.toList_append]
  have hstarts : ∀ c, ("[.raw]\n:--\n" ++ text ++ "\n--:").toList.head? = some c →
      isSpacing c = false := by
    intro c hc
    rw [hsource] at hc
    rw [← Option.some.inj hc]
    decide
  obtain ⟨d, e, hd, hmessages, rfl, span, contentSpan, hcontent⟩ := parse_of_block
    (fun nodes e => e = .start cx ∧
      ∃ span contentSpan, stripNodes nodes = [.preformatted span contentSpan text])
    (by rw [hsource]; exact List.cons_ne_nil _ _) hstarts fun r h => by
      rw [hsource] at h
      refine (stands_readBlock_raw _ rfl hblocks htext h).mono ?_
      rintro nodes r' ⟨hend, hengine, span, contentSpan, hnodes⟩
      rw [String.ofList_toList] at hnodes
      exact ⟨hend, hengine, span, contentSpan, hnodes⟩
  exact ⟨d, span, contentSpan, hd, hmessages, hcontent⟩

/-- A text with a modifier that is not known, blank lines, blanks at the ends of lines, and marks
that are not the first on their line or not whole. -/
theorem parse_raw_group_marks :
    ¬ RawText.ClosesEarly "--:[.x\\\n \n\n\t:--\n  -- : \n.--:\t".toList ∧
      ∃ cx d span contentSpan, Context.start Builtin.configuration .empty = .ok cx ∧
        cx.configuration.blocks = Builtin.configuration.blocks ∧
        cx.parse ("[.raw]\n:--\n" ++ "--:[.x\\\n \n\n\t:--\n  -- : \n.--:\t" ++ "\n--:") = .ok d ∧
        d.messages = [] ∧ d.strip.content =
          [.preformatted span contentSpan "--:[.x\\\n \n\n\t:--\n  -- : \n.--:\t"] := by
  obtain ⟨cx, hcx, hblocks⟩ : ∃ cx, Context.start Builtin.configuration .empty = .ok cx ∧
      cx.configuration.blocks = Builtin.configuration.blocks := ⟨_, rfl, rfl⟩
  have htext : ¬ RawText.ClosesEarly "--:[.x\\\n \n\n\t:--\n  -- : \n.--:\t".toList := by decide
  obtain ⟨d, span, contentSpan, hd, hrest⟩ := parse_raw_group cx _ hblocks htext
  exact ⟨htext, cx, d, span, contentSpan, hcx, hblocks, hd, hrest⟩

end MacroMarkup
