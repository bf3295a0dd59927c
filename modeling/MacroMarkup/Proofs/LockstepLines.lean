import MacroMarkup.Proofs.LockstepHeads

/-!
# Line breaks in lockstep

Where a warning about the layout is reported, either it is the one that is mended and the two
readers come to stand behind the gap, or both readers report it.

* `At.crossed`: the warning was mended.  `At.warned`: another one, in both sources.
* `InStep.warning`: **a step that may warn about the layout is in step.**
* `InStep.skipLines`: line breaks between blocks, and the warning about too many of them.
* `InStep.endLine`: the end of a line, and the warning about content behind it.
-/

namespace MacroMarkup

open Parse
open Placed (placeless)

namespace Mend

variable {M : Mend} {K : Lasting} {P : List Char → Prop}

/-! ### Warnings about the layout -/

/-- The reader behind a warning about the text since `start`. -/
def warned (p : Problem) (start : Nat) (r : Reader) : Reader :=
  { r with engine := { r.engine with
    emitted := p.message ⟨start, r.cursor.position⟩ :: r.engine.emitted } }

section Warnings

variable {p : Problem} {start start' : Nat} {r s : Reader} {φ : Stage}

theorem emit_of_referring {e : Engine} (h : e.referring = []) (message : Message) :
    e.emit [message] = { e with emitted := message :: e.emitted } := by
  rw [Engine.emit, h]
  rfl

theorem At.referring (h : M.At φ r s) (hr : M.Inv K r) : s.engine.referring = [] := by
  have hreferring : placeless s.engine.referring = placeless r.engine.referring :=
    congrArg Engine.referring h.engine
  rw [hr.referring] at hreferring
  exact List.map_eq_nil_iff.mp hreferring

theorem Inv.warned (h : M.Inv K r) : M.Inv K (warned p start r) :=
  ⟨h.anchored, h.source, h.referring, h.traced, h.marks, h.lasting⟩

theorem Fine.of_warned {Q : List Char → Prop} (h : M.Fine Q (warned p start r)) :
    M.Fine Q r ∨ Clean r ∧ M.message = p.message ⟨start, r.cursor.position⟩ := by
  have hclean : Clean r :=
    ⟨fun m hm => h.clean.complete m (List.mem_cons_of_mem _ hm), h.clean.history⟩
  rcases h.place with hmem | hplace
  · rcases List.mem_cons.mp hmem with heq | hmem
    · exact .inr ⟨hclean, heq⟩
    · exact .inl ⟨hclean, .inl hmem⟩
  · exact .inl ⟨hclean, .inr hplace⟩

theorem length_of_message {start stop : Nat} (h : M.message = p.message ⟨start, stop⟩)
    (hstart : start ≤ stop) (hstop : stop ≤ M.source.length) :
    M.before.length = start ∧ M.gap.length = stop - start := by
  have hposition : M.message.position = start := by rw [h]; rfl
  have hlength : M.message.length = stop - start := by rw [h]; rfl
  rw [before, gap, hposition, hlength, List.length_take, List.length_take, List.length_drop]
  omega

theorem of_warning (hp : p.isLayout = true) (hr : M.Inv K r) (hstart : start ≤ r.cursor.position)
    (h : M.message = p.message ⟨start, r.cursor.position⟩) :
    M.problem = p ∧ start = M.before.length ∧ r.cursor.position = M.before.length + M.gap.length ∧
      r.cursor.rest = M.after ∧
      M.message = M.problem.message ⟨M.before.length, M.before.length + M.gap.length⟩ := by
  obtain ⟨hposition, hlength⟩ := length_of_message h hstart hr.anchored.position
  have hcode : p.code = M.problem.code := by
    rw [← M.code, h]
    rfl
  have hproblem : M.problem = p := by
    have hlayout := M.layout
    revert hcode hlayout hp
    cases p <;> cases M.problem <;> simp [Problem.code, Problem.isLayout]
  have hstop : r.cursor.position = M.before.length + M.gap.length := by omega
  refine ⟨hproblem, hposition.symm, hstop, ?_, ?_⟩
  · rw [← hr.anchored.rest, hstop, source_eq, ← List.append_assoc, ← List.length_append,
      List.drop_left]
  · rw [h, hposition, hlength, hproblem]
    congr 2
    omega

theorem At.warned (h : M.At φ r s)
    (hother : φ = .ahead → M.message ≠ p.message ⟨start, r.cursor.position⟩) :
    M.At φ (Mend.warned p start r) (Mend.warned p start' s) := by
  have hsame : Alike [p.message ⟨start, r.cursor.position⟩]
      [p.message ⟨start', s.cursor.position⟩] := by
    rw [Alike, placeless_cons, placeless_cons, placeless_message, placeless_message]
  exact ⟨h.anchored, h.source, h.rest, h.late, h.openGroups, h.engine,
    h.messages.append hsame fun hφ hmem => hother hφ (List.mem_singleton.mp hmem)⟩

theorem At.crossed (h : M.At .ahead r s) {m n : Nat}
    (hr : (r.advance m).cursor.rest = M.after) (hs : (s.advance n).cursor.rest = M.after)
    (hmessage : M.message = p.message ⟨start, (r.advance m).cursor.position⟩) :
    M.At .behind (Mend.warned p start (r.advance m)) (s.advance n) where
  anchored := (Cursor.passes_advance _ n).anchored h.anchored
  source := h.source
  rest := ⟨M.after, hr.trans (List.append_nil _).symm, hs.trans (List.append_nil _).symm⟩
  late _ := hr ▸ List.suffix_refl _
  openGroups := h.openGroups
  engine := h.engine
  messages := ⟨r.engine.emitted, [], s.engine.emitted, [], by rw [hmessage]; rfl, rfl,
    h.messages.1, rfl⟩

/-- The reader behind a step that passes some of the text and may warn about it. -/
def warnedIf (p : Problem) (offset count : List Char → Nat) (warns : List Char → Bool)
    (r : Reader) : Reader :=
  if warns r.cursor.rest then
    warned p (r.cursor.position + offset r.cursor.rest) (r.advance (count r.cursor.rest))
  else r.advance (count r.cursor.rest)

/-- Where a step warns as the message says, the gap lies behind a part of what it passes. -/
theorem exists_lead (hp : p.isLayout = true) (hr : M.Inv K r) {m n : Nat} (hmn : m ≤ n)
    (hn : n ≤ r.cursor.rest.length)
    (h : M.message = p.message ⟨r.cursor.position + m, (r.advance n).cursor.position⟩) :
    M.problem = p ∧ (r.advance n).cursor.rest = M.after ∧
      M.message = M.problem.message ⟨M.before.length, M.before.length + M.gap.length⟩ ∧
      ∃ lead, r.cursor.rest = lead ++ M.tail .ahead ∧ m = lead.length ∧
        n = lead.length + M.gap.length := by
  have hposition : (r.advance n).cursor.position = r.cursor.position + n :=
    Cursor.position_advance_of_le hn
  obtain ⟨hproblem, hstart, hstop, hafter, hmessage⟩ :=
    of_warning hp (hr.advanced n) (by omega) h
  have htake : (r.cursor.rest.take m).length = m := List.length_take_of_le (Nat.le_trans hmn hn)
  refine ⟨hproblem, hafter, hmessage, r.cursor.rest.take m, ?_, htake.symm, by omega⟩
  have hdrop : r.cursor.rest.drop m = M.gap ++ M.after := by
    rw [← hr.anchored.rest, List.drop_drop, hstart, source_eq, List.drop_left]
  rw [tail, ← hdrop, List.take_append_drop]

variable {offset count : List Char → Nat} {warns : List Char → Bool} {Q : List Char → Prop}

theorem At.warnedIf_behind (h : M.At .behind r s) :
    M.At .behind (warnedIf p offset count warns r) (warnedIf p offset count warns s) := by
  obtain ⟨hrest, h'⟩ := h.advanced_behind (count r.cursor.rest)
  rw [warnedIf, warnedIf, hrest]
  split
  · exact h'.warned fun h => by cases h
  · exact h'

section Step

variable (hle : ∀ rest, offset rest ≤ count rest ∧ count rest ≤ rest.length)

include hle

/-- Where the warning is mended, the second reader does not warn. -/
theorem At.warnedIf_crossed (hp : p.isLayout = true) (hr : M.Inv K r) (h : M.At .ahead r s)
    (hcross : M.problem = p → ∀ lead, warns (lead ++ M.tail .ahead) = true →
      offset (lead ++ M.tail .ahead) = lead.length →
      count (lead ++ M.tail .ahead) = lead.length + M.gap.length →
      count (lead ++ M.tail' .ahead) = lead.length + M.fill.length ∧
        warns (lead ++ M.tail' .ahead) = false)
    (hwarns : warns r.cursor.rest = true)
    (hmessage : M.message = p.message ⟨r.cursor.position + offset r.cursor.rest,
      (r.advance (count r.cursor.rest)).cursor.position⟩) :
    M.At .behind (warnedIf p offset count warns r) (warnedIf p offset count warns s) := by
  obtain ⟨hproblem, hafter, -, lead, hrest, hoffset, hcount⟩ :=
    exists_lead hp hr (hle _).1 (hle _).2 hmessage
  obtain ⟨hcount', hwarns'⟩ := hcross hproblem lead (hrest ▸ hwarns) (hrest ▸ hoffset)
    (hrest ▸ hcount)
  have hs : s.cursor.rest = lead ++ M.tail' .ahead := (h.passed (w := []) hrest).1
  rw [warnedIf, if_pos hwarns, warnedIf, hs, hwarns', hcount']
  refine h.crossed hafter ?_ hmessage
  show s.cursor.rest.drop _ = _
  rw [hs, tail', ← List.append_assoc, ← List.length_append, List.drop_left]

/-- Before the gap both readers warn of the same, as the step passes as much for both. -/
theorem At.warnedIf_ahead (h : M.At .ahead r s)
    (hsame : M.Arises → ∀ passed w, count (passed ++ (w ++ M.tail .ahead)) = passed.length →
      Q w → count (passed ++ (w ++ M.tail' .ahead)) = passed.length ∧
        warns (passed ++ (w ++ M.tail' .ahead)) = warns (passed ++ (w ++ M.tail .ahead)))
    (hfine : M.Fine Q (warnedIf p offset count warns r))
    (hother : ¬ (warns r.cursor.rest = true ∧ M.message = p.message
      ⟨r.cursor.position + offset r.cursor.rest,
        (r.advance (count r.cursor.rest)).cursor.position⟩)) :
    M.At .ahead (warnedIf p offset count warns r) (warnedIf p offset count warns s) := by
  have hfine' : M.Fine Q (r.advance (count r.cursor.rest)) := by
    rw [warnedIf] at hfine
    split at hfine
    · rename_i hwarns
      exact hfine.of_warned.resolve_right fun h => hother ⟨hwarns, h.2⟩
    · exact hfine
  obtain ⟨hM, w, hw, hQ⟩ := hfine'.place.resolve_left h.messages.2
  obtain ⟨passed, hrest, hcount⟩ := exists_passed (hle _).2 hw
  obtain ⟨hs, h'⟩ := h.passed hrest
  obtain ⟨hcount', hwarns'⟩ := hsame hM passed w (hrest ▸ hcount) hQ
  rw [warnedIf, warnedIf, hs, hcount', hwarns', ← hrest, hcount]
  split
  · rename_i hwarns
    refine h'.warned fun _ hmessage => hother ⟨hwarns, ?_⟩
    rwa [hcount]
  · exact h'

end Step

/-- **A step that may warn about the layout.**  Where the warning is not the one that is mended it
is in step if it passes as much in the mended source and warns there too.  Where the warning is
mended, the second run passes what is put in its place and does not warn. -/
theorem InStep.warning {x : Parse Unit} (hp : p.isLayout = true)
    (hx : ∀ r, r.engine.referring = [] → x r = .ok ((), warnedIf p offset count warns r))
    (hle : ∀ rest, offset rest ≤ count rest ∧ count rest ≤ rest.length)
    (hback : M.Arises → ∀ passed w, count (passed ++ (w ++ M.tail .ahead)) = passed.length →
      Q w → P (passed ++ w))
    (hsame : M.Arises → ∀ passed w, count (passed ++ (w ++ M.tail .ahead)) = passed.length →
      Q w → count (passed ++ (w ++ M.tail' .ahead)) = passed.length ∧
        warns (passed ++ (w ++ M.tail' .ahead)) = warns (passed ++ (w ++ M.tail .ahead)))
    (hcross : M.problem = p → ∀ lead, warns (lead ++ M.tail .ahead) = true →
      offset (lead ++ M.tail .ahead) = lead.length →
      count (lead ++ M.tail .ahead) = lead.length + M.gap.length →
      M.Place ∧ P lead ∧ count (lead ++ M.tail' .ahead) = lead.length + M.fill.length ∧
        warns (lead ++ M.tail' .ahead) = false) :
    M.InStep K (M.Tied fun _ => True) P x x (fun _ => Q) Eq where
  back := by
    intro r a r' hr hrun
    rw [hx r hr.referring] at hrun
    cases hrun
    have hadvanced : M.Fine Q (r.advance (count r.cursor.rest)) → M.Fine P r := by
      intro hfine
      refine hfine.of_advanced (hle _).2 fun hM passed w hrest hcount => ?_
      exact hback hM passed w (hrest ▸ hcount)
    rw [warnedIf]
    split
    · rename_i hwarns
      refine ⟨(hr.advanced _).warned, fun hfine => ?_⟩
      rcases hfine.of_warned with hfine | ⟨hclean, hmessage⟩
      · exact hadvanced hfine
      · obtain ⟨hproblem, -, hmessage, lead, hrest, hoffset, hcount⟩ :=
          exists_lead hp hr (hle _).1 (hle _).2 hmessage
        rw [hrest] at hwarns hoffset hcount
        obtain ⟨hplace, hlead, -⟩ := hcross hproblem lead hwarns hoffset hcount
        exact ⟨⟨hclean.complete, hclean.history⟩, .inr ⟨⟨hmessage, hplace⟩, lead, hrest, hlead⟩⟩
    · exact ⟨hr.advanced _, hadvanced⟩
  same := by
    rintro r a r' s hr hrun hfine ⟨φ, hφ, hat⟩
    rw [hx r hr.referring] at hrun
    cases hrun
    rw [Ensures, hx s (hat.referring hr)]
    refine ⟨rfl, ?_⟩
    cases φ with
    | behind => exact ⟨.behind, trivial, hat.warnedIf_behind⟩
    | ahead =>
      by_cases hmended : warns r.cursor.rest = true ∧ M.message = p.message
          ⟨r.cursor.position + offset r.cursor.rest,
            (r.advance (count r.cursor.rest)).cursor.position⟩
      · refine ⟨.behind, trivial, hat.warnedIf_crossed hle hp hr ?_ hmended.1 hmended.2⟩
        intro hproblem lead hwarns hoffset hcount
        exact (hcross hproblem lead hwarns hoffset hcount).2.2
      · exact ⟨.ahead, trivial, hat.warnedIf_ahead hle hsame hfine hmended⟩

end Warnings

/-! ### Line breaks -/

section Lines

theorem emit_eq {r : Reader} (h : r.engine.referring = []) {p : Problem} {start : Nat} :
    Parse.emit [p.message ⟨start, r.cursor.position⟩] r = .ok ((), warned p start r) := by
  show Except.ok ((), { r with engine := r.engine.emit _ }) = _
  rw [emit_of_referring h]
  rfl

theorem spanFrom_eq {r : Reader} {start : Nat} (h : start ≤ r.cursor.position) :
    spanFrom start r = .ok (⟨start, r.cursor.position⟩, r) := by
  show (liftM (Span.checked start r.cursor.position) : Parse Span) r = _
  rw [Span.checked_of_le h]
  rfl

theorem skipLines_eq (limit : Nat) {r : Reader} (h : r.engine.referring = []) :
    Parse.skipLines limit r = .ok ((), warnedIf .redundantNewlines (fun _ => 0)
      (fun rest => (rest.takeWhile isSpacing).length)
      (fun rest => limit < (rest.takeWhile isSpacing).count '\n') r) := by
  have hskip : Parse.skipSpacing r
      = .ok ((), r.advance (r.cursor.rest.takeWhile isSpacing).length) := by
    show Except.ok ((), ({ r with cursor := r.cursor.skipWhile isSpacing } : Reader)) = _
    rw [skipWhile_eq_advance]
    rfl
  have hposition : r.cursor.position
      ≤ (r.advance (r.cursor.rest.takeWhile isSpacing).length).cursor.position :=
    (Cursor.passes_advance _ _).position_le
  show (do
    Parse.skipSpacing
    if limit < (r.cursor.rest.takeWhile isSpacing).count '\n' then
      Parse.emit [Problem.redundantNewlines.message (← spanFrom r.cursor.position)]) r = _
  rw [bind_of_ok hskip, warnedIf]
  by_cases hlimit : limit < (r.cursor.rest.takeWhile isSpacing).count '\n'
  · rw [if_pos hlimit, if_pos (decide_eq_true hlimit)]
    have hspan := spanFrom_eq hposition
    rw [bind_of_ok hspan]
    have hadvanced :
        (r.advance (r.cursor.rest.takeWhile isSpacing).length).engine.referring = [] := h
    exact emit_eq hadvanced
  · rw [if_neg hlimit, if_neg (by simpa using hlimit)]
    rfl

theorem AtLines.firm_of_not_spacing {w : List Char} (hM : M.Place) (h : M.AtLines w)
    (hstop : ∀ c, (w ++ M.tail .ahead).head? = some c → isSpacing c = false) : M.Firm w := by
  refine h.resolve_right ?_
  rintro ⟨hproblem, rfl⟩
  simp only [Place, hproblem] at hM
  obtain ⟨hgap, hall, -⟩ := hM
  obtain ⟨c, rest, hc⟩ := List.exists_cons_of_ne_nil hgap
  have hspacing := hall c (by rw [hc]; exact List.mem_cons_self)
  rw [hstop c (by rw [tail, hc]; rfl)] at hspacing
  cases hspacing

/-- **Lines are skipped in step.**  If their breaks are what the message is about, there is nothing
to skip in the mended source. -/
theorem InStep.skipLines (limit : Nat) :
    M.InStep K (M.Tied fun _ => True) M.AtLines (Parse.skipLines limit) (Parse.skipLines limit)
      (fun _ => M.AtLines) Eq := by
  refine .warning rfl (fun r => skipLines_eq limit)
    (fun rest => ⟨Nat.zero_le _, (List.takeWhile_prefix _).length_le⟩)
    (fun hM passed w h hw => ?_) (fun hM passed w h hw => ?_)
    fun hproblem lead hwarns hlead hcount => ?_
  · exact .inl ((hw.firm_of_not_spacing hM.place (passed_while h).2).append passed)
  · obtain ⟨hall, hstop⟩ := passed_while h
    have hfirm := hw.firm_of_not_spacing hM.place hstop
    have hsame : ∀ t, (passed ++ (w ++ t)).takeWhile isSpacing = passed := by
      intro t
      refine takeWhile_append_eq hall ?_
      rwa [List.head?_append_of_ne_nil w hfirm.ne_nil] at hstop ⊢
    rw [hsame, hsame]
    exact ⟨rfl, rfl⟩
  · obtain rfl := List.length_eq_zero_iff.mp hlead.symm
    simp only [List.nil_append, List.length_nil, Nat.zero_add] at hwarns hcount ⊢
    obtain ⟨hall, hstop⟩ := passed_while hcount
    have hgap : (M.gap ++ M.after).takeWhile isSpacing = M.gap := takeWhile_append_eq hall hstop
    have hfill : M.tail' .ahead = M.after := by simp [tail', fill, hproblem]
    have hnone : M.after.takeWhile isSpacing = [] :=
      takeWhile_append_eq (List.forall_mem_nil _) hstop
    refine ⟨?_, .inr ⟨hproblem, rfl⟩, ?_, ?_⟩
    · simp only [Place, hproblem]
      refine ⟨fun hnil => ?_, hall, hstop⟩
      have hlimit := of_decide_eq_true hwarns
      rw [tail, hgap, hnil] at hlimit
      exact absurd hlimit (Nat.not_lt_zero _)
    · rw [hfill, hnone, fill, if_pos hproblem]
    · refine decide_eq_false ?_
      rw [hfill, hnone]
      exact Nat.not_lt_zero _

def blanks (rest : List Char) : List Char := rest.takeWhile isBlank

def endsLine (rest : List Char) : Bool := ['\n'].isPrefixOf (rest.drop (blanks rest).length)

/-- How much there is up to the end of a line that should be blank. -/
def lineEnd (rest : List Char) : Nat := (blanks rest).length + if endsLine rest then 1 else 0

theorem lineEnd_le (rest : List Char) :
    (blanks rest).length ≤ lineEnd rest ∧ lineEnd rest ≤ rest.length := by
  have hle : (blanks rest).length ≤ rest.length := (List.takeWhile_prefix _).length_le
  rw [lineEnd]
  split
  · rename_i hends
    have := (List.isPrefixOf_iff_prefix.mp hends).length_le
    rw [List.length_drop, List.length_singleton] at this
    omega
  · omega

theorem endsLine_append {spaces t : List Char} (hall : ∀ c ∈ spaces, isBlank c = true)
    (hstop : ∀ c, t.head? = some c → isBlank c = false) :
    blanks (spaces ++ t) = spaces ∧ endsLine (spaces ++ t) = ['\n'].isPrefixOf t ∧
      lineEnd (spaces ++ t) = spaces.length + if ['\n'].isPrefixOf t then 1 else 0 := by
  have hblanks : blanks (spaces ++ t) = spaces := takeWhile_append_eq hall hstop
  have hends : endsLine (spaces ++ t) = ['\n'].isPrefixOf t := by
    rw [endsLine, hblanks, List.drop_left]
  exact ⟨hblanks, hends, by rw [lineEnd, hblanks, hends]⟩

theorem endsLine_newline {spaces : List Char} (hall : ∀ c ∈ spaces, isBlank c = true)
    (t : List Char) : blanks (spaces ++ '\n' :: t) = spaces ∧
      endsLine (spaces ++ '\n' :: t) = true ∧
      lineEnd (spaces ++ '\n' :: t) = spaces.length + 1 :=
  endsLine_append hall fun c hc => by cases hc; rfl

theorem endsLine_of_not_spacing {spaces t : List Char} (hall : ∀ c ∈ spaces, isBlank c = true)
    (hstop : ∀ c, t.head? = some c → isSpacing c = false) :
    blanks (spaces ++ t) = spaces ∧ endsLine (spaces ++ t) = false ∧
      lineEnd (spaces ++ t) = spaces.length := by
  have hblank : ∀ c, t.head? = some c → isBlank c = false :=
    fun c hc => (Bool.or_eq_false_iff.mp (hstop c hc)).1
  have hnewline : ['\n'].isPrefixOf t = false := by
    cases t with
    | nil => rfl
    | cons d t =>
      have hd := (Bool.or_eq_false_iff.mp (hstop d rfl)).2
      show ('\n' == d && true) = false
      rw [Bool.and_true, beq_eq_false_iff_ne]
      exact (beq_eq_false_iff_ne.mp hd).symm
  have h := endsLine_append hall hblank
  rw [hnewline] at h
  exact h

/-- What is passed of a text up to the end of a line: blanks and a line break, or blanks before
something else. -/
theorem passed_line {passed t : List Char} (h : lineEnd (passed ++ t) = passed.length) :
    (∃ spaces, (∀ c ∈ spaces, isBlank c = true) ∧ passed = spaces ++ ['\n']) ∨
      (∀ c ∈ passed, isBlank c = true) ∧ ∀ c, t.head? = some c → isSpacing c = false := by
  obtain ⟨spaces, left, hsplit, hall, hstop⟩ : ∃ spaces left, passed ++ t = spaces ++ left ∧
      (∀ c ∈ spaces, isBlank c = true) ∧ ∀ c, left.head? = some c → isBlank c = false := by
    refine ⟨_, _, List.takeWhile_append_dropWhile.symm,
      fun c hc => List.all_eq_true.mp (List.all_takeWhile (p := isBlank)) c hc, fun c hc => ?_⟩
    have hhead := List.head?_dropWhile_not isBlank (passed ++ t)
    rw [hc] at hhead
    simpa using hhead
  rw [hsplit, (endsLine_append hall hstop).2.2] at h
  cases hends : ['\n'].isPrefixOf left with
  | true =>
    obtain ⟨left', rfl⟩ := List.isPrefixOf_iff_prefix.mp hends
    rw [hends, if_pos rfl] at h
    rw [← List.append_assoc] at hsplit
    exact .inl ⟨spaces, hall, (List.append_inj hsplit (by simp [← h])).1⟩
  | false =>
    rw [hends, if_neg Bool.false_ne_true] at h
    obtain ⟨rfl, rfl⟩ := List.append_inj hsplit h.symm
    refine .inr ⟨hall, fun c hc => ?_⟩
    rw [isSpacing, hstop c hc, Bool.false_or, beq_eq_false_iff_ne]
    rintro rfl
    cases t with
    | nil => cases hc
    | cons d t =>
      cases hc
      simp at hends

theorem advance_advance (r : Reader) (m n : Nat) :
    (r.advance m).advance n = r.advance (m + n) := by
  have hcursor : (r.cursor.advance m).advance n = r.cursor.advance (m + n) := by
    simp only [Cursor.advance, List.drop_drop, List.take_add, List.length_append, Nat.add_assoc]
  exact congrArg (fun cursor => { r with cursor := cursor }) hcursor

theorem endLine_eq {r : Reader} (h : r.engine.referring = []) :
    Parse.endLine r = .ok ((), warnedIf .groupContentInsideLine (fun rest => (blanks rest).length)
      lineEnd (fun rest => !endsLine rest) r) := by
  have hskip : Parse.skipBlanks r = .ok ((), r.advance (blanks r.cursor.rest).length) := by
    show Except.ok ((), ({ r with cursor := r.cursor.skipWhile isBlank } : Reader)) = _
    rw [skipWhile_eq_advance]
    rfl
  show (do
    Parse.skipBlanks
    if !(← Parse.accept .newline) then
      Parse.emit [Problem.groupContentInsideLine.message (.empty (← Parse.position))]) r = _
  rw [bind_of_ok hskip, warnedIf]
  have haccept : Parse.accept .newline (r.advance (blanks r.cursor.rest).length)
      = .ok (endsLine r.cursor.rest, (r.advance (blanks r.cursor.rest).length).advance
        (if endsLine r.cursor.rest then 1 else 0)) := accept_eq _ _
  rw [bind_of_ok haccept, advance_advance, ← lineEnd]
  cases hends : endsLine r.cursor.rest with
  | true => rfl
  | false =>
    have hend : lineEnd r.cursor.rest = (blanks r.cursor.rest).length := by
      rw [lineEnd, hends]
      rfl
    have hadvanced : (r.advance (blanks r.cursor.rest).length).engine.referring = [] := h
    have hposition : (r.advance (blanks r.cursor.rest).length).cursor.position
        = r.cursor.position + (blanks r.cursor.rest).length :=
      Cursor.position_advance_of_le (Nat.le_trans (lineEnd_le _).1 (lineEnd_le _).2)
    rw [hend]
    show Parse.emit [Problem.message _ (.empty _)] _ = _
    rw [Span.empty]
    refine (emit_eq hadvanced).trans ?_
    rw [hposition]
    rfl

/-- **A line is ended in step.**  If the message is about the text behind it, it is empty in the
mended source. -/
theorem InStep.endLine :
    M.InStep K (M.Tied fun _ => True) M.AtLineEnd Parse.endLine Parse.endLine (fun _ => M.AtLines)
      Eq := by
  refine .warning rfl (fun r => endLine_eq) lineEnd_le (fun hM passed w h hw => ?_)
    (fun hM passed w h hw => ?_) fun hproblem lead hwarns hlead hcount => ?_
  · rcases hw with hw | ⟨hproblem, rfl⟩
    · exact .inl (hw.append passed)
    · rcases passed_line h with ⟨spaces, -, rfl⟩ | ⟨-, hstop⟩
      · refine .inl ?_
        simp only [Firm, hproblem, List.append_nil]
        exact .inr (.inl (List.suffix_append _ _))
      · exact .inl ((AtLines.firm_of_not_spacing hM.place (.inr ⟨hproblem, rfl⟩) hstop).append _)
  · rcases passed_line h with ⟨spaces, hall, rfl⟩ | ⟨hall, hstop⟩
    · simp only [List.append_assoc, List.singleton_append]
      have hends := fun t => (endsLine_newline hall t).2
      rw [(hends _).1, (hends _).2, (hends _).1, List.length_append]
      exact ⟨rfl, rfl⟩
    · have hhead : ∀ t, (w ++ t).head? = w.head? := fun t =>
        List.head?_append_of_ne_nil w (hw.firm_of_not_spacing hM.place hstop).ne_nil
      have hends : ∀ t, endsLine (passed ++ (w ++ t)) = false ∧
          lineEnd (passed ++ (w ++ t)) = passed.length := by
        intro t
        refine (endsLine_of_not_spacing hall ?_).2
        rwa [hhead] at hstop ⊢
      rw [(hends _).1, (hends _).2, (hends _).1]
      exact ⟨rfl, rfl⟩
  · have hends : endsLine (lead ++ M.tail .ahead) = false := by simpa using hwarns
    rw [lineEnd, hends, hlead, if_neg Bool.false_ne_true] at hcount
    have hgap : M.gap = [] := List.length_eq_zero_iff.mp (by omega)
    have hend : lineEnd (lead ++ M.tail .ahead) = lead.length := by
      rw [lineEnd, hends, hlead, if_neg Bool.false_ne_true, Nat.add_zero]
    have hfill : M.fill = ['\n'] := by simp [fill, hproblem]
    rcases passed_line hend with ⟨spaces, hall, rfl⟩ | ⟨hall, hstop⟩
    · rw [List.append_assoc, List.singleton_append, (endsLine_newline hall _).2.1] at hends
      cases hends
    · have hplace : M.Place := by
        simp only [Place, hproblem]
        rw [tail, hgap] at hstop
        exact ⟨hgap, hstop⟩
      have hmended := (endsLine_newline hall M.after).2
      refine ⟨hplace, .inr ⟨hproblem, hall⟩, ?_⟩
      rw [tail', hfill, List.singleton_append, hmended.1, hmended.2]
      exact ⟨rfl, rfl⟩

end Lines

end Mend

end MacroMarkup
