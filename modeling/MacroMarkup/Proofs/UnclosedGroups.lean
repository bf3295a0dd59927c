import MacroMarkup.Proofs.Balance
import MacroMarkup.Proofs.Enclosing
import MacroMarkup.Proofs.RawGroup

/-!
# Groups that are not closed

Two functions read groups: one reads blocks up to the closing mark, the other raw text.  The first
one reports each group that the end of the source leaves open.  The other one keeps each line break
back with the blanks behind it, and reports a group that is left open only if it still does so at
the end.

* `RawText.Ends`, `RawText.scan_ends`: where the raw text of a group ends.
* `Parse.AccountsIn`: the law of what reads an argument on, which tells whether its closing mark
  was read.
* `Parse.Closes`: the law of what reads a group on.
* `encloses_accounts`: **the account is kept over interpolations and groups.**
* `accounts_readModifier`: so it is over modifiers, as expansion reports no missing mark.
* `unclosed_groups_reported`: the groups of a source, and which of them are reported.
-/

namespace MacroMarkup

open Parse

variable {source : List Char}

/-! ### Raw text -/

namespace RawText

/-- **Where the raw text of a group ends** that was scanned from `count` on: behind the closing
mark, or at the end of what was ahead.  Then it counts as unclosed if `blank` says so. -/
inductive Ends (raw : RawText) (count : Nat) (ahead : List Char) (blank : Bool) : Prop
  | closed (passed behind : List Char) :
      ahead = passed ++ (Mark.groupClose.text.toList ++ behind) →
      raw.length = count + (passed ++ Mark.groupClose.text.toList).length →
      raw.closed = true → raw.unclosed = false → Ends raw count ahead blank
  | exhausted : raw.length = count + ahead.length → raw.closed = false → raw.unclosed = blank →
      Ends raw count ahead blank

theorem Ends.behind {raw : RawText} {count : Nat} {ahead : List Char} {blank : Bool}
    (before : List Char) (h : raw.Ends (count + before.length) ahead blank) :
    raw.Ends count (before ++ ahead) blank := by
  cases h with
  | closed passed behind hahead hlength hclosed hunclosed =>
    refine .closed (before ++ passed) behind ?_ ?_ hclosed hunclosed
    · rw [hahead, List.append_assoc]
    · rw [hlength, List.append_assoc, Nat.add_assoc, ← List.length_append]
  | exhausted hlength hclosed hunclosed =>
    refine .exhausted ?_ hclosed hunclosed
    rw [hlength, List.length_append, Nat.add_assoc]

theorem scan_ends (cs : List Char) : ∀ (text : String) (count : Nat) (gap : Option String),
    (scan true text count gap cs).Ends count (kept gap ++ cs) (endsBlank gap.isSome cs) := by
  induction cs with
  | nil =>
    intro text count gap
    cases gap with
    | none => exact .exhausted rfl (by simp [scan, RawText.closed]) rfl
    | some white => exact .exhausted (by simp [scan, kept]) (by simp [scan, RawText.closed]) rfl
  | cons c rest ih =>
    intro text count gap
    rw [scan_cons, endsBlank_cons]
    cases hnext : next true (['-', '-', ':'].isPrefixOf (c :: rest)) text count gap c with
    | stops raw =>
      obtain ⟨_, rfl, ⟨-, hmark, rfl⟩ | ⟨hplain, -⟩⟩ := next_stops hnext
      · obtain ⟨behind, hbehind⟩ := List.isPrefixOf_iff_prefix.mp hmark
        refine .closed (kept gap) behind ?_ ?_ ?_ rfl
        · rw [← hbehind]
          rfl
        · rw [List.length_append, ← Nat.add_assoc]
          rfl
        · simp [RawText.closed]
          omega
      · cases hplain
    | goesOn text' count' gap' =>
      obtain ⟨⟨added, -, rfl, hkept⟩, hline⟩ := next_goesOn hnext
      have hends := (ih text' (count + added.toList.length) gap').behind added.toList
      rw [← List.append_assoc, hkept, List.append_assoc] at hends
      rwa [← hline]

end RawText

/-! ### Steps that pass a mark -/

section Steps

variable {r : Reader}

/-- A span may start where it should not. -/
theorem ensures_checked_any {start stop : Nat} {post : Span → Reader → Prop}
    (h : post ⟨start, stop⟩ r) :
    Ensures anyFault (liftM (Span.checked start stop) : Parse Span) r post := by
  by_cases hle : start ≤ stop
  · exact ensures_checked hle h
  · rw [Span.checked, if_neg hle]
    trivial

theorem cut_self (source : List Char) (position : Nat) : cut source position position = [] := by
  rw [cut, Nat.sub_self, List.take_zero]

/-- What a piece of the source ends with, a longer one does that starts before it. -/
theorem suffix_cut {text : List Char} {start mid stop : Nat} (h : text <:+ cut source mid stop)
    (hstart : start ≤ mid) (hstop : mid ≤ stop) : text <:+ cut source start stop := by
  rw [← cut_append hstart hstop]
  exact h.trans (List.suffix_append _ _)

theorem accounts_accept (mark : Mark) (hr : r.Accounts source) :
    Ensures anyFault (accept mark) r fun found r' => r.AccountsTo source r' ∧
      cut source r.cursor.position r'.cursor.position = if found then mark.text.toList else [] :=
  (basic_accounts.accept mark r hr).and <| ensures_acceptMark
    (fun _ _ _ hreads => hreads.cut_eq hr.anchored) fun _ => cut_self source _

theorem ensures_accept_peek (mark : Mark) (r : Reader) :
    Ensures anyFault (accept mark) r fun found _ => found = r.cursor.peek mark.text :=
  ensures_accept (fun hpeek _ _ _ => hpeek.symm) Eq.symm

theorem accounts_fireInspectors (hr : r.Accounts source) :
    Ensures anyFault fireInspectors r fun _ r' => r.AccountsTo source r' ∧
      r'.cursor.rest = r.cursor.rest ∧ r'.cursor.position = r.cursor.position :=
  ⟨basic_accounts.fireInspectors r hr, rfl, rfl⟩

theorem accounts_acceptName (name : String) (hr : r.Accounts source) :
    Ensures anyFault (acceptName name) r fun found r' => r.AccountsTo source r' ∧
      (found = true → cut source r.cursor.position r'.cursor.position = name.toList) := by
  refine (basic_accounts.acceptName name r hr).and ?_
  simp only [acceptName, ensures_bind]
  refine ensures_peekName (fun _ => trivial) ?_
  cases hpeek : r.cursor.peek name with
  | true => exact fun _ => (Cursor.reads_literal hpeek).cut_eq hr.anchored
  | false => exact nofun

theorem accounts_endLine (hr : r.Accounts source) :
    Ensures anyFault endLine r fun _ r' => r.AccountsTo source r' ∧
      EndsLine (cut source r.cursor.position r'.cursor.position) := by
  have hskip : Ensures anyFault skipBlanks r fun _ r' => ∃ blanks,
      r.cursor.Reads blanks r'.cursor ∧ ∀ c ∈ blanks, isBlank c = true :=
    ensures_skipBlanks fun _ _ ⟨blanks, hreads, hblanks, _⟩ => ⟨blanks, hreads, hblanks⟩
  simp only [endLine, ensures_bind]
  refine ((basic_accounts.skipWhile isBlank r hr).and hskip).mono ?_
  rintro _ r₁ ⟨h₁, blanks, hreads, hblanks⟩
  refine (accounts_accept .newline h₁.accounts).mono ?_
  rintro found r₂ ⟨h₂, hline⟩
  have hcut : EndsLine (cut source r.cursor.position r₂.cursor.position) := by
    refine ⟨blanks, cut source r₁.cursor.position r₂.cursor.position, ?_, hblanks, ?_⟩
    · rw [← cut_append h₁.forward h₂.forward, hreads.cut_eq hr.anchored]
    · rw [hline]
      cases found with
      | true => exact .inr rfl
      | false => exact .inl rfl
  cases found with
  | true => exact ⟨h₁.trans h₂, hcut⟩
  | false =>
    have hnote := h₂.accounts.note .groupContentInsideLine (.empty r₂.cursor.position) nofun
    exact ⟨h₁.trans (h₂.trans hnote), hcut⟩

theorem openingLine {r₁ r₂ : Reader} (h₁ : r.AccountsTo source r₁)
    (hmark : cut source r.cursor.position r₁.cursor.position = Mark.groupOpen.text.toList)
    (h₂ : r₁.AccountsTo source r₂)
    (hline : EndsLine (cut source r₁.cursor.position r₂.cursor.position)) :
    OpeningLine source r.cursor.position r₂.cursor.position :=
  ⟨_, by rw [← hmark, cut_append h₁.forward h₂.forward], hline⟩

end Steps

/-! ### Interpolations -/

/-- From a reader that accounts for the enclosures the step leads to one that does.  It reads an
argument on, and if it says that the closing mark was found, that is what was read last. -/
def Parse.AccountsIn (source : List Char) (closing : Option String) (x : Parse ArgumentText) :
    Prop :=
  ∀ r : Reader, r.Accounts source → Ensures anyFault x r fun text r' => r.AccountsTo source r' ∧
    ∀ mark, closing = some mark → text.continues = true →
      mark.toList <:+ cut source r.cursor.position r'.cursor.position

namespace Parse.AccountsIn

variable {closing : Option String} {α : Type} {x y : Parse ArgumentText}

theorem stops {text : ArgumentText} (h : closing ≠ none → text.continues = false) :
    AccountsIn source closing (pure text) := by
  refine fun r hr => ⟨hr.refl, fun mark hmark hcontinues => ?_⟩
  rw [h (hmark ▸ nofun)] at hcontinues
  cases hcontinues

theorem ite {c : Prop} [Decidable c] (hx : AccountsIn source closing x)
    (hy : AccountsIn source closing y) : AccountsIn source closing (if c then x else y) := by
  split
  · exact hx
  · exact hy

theorem behind {r r₁ : Reader} (hx : AccountsIn source closing x) (h₁ : r.AccountsTo source r₁) :
    Ensures anyFault x r₁ fun text r' => r.AccountsTo source r' ∧
      ∀ mark, closing = some mark → text.continues = true →
        mark.toList <:+ cut source r.cursor.position r'.cursor.position := by
  refine (hx r₁ h₁.accounts).mono fun text r' h => ⟨h₁.trans h.1, fun mark hmark hcontinues => ?_⟩
  exact suffix_cut (h.2 mark hmark hcontinues) h₁.forward h.1.forward

theorem bind {z : Parse α} {f : α → Parse ArgumentText} (hz : Parse.Accounts source z)
    (hf : ∀ a, AccountsIn source closing (f a)) : AccountsIn source closing (z >>= f) := by
  intro r hr
  rw [ensures_bind]
  exact (hz r hr).mono fun a r₁ h₁ => (hf a).behind h₁

theorem accounts (hx : AccountsIn source closing x) : Parse.Accounts source x :=
  fun r hr => (hx r hr).mono fun _ _ h => h.1

theorem unlessClosed {text : ArgumentText} (hy : AccountsIn source closing y) :
    AccountsIn source closing
      (acceptClosing closing >>= fun found => if found then pure text else y) := by
  cases closing with
  | none => exact bind basic_accounts.pure fun found => ite (stops fun h => absurd rfl h) hy
  | some mark =>
    intro r hr
    rw [ensures_bind]
    refine (accounts_acceptName mark hr).mono ?_
    rintro found r₁ ⟨h₁, hfound⟩
    cases found with
    | true =>
      refine ⟨h₁, fun _ hmark _ => ?_⟩
      cases hmark
      exact hfound rfl ▸ List.suffix_refl _
    | false => exact hy.behind h₁

end Parse.AccountsIn

/-- An interpolation is entered and left, and what it stands in is read on. -/
theorem accounts_interpolation {fuel : Nat}
    (ih : ∀ closing parts stop, AccountsIn source closing (readEntities fuel closing parts stop))
    (closing : Option String) (interpolator : Interpolator) (parts : List Entity) (start : Nat) :
    AccountsIn source closing (readInterpolationPart fuel closing parts start interpolator) := by
  refine .bind (basic_accounts.acceptName _) fun _ r hr => ?_
  simp only [spanFrom, ensures_bind, ensures_position, ensures_enter, ensures_leave]
  have hother : ¬ (EnclosureKind.interpolation interpolator.closing).isGroup = true :=
    Bool.false_ne_true
  have hinside := hr.enter (.interpolation interpolator.closing) fun h => absurd h hother
  refine (ih _ _ _ _ hinside.accounts).mono ?_
  rintro inner r₁ ⟨h₁, hclosed⟩
  have haccurate : Ending.Accurate source
      ⟨⟨.interpolation interpolator.closing, r.cursor.position⟩, r₁.cursor.position,
        inner.continues⟩ :=
    ⟨fun hgroup => absurd hgroup hother, h₁.forward, h₁.accounts.anchored.position,
      hclosed _ rfl, fun _ hgroup => absurd hgroup hother⟩
  refine ensures_checked_any (ensures_checked_any ?_)
  rw [ensures_ite]
  refine ⟨fun hcontinues => ?_, fun hends => ?_⟩
  · have hleft := h₁.accounts.leave h₁.around _ [] haccurate
      (by simp [Ending.isReported, hcontinues])
    exact (ih _ _ _).behind (hleft.toReaches.behind (h₁.behind hinside))
  · have hmissing : [Problem.expectedAt r₁.cursor.position interpolator.closing].filter
        Message.reportsUnclosed = ([⟨⟨.interpolation interpolator.closing, r.cursor.position⟩,
          r₁.cursor.position, inner.continues⟩].filter (Ending.isReported source)).map
            Ending.report := by
      by_cases hmark : interpolator.closing = Mark.groupClose.text
      · simp [Ending.isReported, hends, reportsUnclosed_expectedAt, hmark, Ending.report]
      · simp [Ending.isReported, reportsUnclosed_expectedAt, hmark]
    have hleft := h₁.accounts.leave h₁.around _ _ haccurate hmissing
    exact ⟨hleft.toReaches.behind (h₁.behind hinside), fun _ _ h => absurd h Bool.false_ne_true⟩

theorem accounts_readEntities (fuel : Nat) : ∀ (closing : Option String) (parts : List Entity)
    (stop : Nat), AccountsIn source closing (readEntities fuel closing parts stop) := by
  induction fuel with
  | zero => exact fun _ _ _ _ _ => trivial
  | succ fuel ih =>
    have h := @basic_accounts source
    intro closing parts stop
    rw [readEntities_succ]
    refine .unlessClosed (.bind (h.accept _) fun _ => .ite (.stops ?_) ?_)
    · cases closing with
      | none => exact fun hne => absurd rfl hne
      | some mark => exact fun _ => rfl
    refine .bind (h.peek _) fun _ => .bind (h.peek _) fun _ => .bind h.isAtEnd fun _ =>
      .ite (.stops fun _ => rfl) ?_
    refine .bind h.position fun _ => .bind (h.accept _) fun _ => .ite ?_ ?_
    · refine .bind h.takeChar? fun taken => ?_
      cases taken with
      | some c => exact .bind (h.spanFrom _) fun _ => ih _ _ _
      | none => exact .bind (h.spanFrom _) fun _ => .stops fun _ => rfl
    refine .bind h.findInterpolator? fun found => ?_
    cases found with
    | some interpolator => exact accounts_interpolation ih closing interpolator parts _
    | none =>
      refine .bind h.takeChar? fun taken => ?_
      cases taken with
      | some c => exact .bind (h.spanFrom _) fun _ => ih _ _ _
      | none => exact .stops fun _ => rfl

/-! ### Groups -/

/-- What reads on the innermost enclosure, which is a group of blocks, leaves it at last, and keeps
the account. -/
def Parse.Closes (source : List Char) (x : Parse (List Node)) : Prop :=
  ∀ (r : Reader) (start : Nat) (outer : List Enclosure), r.Accounts source →
    r.enclosures.around = ⟨.blocks, start⟩ :: outer →
    Ensures anyFault x r fun _ r' => r.Leaves source ⟨.blocks, start⟩ outer r'

/-- At the end of the source a missing mark is reported. -/
theorem filter_expectedAt (position : Nat) :
    [Problem.expectedAt position Mark.groupClose.text].filter Message.reportsUnclosed
      = [Problem.expectedAt position Mark.groupClose.text] := by
  simp [reportsUnclosed_expectedAt]

theorem closes_readGroup {fuel : Nat}
    (ih : Parse.Constructs (fun _ => Parse.Accounts source) (Parse.Closes source) fuel)
    (before : List Node) : Parse.Closes source (readGroup (fuel + 1) before) := by
  intro r start outer hr haround
  obtain ⟨hopened, hstart⟩ := hr.around ⟨.blocks, start⟩ (haround ▸ List.mem_cons_self)
  rw [readGroup, ensures_bind, ensures_isAtEnd, ensures_ite]
  refine ⟨fun hend => ?_, fun _ => ?_⟩
  · have hstop := hr.anchored.position_of_end (List.isEmpty_iff.mp hend)
    exact hr.leave haround false _
      ⟨hopened, hstart, hr.anchored.position, fun h => absurd h Bool.false_ne_true,
        fun _ _ => hstop⟩
      (filter_expectedAt r.cursor.position)
  rw [ensures_bind]
  refine (accounts_accept .groupClose hr).mono ?_
  rintro found r₁ ⟨h₁, hmark⟩
  have haround₁ := h₁.around.trans haround
  cases found with
  | true =>
    have hread : Mark.groupClose.text.toList <:+ cut source start r₁.cursor.position :=
      suffix_cut (hmark ▸ List.suffix_refl _) hstart h₁.forward
    have hleft := h₁.accounts.leave haround₁ true []
      ⟨hopened, Nat.le_trans hstart h₁.forward, h₁.accounts.anchored.position, fun _ => hread,
        fun h => absurd h.symm Bool.false_ne_true⟩ rfl
    exact hleft.behind h₁
  | false =>
    simp only [Bool.false_eq_true, if_false, ensures_bind]
    refine (ih.block r₁ h₁.accounts).mono fun nodes r₂ h₂ => ?_
    refine (basic_accounts.skipLines 1 r₂ h₂.accounts).mono fun _ r₃ h₃ => ?_
    have hread := h₁.trans (h₂.trans h₃)
    exact (ih.group _ r₃ start outer h₃.accounts (hread.around.trans haround)).mono
      fun _ _ h => h.behind hread

theorem ensures_enterGroup {r r₁ : Reader} (h₁ : r.AccountsTo source r₁)
    (hmark : cut source r.cursor.position r₁.cursor.position = Mark.groupOpen.text.toList) :
    Ensures anyFault enterGroup r₁ fun _ r' => ∃ start,
      OpeningLine source r.cursor.position start ∧
      r.Reaches source (⟨.blocks, start⟩ :: r.enclosures.around) r' := by
  simp only [enterGroup, ensures_bind, ensures_modify, ensures_enter]
  have hgrouped : r.AccountsTo source { r₁ with openGroups := r₁.openGroups + 1 } :=
    h₁.trans (h₁.accounts.goes (.refl _) rfl rfl rfl)
  refine (accounts_endLine hgrouped.accounts).mono ?_
  rintro _ r₂ ⟨h₂, hline⟩
  have hopened := openingLine hgrouped hmark h₂ hline
  have hinside := h₂.accounts.enter .blocks fun _ => ⟨_, (hgrouped.trans h₂).forward, hopened⟩
  refine (basic_accounts.skipLines 1 _ hinside.accounts).mono fun _ r₃ h₃ => ⟨_, hopened, ?_⟩
  have hbefore := hgrouped.trans h₂
  rw [← hbefore.around]
  exact (hinside.trans h₃).behind hbefore

/-- A group of blocks is entered behind its mark, and left in the end. -/
theorem ensures_openGroup {fuel : Nat} {r r₁ : Reader}
    (ih : Parse.Constructs (fun _ => Parse.Accounts source) (Parse.Closes source) fuel)
    (h₁ : r.AccountsTo source r₁)
    (hmark : cut source r.cursor.position r₁.cursor.position = Mark.groupOpen.text.toList) :
    Ensures anyFault (openGroup fuel) r₁ fun _ r' => r.ReadsGroup source .blocks r' := by
  rw [openGroup_eq, ensures_bind]
  refine (ensures_enterGroup h₁ hmark).mono ?_
  rintro _ r₂ ⟨start, hopened, h₂⟩
  rw [ensures_bind]
  refine (ih.group [] r₂ start _ h₂.accounts h₂.around).mono fun nodes r₃ h₃ => ?_
  have hleaves := h₃.behind h₂
  exact ⟨start, hopened, hleaves.trans (h₃.accounts.goes (.refl _) rfl rfl rfl) rfl⟩

theorem accounts_groupOr {fuel : Nat} {other : Parse (List Node)}
    (ih : Parse.Constructs (fun _ => Parse.Accounts source) (Parse.Closes source) fuel)
    (hother : Parse.Accounts source other) :
    Parse.Accounts source
      (accept .groupOpen >>= fun opened => if opened then openGroup fuel else other) := by
  intro r hr
  rw [ensures_bind]
  refine (accounts_accept .groupOpen hr).mono ?_
  rintro opened r₁ ⟨h₁, hmark⟩
  cases opened with
  | false => exact (hother r₁ h₁.accounts).mono fun _ _ h => h₁.trans h
  | true => exact (ensures_openGroup ih h₁ hmark).mono fun _ _ ⟨_, _, hleaves⟩ => hleaves.toReaches

/-! ### Raw text that is read -/

theorem accounts_readRaw (start : Nat) : Parse.Accounts source (readRaw start false) := by
  have h := @basic_accounts source
  refine h.bind h.position fun _ => h.look (fun _ => rfl) fun r => h.bind (h.advance _) fun _ => ?_
  refine h.bind h.pure fun _ => ?_
  rw [RawText.ofChars, RawText.unclosed_scan_plain]
  exact h.bind (h.spanFrom _) fun _ => h.bind h.lift fun _ => h.pure

theorem ensures_readRaw_group {start : Nat} {r : Reader} {outer : List Enclosure}
    (hr : r.Accounts source) (haround : r.enclosures.around = ⟨.raw, r.cursor.position⟩ :: outer) :
    Ensures anyFault (readRaw start true) r fun _ r' =>
      r.Leaves source ⟨.raw, r.cursor.position⟩ outer r' := by
  obtain ⟨hopened, -⟩ := hr.around _ (haround ▸ List.mem_cons_self)
  have hmove := hr.move (Cursor.passes_advance _ (RawText.ofChars true r.cursor.rest).length)
  have hends : (RawText.ofChars true r.cursor.rest).Ends 0 r.cursor.rest
      (endsBlank false r.cursor.rest) := RawText.scan_ends r.cursor.rest "" 0 none
  simp only [readRaw, leaveRaw, if_true, moveCursor, spanFrom, ensures_bind, ensures_position,
    ensures_get, ensures_modify, ensures_leave, ensures_ite]
  generalize RawText.ofChars true r.cursor.rest = raw at hmove hends ⊢
  have hread : cut source r.cursor.position (r.cursor.advance raw.length).position
      = r.cursor.rest.take raw.length := (Cursor.reads_advance _ _).cut_eq hr.anchored
  cases hends with
  | closed passed behind hahead hlength hclosed hunclosed =>
    have hmark : Mark.groupClose.text.toList
        <:+ cut source r.cursor.position (r.cursor.advance raw.length).position := by
      rw [hread, hahead, hlength, ← List.append_assoc, Nat.zero_add, List.take_left]
      exact List.suffix_append _ _
    have hleft := hmove.accounts.leave haround raw.closed []
      ⟨hopened, hmove.forward, hmove.accounts.anchored.position, fun _ => hmark,
        fun hopen => absurd (hopen.symm.trans hclosed) Bool.false_ne_true⟩
      (by simp [Ending.isReported, hclosed])
    refine ⟨fun h => absurd (hunclosed.symm.trans h) Bool.false_ne_true, fun _ => ?_⟩
    exact ensures_checked_any (ensures_checked_any (hleft.behind hmove))
  | exhausted hlength hclosed hunclosed =>
    have hstop : (r.cursor.advance raw.length).position = source.length := by
      refine hmove.accounts.anchored.position_of_end ?_
      rw [hlength, Nat.zero_add]
      exact List.drop_length
    have haccurate : Ending.Accurate source
        ⟨⟨.raw, r.cursor.position⟩, (r.cursor.advance raw.length).position, raw.closed⟩ :=
      ⟨hopened, hmove.forward, hmove.accounts.anchored.position,
        fun h => absurd (hclosed.symm.trans h) Bool.false_ne_true, fun _ _ => hstop⟩
    have hreported : Ending.isReported source
        ⟨⟨.raw, r.cursor.position⟩, (r.cursor.advance raw.length).position, raw.closed⟩
          = raw.unclosed := by
      simp only [Ending.isReported, hclosed, hunclosed, hr.anchored.rest, Bool.not_false,
        Bool.true_and]
    refine ⟨fun h => ?_, fun h => ?_⟩
    · have hleft := hmove.accounts.leave haround _ _ haccurate
        ((filter_expectedAt (r.cursor.advance raw.length).position).trans
          (by simp [hreported, h, Ending.report]))
      exact ensures_checked_any (ensures_checked_any (hleft.behind hmove))
    · have hleft := hmove.accounts.leave haround _ [] haccurate
        (by simp [hreported, h])
      exact ensures_checked_any (ensures_checked_any (hleft.behind hmove))

/-- The body of a preformatted modifier, which is a group if its mark is next. -/
theorem ensures_readPreformatted_group {r : Reader} (hr : r.Accounts source) :
    Ensures anyFault readPreformatted r fun _ r' => r.AccountsTo source r' ∧
      (r.cursor.peek Mark.groupOpen.text = true → r.ReadsGroup source .raw r') := by
  rw [readPreformatted, ensures_bind, ensures_position, ensures_bind]
  refine ((accounts_accept .groupOpen hr).and (ensures_accept_peek .groupOpen r)).mono ?_
  rintro grouped r₁ ⟨⟨h₁, hmark⟩, hfound⟩
  cases grouped with
  | false =>
    refine (accounts_readRaw _ r₁ h₁.accounts).mono fun _ _ h => ⟨h₁.trans h, fun hpeek => ?_⟩
    exact absurd (hfound.trans hpeek) Bool.false_ne_true
  | true =>
    simp only [if_true, ensures_bind, ensures_enter]
    refine (accounts_endLine h₁.accounts).mono ?_
    rintro _ r₂ ⟨h₂, hline⟩
    have hopened := openingLine h₁ hmark h₂ hline
    have hbefore := h₁.trans h₂
    have hinside := h₂.accounts.enter .raw fun _ => ⟨_, hbefore.forward, hopened⟩
    refine (ensures_readRaw_group hinside.accounts rfl).mono fun node r₃ h₃ => ?_
    have hleaves := (h₃.behind hinside).behind hbefore
    rw [hbefore.around] at hleaves
    exact ⟨hleaves.toReaches, fun _ => ⟨_, hopened, hleaves⟩⟩

/-- **The account is kept over interpolations and groups.** -/
theorem encloses_accounts :
    Encloses (fun _ => Parse.Accounts source) (Parse.Closes source) where
  readEntities fuel closing parts stop := (accounts_readEntities fuel closing parts stop).accounts
  readPreformatted := fun _ hr => (ensures_readPreformatted_group hr).mono fun _ _ h => h.1
  groupOr := accounts_groupOr
  readGroup := closes_readGroup
  unread := fun _ _ _ _ _ => trivial

/-! ### Modifiers and sources -/

/-- **A modifier keeps the account if its body does**: what it is expanded to is processed behind
it, and nothing is reported there about how the source is written. -/
theorem accounts_readModifier (fuel : Nat)
    (hread : ∀ kind head, Parse.Accounts source (readBody fuel kind head)) (kind : ModifierKind) :
    Parse.Accounts source (readModifier (fuel + 1) kind) := by
  have h := @basic_accounts source
  refine h.bind (h.readHead encloses_accounts.readEntities kind) fun head r hr => ?_
  have hlife := locates head.modifier.located_anywhere.definition
  simp only [ensures_bind, ensures_expanding, ensures_immediate, ensures_get, ensures_pure]
  refine (elaborates_reporting (hlife.beforeContent head.modifier _
    head.modifier.located_anywhere) r.engine).mono ?_
  rintro state opened ⟨hopened, hstate⟩
  simp only [Expand.enterBody, ensures_modify]
  have hinside : r.AccountsTo source { r with engine := { opened with
      delayDepth := opened.delayDepth + head.modifier.definition.delaysContent.toNat } } :=
    hr.elaborate ⟨hopened.syntaxMessages, hopened.referring⟩
  refine (hread kind head _ hinside.accounts).mono ?_
  rintro ⟨content, continues⟩ r₁ h₁
  refine (h.wholeSpan head r₁ h₁.accounts).mono fun span r₂ h₂ => ?_
  simp only [Expand.leaveBody, ensures_modify]
  refine (elaborates_inContext (hlife.afterContent state hstate) { r₂.engine with
    delayDepth := r₂.engine.delayDepth - head.modifier.definition.delaysContent.toNat }).mono ?_
  rintro state' outside ⟨houtside, hstate'⟩
  refine (elaborates_expandRead (elaborates_process outside.levels)
    (m := { head.modifier with span := span, content := content }) hstate').mono fun _ e he => ?_
  have hends : r₂.engine.Elaborates e :=
    ⟨he.syntaxMessages.trans houtside.syntaxMessages, he.referring.trans houtside.referring⟩
  exact hinside.trans (h₁.trans (h₂.trans (h₂.accounts.elaborate hends)))

theorem ensures_readBlock_group (fuel : Nat) {r : Reader} (hr : r.Accounts source)
    (hpeek : r.cursor.peek Mark.groupOpen.text = true) :
    Ensures anyFault (readBlock fuel) r fun _ r' => r.ReadsGroup source .blocks r' := by
  cases fuel with
  | zero => exact trivial
  | succ fuel =>
    have ih := (@basic_accounts source).constructs encloses_accounts accounts_readModifier fuel
    obtain ⟨ahead, hahead⟩ := List.isPrefixOf_iff_prefix.mp hpeek
    rw [readBlock, ensures_bind]
    refine (accounts_fireInspectors hr).mono ?_
    rintro _ r₁ ⟨h₁, hrest, hposition⟩
    have hopens : ∀ mark : Mark, r₁.cursor.peek mark.text
        = mark.text.toList.isPrefixOf (Mark.groupOpen.text.toList ++ ahead) := by
      intro mark
      rw [Cursor.peek, hrest, hahead]
    have hblock : r₁.cursor.peek Mark.blockOpen.text = false := hopens .blockOpen
    have hsystem : r₁.cursor.peek Mark.systemOpen.text = false := hopens .systemOpen
    rw [ensures_bind, ensures_peek, hblock, if_neg Bool.false_ne_true]
    rw [ensures_bind, ensures_peek, hsystem, if_neg Bool.false_ne_true, ensures_bind]
    refine ((accounts_accept .groupOpen h₁.accounts).and (ensures_accept_peek _ r₁)).mono ?_
    rintro found r₂ ⟨⟨h₂, hmark⟩, hfound⟩
    obtain rfl : found = true := hfound.trans (hopens .groupOpen)
    rw [hposition] at hmark
    exact ensures_openGroup ih (h₁.trans h₂) hmark

theorem Reader.accounts_start (cx : Context) (source : String) :
    (Reader.start cx source []).Accounts source.toList :=
  ⟨⟨rfl, Nat.zero_le _⟩, rfl, List.forall_mem_nil _, List.forall_mem_nil _, rfl⟩

def Context.enclosures (cx : Context) (source : String) : Enclosures :=
  match readSource (readingDepth source.toList.length) (.start cx source []) with
  | .ok (_, r) => r.enclosures
  | .error _ => ⟨[], []⟩

/-- **Groups that are not closed are reported, but for those of raw text that end in mid-line.**
In a well-formed context there is a document.  All groups and interpolations that were entered were
left, and the record of them is accurate: a group starts behind a line that opens it, and goes up to
its closing mark, or else to the end of the source.  The messages that a mark `--:` is missing are,
in this order, one for each group of blocks that is not closed, at its end, one for each group of
raw text that is not closed and ends on a blank line behind the one that opens it, and one for each
interpolation that this mark should close and does not; there are none for what is closed.

No group is missing in the record: wherever a block starts with a mark `:--`, and wherever the body
of a preformatted modifier does, that group is put on record. -/
theorem unclosed_groups_reported (cx : Context) (source : String) :
    (cx.Stores .placed → ∃ d, cx.parse source = .ok d) ∧
    (∀ d, cx.parse source = .ok d →
      (cx.enclosures source).around = [] ∧
      (∀ x ∈ (cx.enclosures source).left, x.Accurate source.toList) ∧
      d.messages.filter Message.reportsUnclosed
        = ((cx.enclosures source).left.reverse.filter (·.isReported source.toList)).map
            Ending.report) ∧
    ∀ r r' : Reader, r.Accounts source.toList → r.cursor.peek Mark.groupOpen.text = true →
      (∀ fuel nodes, readBlock fuel r = .ok (nodes, r') → r.ReadsGroup source.toList .blocks r') ∧
      ∀ node, readPreformatted r = .ok (node, r') → r.ReadsGroup source.toList .raw r' := by
  refine ⟨fun hcx => (parse_ends hcx source).imp fun d hd => hd.1, fun d hd => ?_,
    fun r r' hr hpeek => ⟨fun fuel nodes hrun => ?_, fun node hrun => ?_⟩⟩
  · rw [Context.parse_eq_read] at hd
    obtain ⟨content, r, hrun, rfl⟩ := Context.exists_readSource_of_read hd
    have hreads : Parse.Accounts source.toList (readSource (readingDepth source.toList.length)) :=
      basic_accounts.readSource encloses_accounts accounts_readModifier _
    have hends := (hreads _ (Reader.accounts_start cx source)).of_ok hrun
    have henclosures : cx.enclosures source = r.enclosures := by
      rw [Context.enclosures, hrun]
    rw [henclosures]
    exact ⟨hends.around, hends.accounts.left, hends.accounts.messages⟩
  · exact (ensures_readBlock_group fuel hr hpeek).of_ok hrun
  · exact ((ensures_readPreformatted_group hr).of_ok hrun).2 hpeek

/-- A group of raw text that is closed, one that ends in mid-line, and a group of blocks around both
that is reported.  Read as raw text, the group of blocks would be closed where the first one is. -/
theorem unclosed_groups_reported_raw :
    let source := ":--\n[.raw]\n:--\na\n--:\n[.raw]\n:--\nb"
    let endings : List Ending :=
      [⟨⟨.raw, 15⟩, 20, true⟩, ⟨⟨.raw, 32⟩, 33, false⟩, ⟨⟨.blocks, 4⟩, 33, false⟩]
    ∃ cx d block node, Context.start Builtin.configuration .empty = .ok cx ∧ cx.Stores .placed ∧
      cx.parse source = .ok d ∧
      (cx.enclosures source).left.reverse = endings ∧
      (∀ x ∈ (cx.enclosures source).left, x.Accurate source.toList) ∧
      d.messages.filter Message.reportsUnclosed = [Problem.expectedAt 33 "--:"] ∧
      readBlock 99 (.start cx source []) = .ok block ∧
      (Reader.start cx source []).ReadsGroup source.toList .blocks block.2 ∧
      readPreformatted (.start cx source []) = .ok node ∧
      (Reader.start cx source []).ReadsGroup source.toList .raw node.2 := by
  intro source endings
  obtain ⟨cx, hcx⟩ : ∃ cx, Context.start Builtin.configuration .empty = .ok cx := ⟨_, rfl⟩
  have hstores : cx.Stores .placed := (Builtin.placed_start hcx).1
  have hrun : (Context.start Builtin.configuration .empty).toOption.map
      (fun cx => ((cx.enclosures source).left.reverse,
        (readBlock 99 (.start cx source [])).isOk, (readPreformatted (.start cx source [])).isOk))
      = some (endings, true, true) := by
    decide +kernel
  rw [hcx] at hrun
  obtain ⟨hleft, hblock, hnode⟩ : (cx.enclosures source).left.reverse = endings ∧
      (readBlock 99 (.start cx source [])).isOk = true ∧
      (readPreformatted (.start cx source [])).isOk = true := by
    simpa only [Prod.mk.injEq] using Option.some.inj hrun
  obtain ⟨hends, hreports, hrecords⟩ := unclosed_groups_reported cx source
  obtain ⟨d, hd⟩ := hends hstores
  obtain ⟨-, haccurate, hmessages⟩ := hreports d hd
  have hreported : endings.filter (·.isReported source.toList) = [⟨⟨.blocks, 4⟩, 33, false⟩] := by
    decide
  rw [hleft, hreported] at hmessages
  have hopens : Mark.groupOpen.text.toList.isPrefixOf source.toList = true := by
    decide
  have hgroup := fun r' => hrecords _ r' (Reader.accounts_start cx source) hopens
  cases hreads : readBlock 99 (.start cx source []) with
  | error fault =>
    rw [hreads] at hblock
    cases hblock
  | ok block =>
    cases hraw : readPreformatted (.start cx source []) with
    | error fault =>
      rw [hraw] at hnode
      cases hnode
    | ok node =>
      exact ⟨cx, d, block, node, hcx, hstores, hd, hleft, haccurate, hmessages, hreads,
        (hgroup _).1 _ _ hreads, hraw, (hgroup _).2 _ hraw⟩

end MacroMarkup
