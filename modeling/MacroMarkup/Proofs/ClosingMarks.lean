import MacroMarkup.Proofs.Calls
import MacroMarkup.Proofs.Standing
import MacroMarkup.Proofs.UnclosedGroups

/-!
# Closing marks where a block may start

In a group a block may start behind another one and behind the head of a modifier.  At the first
place a mark `--:` closes the group; at the second nobody looks for it, and it is read as text.

* `Reader.InGroups`: the groups that are counted are the enclosures around a reader.
* `Call.Stands`: what holds wherever a construct is called.  `Call.Asks.stands`, `Calls.stands`:
  **it holds at every call**.
* `Node.StartsWithClose`: a paragraph or raw text whose first characters are the mark.
* `exists_body_of_paragraph`: **a paragraph that starts with the mark in a group is a body.**
* `closesGroup_of_readGroup`, `startsWithClose_of_readBody`: what becomes of the mark at the two
  places.
* `closing_mark_read_as_body`: **where a closing mark is read as text**, in all that a source calls.
-/

namespace MacroMarkup

open Parse

/-! ### Where constructs are called -/

/-- The reader accounts for the enclosures around it, which are groups of blocks, as many as it
counts. -/
structure Reader.InGroups (source : List Char) (r : Reader) : Prop where
  accounts : r.Accounts source
  count : r.enclosures.around.length = r.openGroups
  kinds : ∀ x ∈ r.enclosures.around, x.kind = .blocks

/-- Where a construct may be called: the blocks of a source in no group, those of a group in one. -/
def Construct.Fits (openGroups : Nat) : Construct → Prop
  | .blocks _ => openGroups = 0
  | .group _ => openGroups ≠ 0
  | .modifier kind => kind ≠ .inline
  | .body kind _ => kind ≠ .inline
  | _ => True

structure Call.Stands (source : List Char) (c : Call) : Prop where
  inGroups : c.reader.InGroups source
  fits : c.construct.Fits c.reader.openGroups

variable {source : List Char} {r r' : Reader}

theorem Reader.InGroups.keeps (h : r.InGroups source) (hto : r.AccountsTo source r')
    (hopen : r'.openGroups = r.openGroups) : r'.InGroups source :=
  ⟨hto.accounts, by rw [hto.around, hopen, h.count], hto.around ▸ h.kinds⟩

theorem Reader.InGroups.run {α : Type} {x : Parse α} {a : α} (h : r.InGroups source)
    (haccounts : Parse.Accounts source x) (hquiet : x.Quiet) (hrun : x r = .ok (a, r')) :
    r'.InGroups source ∧ r'.openGroups = r.openGroups := by
  have hopen := ((hquiet r).of_ok hrun).2
  exact ⟨h.keeps ((haccounts r h.accounts).of_ok hrun) hopen, hopen⟩

theorem accounts_beginModifier (kind : ModifierKind) :
    Parse.Accounts source (beginModifier kind) := by
  refine basic_accounts.bind (basic_accounts.readHead encloses_accounts.readEntities kind)
    fun head r hr => ?_
  have hlife := locates head.modifier.located_anywhere.definition
  simp only [ensures_bind, ensures_expanding, ensures_immediate, ensures_pure]
  refine (elaborates_reporting (hlife.beforeContent head.modifier _
    head.modifier.located_anywhere) r.engine).mono ?_
  rintro state opened ⟨hopened, -⟩
  simp only [Expand.enterBody, ensures_modify]
  exact hr.elaborate ⟨hopened.syntaxMessages, hopened.referring⟩

theorem Reader.InGroups.readBlock {fuel : Nat} {nodes : List Node} (h : r.InGroups source)
    (hrun : readBlock fuel r = .ok (nodes, r')) :
    r'.InGroups source ∧ r'.openGroups = r.openGroups := by
  have hconstructs :=
    (@basic_accounts source).constructs encloses_accounts accounts_readModifier fuel
  have hopen : r'.openGroups = r.openGroups :=
    (((constructs .anything fuel).block r trivial (.inl trivial)).of_ok hrun).1.openGroups
  exact ⟨h.keeps ((hconstructs.block r h.accounts).of_ok hrun) hopen, hopen⟩

theorem Reader.InGroups.fireInspectors (h : r.InGroups source)
    (hrun : fireInspectors r = .ok ((), r')) :
    r'.InGroups source ∧ r'.openGroups = r.openGroups ∧ r'.cursor.rest = r.cursor.rest := by
  have hto := (basic_accounts.fireInspectors r h.accounts).of_ok hrun
  cases hrun
  exact ⟨h.keeps hto rfl, rfl, rfl⟩

/-- Behind its mark a group is one more enclosure. -/
theorem Reader.InGroups.enterGroup {r₁ r₂ : Reader} (h : r.InGroups source)
    (haccept : accept .groupOpen r = .ok (true, r₁)) (henter : enterGroup r₁ = .ok ((), r₂)) :
    r₂.InGroups source ∧ r₂.openGroups = r.openGroups + 1 := by
  obtain ⟨h₁, hmark⟩ := (accounts_accept .groupOpen h.accounts).of_ok haccept
  have hcount₁ : r₁.openGroups = r.openGroups :=
    ((recording_quiet.accept .groupOpen r).of_ok haccept).2
  obtain ⟨start, -, h₂⟩ := (ensures_enterGroup h₁ hmark).of_ok henter
  have hcount : r₂.openGroups = r₁.openGroups + 1 := by
    have hquiet := recording_quiet
    obtain ⟨_, ra, hopens, henter⟩ := ok_of_bind henter
    cases hopens
    have hrest := hquiet.bind hquiet.endLine fun _ => hquiet.bind (hquiet.enter .blocks) fun _ =>
      hquiet.skipLines 1
    exact ((hrest _).of_ok henter).2
  refine ⟨⟨h₂.accounts, ?_, ?_⟩, by rw [hcount, hcount₁]⟩
  · rw [h₂.around, List.length_cons, h.count, hcount, hcount₁]
  · rw [h₂.around]
    exact List.forall_mem_cons.mpr ⟨rfl, h.kinds⟩

/-- **A call is made where it may be**, if the call that makes it is. -/
theorem Call.Asks.stands {c d : Call} (hasks : c.Asks d) (h : c.Stands source) :
    d.Stands source := by
  obtain ⟨hr, hfits⟩ := h
  cases hasks with
  | block hmore => exact ⟨hr, trivial⟩
  | blocks hmore hblock hskip =>
    obtain ⟨h₁, hcount₁⟩ := hr.readBlock hblock
    obtain ⟨h₂, hcount₂⟩ :=
      h₁.run (basic_accounts.skipWhile _) (recording_quiet.skipWhile _) hskip
    exact ⟨h₂, hcount₂.trans (hcount₁.trans hfits)⟩
  | @modifier _ kind _ _ hshow hmark =>
    refine ⟨(hr.fireInspectors hshow).1, ?_⟩
    rintro rfl
    -- the mark of an inline modifier starts no block
    have hmem := List.mem_of_find?_eq_some hmark
    simp [ModifierKind.opening] at hmem
  | group hshow hmark haccept henter =>
    obtain ⟨h₂, hcount⟩ := (hr.fireInspectors hshow).1.enterGroup haccept henter
    exact ⟨h₂, hcount ▸ Nat.succ_ne_zero _⟩
  | paragraph hshow hmark => exact ⟨(hr.fireInspectors hshow).1, trivial⟩
  | groupBlock hmore hopen => exact ⟨hr, trivial⟩
  | groupRest hmore hopen hblock hskip =>
    obtain ⟨h₁, hcount₁⟩ := hr.readBlock hblock
    obtain ⟨h₂, hcount₂⟩ := h₁.run (basic_accounts.skipLines 1) (recording_quiet.skipLines 1) hskip
    exact ⟨h₂, (hcount₂.trans hcount₁) ▸ hfits⟩
  | body hbegin =>
    exact ⟨(hr.run (accounts_beginModifier _) (beginModifier_quiet _) hbegin).1, hfits⟩
  | bodyBlock hkind hhead hskip hmore hslot =>
    exact ⟨(hr.run (basic_accounts.skipLines 1) (recording_quiet.skipLines 1) hskip).1, trivial⟩

/-- **Every call is made where it may be.** -/
theorem Context.Calls.stands {cx : Context} {source : String} {c : Call} (h : cx.Calls source c) :
    c.Stands source.toList := by
  obtain ⟨r, hskip, hreaches⟩ := h
  induction hreaches with
  | refl =>
    have hstart : (Reader.start cx source []).InGroups source.toList :=
      ⟨Reader.accounts_start cx source, rfl, List.forall_mem_nil _⟩
    obtain ⟨h, hcount⟩ :=
      hstart.run (basic_accounts.skipWhile _) (recording_quiet.skipWhile _) hskip
    exact ⟨h, hcount⟩
  | tail _ hasks ih => exact hasks.stands ih

/-! ### A mark that is read as text -/

/-- A paragraph or raw text that starts here with the characters of a closing mark. -/
inductive Node.StartsWithClose (position : Nat) : Node → Prop
  | paragraph {stop textStop : Nat} {more : String} {rest : List Node} :
      StartsWithClose position (.paragraph ⟨position, stop⟩
        (.text ⟨position, textStop⟩ (Mark.groupClose.text ++ more) :: rest))
  | preformatted {stop textStop : Nat} {more : String} :
      StartsWithClose position (.preformatted ⟨position, stop⟩ ⟨position, textStop⟩
        (Mark.groupClose.text ++ more))

/-- The first node that was read, which stands last, is text that starts so. -/
def StartsWithText (start : Nat) (content : String) (before : List Node) : Prop :=
  ∃ stop more, before.getLast? = some (.text ⟨start, stop⟩ (content ++ more))

namespace StartsWithText

variable {start : Nat} {content : String} {before : List Node}

theorem push (h : StartsWithText start content before) (node : Node) :
    StartsWithText start content (node :: before) := by
  obtain ⟨stop, more, hlast⟩ := h
  cases before with
  | nil => cases hlast
  | cons n rest => exact ⟨stop, more, by rw [List.getLast?_cons_cons, hlast]⟩

theorem appendText (h : StartsWithText start content before) (text : String) (span : Span) :
    StartsWithText start content (appendText text span before) := by
  unfold MacroMarkup.appendText
  split
  · rename_i s c rest
    obtain ⟨stop, more, hlast⟩ := h
    cases rest with
    | nil =>
      obtain ⟨rfl, rfl⟩ : s = ⟨start, stop⟩ ∧ c = content ++ more := by simpa using hlast
      exact ⟨span.stop, more ++ text, by simp [String.append_assoc]⟩
    | cons n rest =>
      rw [List.getLast?_cons_cons] at hlast
      exact ⟨stop, more, by rw [List.getLast?_cons_cons, hlast]⟩
  · exact h.push _

theorem readCharacter (h : StartsWithText start content before) (r : Reader) :
    Ensures anyFault (readCharacter before) r fun read _ =>
      StartsWithText start content read.1 := by
  simp only [Parse.readCharacter, ensures_bind, ensures_position]
  refine ensures_of_forall fun broken r₁ => ?_
  cases broken with
  | true =>
    simp only [if_true, ensures_bind]
    refine ensures_of_forall fun _ r₂ => ?_
    simp only [ensures_get, ensures_peek, ensures_isAtEnd, ensures_ite]
    refine ⟨fun _ => h, fun _ => ?_⟩
    rw [ensures_bind]
    refine ensures_of_forall fun blank r₃ => ?_
    cases blank with
    | true =>
      simp only [if_true, ensures_bind]
      exact ensures_of_forall fun _ _ => h
    | false =>
      simp only [Bool.false_eq_true, if_false, ensures_bind]
      exact ensures_of_forall fun span _ => h.appendText _ span
  | false =>
    simp only [Bool.false_eq_true, if_false, ensures_bind]
    refine ensures_of_forall fun taken r₂ => ?_
    cases taken with
    | none => exact h
    | some c =>
      simp only [ensures_bind]
      exact ensures_of_forall fun span _ => h.appendText _ span

theorem readInline (h : StartsWithText start content before) (fuel : Nat) (r : Reader) :
    Ensures anyFault (readInline fuel before) r fun read _ =>
      StartsWithText start content read.1 := by
  cases fuel with
  | zero => exact trivial
  | succ fuel =>
    simp only [Parse.readInline, ensures_bind, ensures_peek, ensures_ite]
    refine ⟨fun _ => ?_, fun _ => ⟨fun _ => ?_, fun _ => ⟨fun _ => h, fun _ => ?_⟩⟩⟩
    · simp only [ensures_position]
      exact ensures_of_forall fun _ _ => h
    · exact ensures_of_forall fun answer _ => h.push _
    rw [ensures_position]
    refine ensures_of_forall fun escaped r₁ => ?_
    cases escaped with
    | true =>
      simp only [ensures_bind, readEscaped]
      refine ⟨fun _ => ensures_of_forall fun taken r₂ => ?_, fun h => absurd trivial h⟩
      cases taken with
      | none =>
        simp only [ensures_bind]
        exact ensures_of_forall fun span _ => h.appendText _ span
      | some c =>
        simp only [ensures_bind]
        exact ensures_of_forall fun span _ => h.push _
    | false => exact ⟨fun hfound => absurd hfound Bool.false_ne_true, fun _ => h.readCharacter r₁⟩

/-- **A paragraph starts with the text with which it started.** -/
theorem readParagraph (fuel : Nat) : ∀ {before : List Node}, StartsWithText start content before →
    ∀ r : Reader, Ensures anyFault (readParagraph fuel before) r fun nodes _ =>
      ∃ stop more rest, nodes = .text ⟨start, stop⟩ (content ++ more) :: rest := by
  induction fuel with
  | zero => exact fun _ _ => trivial
  | succ fuel ih =>
    intro before h r
    -- what was read so far starts so, in order
    have hends : ∀ {nodes : List Node}, StartsWithText start content nodes →
        ∃ stop more rest, nodes.reverse = .text ⟨start, stop⟩ (content ++ more) :: rest := by
      rintro nodes ⟨stop, more, hlast⟩
      rw [← List.head?_reverse] at hlast
      obtain ⟨rest, hrest⟩ := List.head?_eq_some_iff.mp hlast
      exact ⟨stop, more, rest, hrest⟩
    simp only [Parse.readParagraph, ensures_bind, ensures_isAtEnd, ensures_ite]
    refine ⟨fun _ => hends h, fun _ => (h.readInline fuel r).mono fun read r₁ h₁ => ?_⟩
    exact ⟨fun _ => ih h₁ r₁, fun _ => hends h₁⟩

end StartsWithText

theorem ensures_readParagraph_close {fuel : Nat}
    (h : r.cursor.peek Mark.groupClose.text = true) :
    Ensures anyFault (readParagraph fuel []) r fun nodes _ => ∃ stop more rest,
      nodes = .text ⟨r.cursor.position, stop⟩ (Mark.groupClose.text ++ more) :: rest := by
  obtain ⟨text, htext⟩ := List.isPrefixOf_iff_prefix.mp h
  have hrest : r.cursor.rest = '-' :: '-' :: ':' :: text := htext.symm
  refine ensures_readParagraph_fueled hrest fun fuel₁ => ?_
  refine ensures_readParagraph_character (by decide) hrest fun r₁ hrest₁ hposition₁ _ _ => ?_
  refine ensures_readParagraph_fueled hrest₁ fun fuel₂ => ?_
  refine ensures_readParagraph_character (by decide) hrest₁ fun r₂ hrest₂ hposition₂ _ _ => ?_
  refine ensures_readParagraph_fueled hrest₂ fun fuel₃ => ?_
  refine ensures_readParagraph_character (by decide) hrest₂ fun r₃ _ _ _ _ => ?_
  exact StartsWithText.readParagraph (fuel₃ + 1) ⟨_, "", rfl⟩ r₃

/-- A closing mark at the start of raw text that is in no group of its own is text. -/
theorem RawText.ofChars_close (rest : List Char) : ∃ more,
    (ofChars false ('-' :: '-' :: ':' :: rest)).text = Mark.groupClose.text ++ more := by
  have hscan : ofChars false ('-' :: '-' :: ':' :: rest)
      = scan false Mark.groupClose.text 3 none rest := by
    rw [ofChars, scan_plain (by decide), scan_plain (by decide), scan_plain (by decide)]
    rfl
  rw [hscan]
  exact scan_starts false rest _ _ _

theorem ensures_readPreformatted_close (h : r.cursor.peek Mark.groupClose.text = true) :
    Ensures anyFault readPreformatted r fun node _ =>
      node.StartsWithClose r.cursor.position := by
  obtain ⟨text, htext⟩ := List.isPrefixOf_iff_prefix.mp h
  have hrest : r.cursor.rest = '-' :: '-' :: ':' :: text := htext.symm
  have hgroup : r.cursor.peek Mark.groupOpen.text = false := by
    rw [Cursor.peek, hrest]
    rfl
  simp only [readPreformatted, ensures_bind, ensures_position,
    ensures_of_eq (accept_of_not_peek hgroup), Bool.false_eq_true, if_false, readRaw, ensures_get,
    leaveRaw]
  obtain ⟨more, hmore⟩ := RawText.ofChars_close text
  rw [← hrest] at hmore
  generalize RawText.ofChars false r.cursor.rest = raw at hmore ⊢
  have hspans : ∀ r₁ : Reader, Ensures anyFault (spanFrom r.cursor.position) r₁ fun span r₂ =>
      Ensures anyFault (liftM (Span.checked r.cursor.position
        (r.cursor.position + raw.contentLength)) : Parse Span) r₂ fun contentSpan _ =>
          (Node.preformatted span contentSpan raw.text).StartsWithClose r.cursor.position := by
    intro r₁
    rw [spanFrom, ensures_bind, ensures_position]
    refine ensures_checked_any (ensures_checked_any ?_)
    rw [hmore]
    exact .preformatted
  refine ensures_of_forall fun _ r₁ => ?_
  simp only [ensures_ite, ensures_bind, ensures_position, ensures_pure]
  exact ⟨fun _ => ensures_of_forall fun _ r₂ => hspans r₂, fun _ => hspans r₁⟩

/-! ### Who looks for the mark -/

/-- A closing mark starts no other construct. -/
theorem Reader.blockMark?_of_close (h : r.cursor.peek Mark.groupClose.text = true) :
    r.blockMark? = none := by
  obtain ⟨text, htext⟩ := List.isPrefixOf_iff_prefix.mp h
  rw [blockMark?_eq]
  simp only [Cursor.peek, ← htext]
  rfl

theorem Reader.isAtEnd_of_close (h : r.cursor.peek Mark.groupClose.text = true) :
    r.cursor.isAtEnd = false := by
  obtain ⟨text, htext⟩ := List.isPrefixOf_iff_prefix.mp h
  rw [Cursor.isAtEnd, ← htext]
  rfl

def Construct.IsBody (construct : Construct) : Prop := ∃ kind head, construct = .body kind head

/-- A call that does not read the blocks of the source was made by another one. -/
theorem Context.Calls.exists_asks {cx : Context} {source : String} {c : Call}
    (h : cx.Calls source c) (hc : ∀ before, c.construct ≠ .blocks before) :
    ∃ d, cx.Calls source d ∧ d.Asks c := by
  obtain ⟨r, hskip, hreaches⟩ := h
  rcases hreaches.cases_tail with rfl | ⟨d, hd, hasks⟩
  · exact absurd rfl (hc [])
  · exact ⟨d, ⟨r, hskip, hd⟩, hasks⟩

/-- **A paragraph that starts with a closing mark in a group is the body of a modifier.**  The
blocks of the source are in no group, and those of a group are not read where the mark is next. -/
theorem Context.Calls.exists_body_of_paragraph {cx : Context} {source : String} {fuel : Nat}
    {r : Reader} (h : cx.Calls source ⟨fuel, .paragraph, r⟩) (hopen : r.openGroups ≠ 0)
    (hclose : r.cursor.peek Mark.groupClose.text = true) :
    ∃ body block, cx.Calls source body ∧ body.construct.IsBody ∧ body.Asks block ∧
      block.Asks ⟨fuel, .paragraph, r⟩ := by
  obtain ⟨block, hblock, hasks⟩ := h.exists_asks nofun
  cases hasks with
  | @paragraph _ s _ hshow hmark =>
    obtain ⟨-, hcount, hrest⟩ := hblock.stands.inGroups.fireInspectors hshow
    obtain ⟨asker, hasker, hasks⟩ := hblock.exists_asks nofun
    cases hasks with
    | block hmore => exact absurd (hcount.trans hasker.stands.fits) hopen
    | groupBlock hmore hmissing =>
      rw [Cursor.peek, hrest] at hclose
      exact absurd (hmissing.symm.trans hclose) Bool.false_ne_true
    | bodyBlock hkind hhead hskip hmore hslot =>
      exact ⟨_, _, hasker, ⟨_, _, rfl⟩, .bodyBlock hkind hhead hskip hmore hslot,
        .paragraph hshow hmark⟩

/-- From the first reader to the second a closing mark was read, and it closed the innermost
group. -/
def Reader.ClosesGroup (r r' : Reader) : Prop :=
  ∃ start outer, r.enclosures.around = ⟨.blocks, start⟩ :: outer ∧
    r'.cursor = r.cursor.advance Mark.groupClose.text.toList.length ∧
    r'.enclosures
      = ⟨outer, ⟨⟨.blocks, start⟩, r'.cursor.position, true⟩ :: r.enclosures.left⟩

/-- **Between the blocks of a group a closing mark closes the group.** -/
theorem closesGroup_of_readGroup {fuel : Nat} {before nodes : List Node} (hr : r.InGroups source)
    (hopen : r.openGroups ≠ 0) (hclose : r.cursor.peek Mark.groupClose.text = true)
    (hrun : readGroup fuel before r = .ok (nodes, r')) :
    nodes = before.reverse ∧ r.ClosesGroup r' := by
  cases fuel with
  | zero => cases hrun
  | succ fuel =>
    rcases readGroup_cases hrun with ⟨hend, -⟩ | ⟨-, -, rfl, rfl⟩ | ⟨-, hmissing, -⟩
    · exact absurd ((Reader.isAtEnd_of_close hclose).symm.trans hend) Bool.false_ne_true
    · have hcount := hr.count
      cases haround : r.enclosures.around with
      | nil =>
        rw [haround] at hcount
        exact absurd hcount.symm hopen
      | cons inner outer =>
        obtain ⟨kind, start⟩ := inner
        obtain rfl : kind = .blocks := hr.kinds ⟨kind, start⟩ (haround ▸ List.mem_cons_self)
        refine ⟨rfl, start, outer, haround, rfl, ?_⟩
        simp only [Reader.leave, Enclosures.leave, haround]
    · exact absurd (hmissing.symm.trans hclose) Bool.false_ne_true

/-- A block that starts with a closing mark is a paragraph. -/
theorem startsWithClose_of_readBlock {fuel : Nat} {nodes : List Node}
    (hclose : r.cursor.peek Mark.groupClose.text = true)
    (hrun : readBlock fuel r = .ok (nodes, r')) :
    ∃ node, nodes = [node] ∧ node.StartsWithClose r.cursor.position := by
  cases fuel with
  | zero => cases hrun
  | succ fuel =>
    obtain ⟨r₁, hshow, hcases⟩ := readBlock_cases hrun
    obtain ⟨hrest, hposition⟩ : r₁.cursor.rest = r.cursor.rest ∧
        r₁.cursor.position = r.cursor.position := by
      cases hshow
      exact ⟨rfl, rfl⟩
    have hclose₁ : r₁.cursor.peek Mark.groupClose.text = true := by
      rwa [Cursor.peek, hrest]
    have hnone := Reader.blockMark?_of_close hclose₁
    rcases hcases with ⟨_, _, hmark, -⟩ | ⟨_, _, _, hmark, -⟩ | ⟨-, content, hparagraph, rfl⟩
    · cases hnone.symm.trans hmark
    · cases hnone.symm.trans hmark
    · obtain ⟨stop, more, rest, rfl⟩ := (ensures_readParagraph_close hclose₁).of_ok hparagraph
      exact ⟨_, rfl, hposition ▸ .paragraph⟩

/-- **Behind the head of a modifier a closing mark is read as text**, and the groups around stay
open. -/
theorem startsWithClose_of_readBody {fuel : Nat} {kind : ModifierKind} {head : Head} {r₁ : Reader}
    {nodes : List Node} {continues : Bool} (hr : r.InGroups source) (hkind : kind ≠ .inline)
    (hhead : head.isWhole = false) (hskip : skipLines 1 r = .ok ((), r₁))
    (hclose : r₁.cursor.peek Mark.groupClose.text = true)
    (hrun : readBody fuel kind head r = .ok ((nodes, continues), r')) :
    (∃ node, nodes = [node] ∧ node.StartsWithClose r₁.cursor.position) ∧
      r'.enclosures.around = r.enclosures.around ∧ r'.openGroups = r.openGroups := by
  have hconstructs :=
    (@basic_accounts source).constructs encloses_accounts accounts_readModifier fuel
  have haround := ((hconstructs.body kind head r hr.accounts).of_ok hrun).around
  have hopen := (((constructs .anything fuel).body kind head r trivial
    (.inl trivial)).of_ok hrun).1.openGroups
  refine ⟨?_, haround, hopen⟩
  cases fuel with
  | zero => cases hrun
  | succ fuel =>
    rcases readBody_cases hkind hrun with ⟨hwhole, -⟩ | ⟨-, r₂, hskip', hcases⟩
    · exact absurd (hhead.symm.trans hwhole) Bool.false_ne_true
    obtain ⟨-, rfl⟩ := ok_unique hskip hskip'
    rcases hcases with ⟨hend, -⟩ | ⟨-, -, node, hraw, hanswer⟩ | ⟨-, -, read, hblock, hanswer⟩
    · exact absurd ((Reader.isAtEnd_of_close hclose).symm.trans hend) Bool.false_ne_true
    · cases hanswer
      exact ⟨node, rfl, (ensures_readPreformatted_close hclose).of_ok hraw⟩
    · cases hanswer
      exact startsWithClose_of_readBlock hclose hblock

/-- **Where a closing mark is read as text.**  In a well-formed context there is a document, and
what is said of calls is said of the run: in a document that is read every call ends, and the blocks
that are called are those that are shown at boundaries, of which there is one more at the end.

Wherever a construct is called, the groups that are open are the enclosures around.  A paragraph
that starts with the mark `--:` in an open group is the body of a modifier.  Between the blocks of a
group the mark closes the group, the innermost one.  But where the body of a block or a system
modifier is missing, the mark is taken for it: it is read as the start of a paragraph, or of raw
text, and no group is closed. -/
theorem closing_mark_read_as_body (cx : Context) (source : String) :
    (cx.Stores .placed → ∃ d, cx.parse source = .ok d) ∧
    (∀ d, cx.parse source = .ok d →
      (∀ c, cx.Calls source c → ∃ r, c.Ends r) ∧
      ∀ b, b ∈ cx.boundaries source ↔ b = ⟨source.toList.length, d.context⟩ ∨
        ∃ fuel r, cx.Calls source ⟨fuel, .block, r⟩ ∧ b = r.boundary) ∧
    (∀ c, cx.Calls source c → c.reader.enclosures.around.length = c.reader.openGroups ∧
      ∀ x ∈ c.reader.enclosures.around, x.kind = .blocks) ∧
    (∀ fuel r, cx.Calls source ⟨fuel, .paragraph, r⟩ → r.openGroups ≠ 0 →
      r.cursor.peek Mark.groupClose.text = true →
      ∃ body block, cx.Calls source body ∧ body.construct.IsBody ∧ body.Asks block ∧
        block.Asks ⟨fuel, .paragraph, r⟩) ∧
    (∀ fuel before r, cx.Calls source ⟨fuel, .group before, r⟩ →
      r.cursor.peek Mark.groupClose.text = true → ∀ nodes r',
      readGroup fuel before r = .ok (nodes, r') → nodes = before.reverse ∧ r.ClosesGroup r') ∧
    ∀ fuel kind head r r₁, cx.Calls source ⟨fuel, .body kind head, r⟩ → head.isWhole = false →
      skipLines 1 r = .ok ((), r₁) → r₁.cursor.peek Mark.groupClose.text = true →
      ∀ nodes continues r', readBody fuel kind head r = .ok ((nodes, continues), r') →
      (∃ node, nodes = [node] ∧ node.StartsWithClose r₁.cursor.position) ∧
        r'.enclosures.around = r.enclosures.around ∧ r'.openGroups = r.openGroups := by
  refine ⟨fun hcx => (parse_ends hcx source).imp fun d hd => hd.1,
    fun d hd => Context.calls_of_parse hd, fun c hc => ?_,
    fun fuel r hc hopen hclose => hc.exists_body_of_paragraph hopen hclose,
    fun fuel before r hc hclose nodes r' hrun => ?_,
    fun fuel kind head r r₁ hc hhead hskip hclose nodes continues r' hrun => ?_⟩
  · exact ⟨hc.stands.inGroups.count, hc.stands.inGroups.kinds⟩
  · exact closesGroup_of_readGroup hc.stands.inGroups hc.stands.fits hclose hrun
  · exact startsWithClose_of_readBody hc.stands.inGroups hc.stands.fits hhead hskip hclose hrun

/-- A condition without a body in a group: the mark behind it is read as text, and another one
closes the group. -/
theorem closing_mark_read_as_body_ifndef :
    let source := ":--\n[.ifndef x]\n--:\n--:"
    ∃ cx d head before, ∃ start body text last : Reader,
      Context.start Builtin.configuration .empty = .ok cx ∧ cx.Stores .placed ∧
      cx.parse source = .ok d ∧ start.boundary ∈ cx.boundaries source ∧
      -- the place of the body
      cx.Calls source ⟨187, .body .block head, body⟩ ∧
      (∃ nodes continues after, readBody 187 .block head body = .ok ((nodes, continues), after) ∧
        (∃ node, nodes = [node] ∧ node.StartsWithClose 16) ∧
        after.enclosures.around = body.enclosures.around ∧ after.openGroups = 1) ∧
      -- the paragraph
      cx.Calls source ⟨185, .paragraph, text⟩ ∧ text.enclosures.around.length = 1 ∧
      (∃ body block, cx.Calls source body ∧ body.construct.IsBody ∧ body.Asks block ∧
        block.Asks ⟨185, .paragraph, text⟩) ∧
      -- the end of the group
      cx.Calls source ⟨189, .group before, last⟩ ∧ last.cursor.position = 20 ∧
      ∃ nodes after, readGroup 189 before last = .ok (nodes, after) ∧ nodes = before.reverse ∧
        last.ClosesGroup after := by
  intro source
  have hrun : (do
      let cx ← (Context.start Builtin.configuration .empty).toOption
      let start ← cx.call? source [0]
      let body ← cx.call? source [0, 0, 0, 0, 0]
      let text ← cx.call? source [0, 0, 0, 0, 0, 0, 0]
      let last ← cx.call? source [0, 0, 1]
      let p ← (skipLines 1 body.reader).toOption
      return ([start, body, text, last].map fun c => (c.fuel, c.construct.shape),
        [body, text].map (·.reader.openGroups),
        (p.2.cursor.position, last.reader.cursor.position),
        [p.2, text.reader, last.reader].map (·.cursor.peek Mark.groupClose.text)))
      = some ([(191, .block), (187, .body .block false), (185, .paragraph), (189, .group)],
          [1, 1], (16, 20), [true, true, true]) := by
    decide +kernel
  obtain ⟨cx, hcx, hrun⟩ := Option.bind_eq_some_iff.mp hrun
  obtain ⟨⟨_, _, start⟩, hstart, hrun⟩ := Option.bind_eq_some_iff.mp hrun
  obtain ⟨⟨_, _, body⟩, hbody, hrun⟩ := Option.bind_eq_some_iff.mp hrun
  obtain ⟨⟨_, _, text⟩, htext, hrun⟩ := Option.bind_eq_some_iff.mp hrun
  obtain ⟨⟨_, _, last⟩, hlast, hrun⟩ := Option.bind_eq_some_iff.mp hrun
  obtain ⟨⟨_, r⟩, hskip, hrun⟩ := Option.bind_eq_some_iff.mp hrun
  have hcx : Context.start Builtin.configuration .empty = .ok cx :=
    mem_toOption.mp (Option.mem_toList.mpr hcx)
  have hskip := mem_toOption.mp (Option.mem_toList.mpr hskip)
  simp only [List.map_cons, List.map_nil, pure, Option.some.injEq, Prod.mk.injEq, List.cons.injEq,
    and_true] at hrun
  obtain ⟨⟨⟨rfl, hstartShape⟩, ⟨rfl, hbodyShape⟩, ⟨rfl, htextShape⟩, rfl, hlastShape⟩,
    ⟨hbodyOpen, htextOpen⟩, ⟨hplace, hposition⟩, hclose, htextClose, hlastClose⟩ := hrun
  obtain rfl := Construct.eq_block_of_shape hstartShape
  obtain ⟨head, rfl, hwhole⟩ := Construct.eq_body_of_shape hbodyShape
  obtain rfl := Construct.eq_paragraph_of_shape htextShape
  obtain ⟨before, rfl⟩ := Construct.eq_group_of_shape hlastShape
  have hstart := Context.calls_of_call? hstart
  have hbody := Context.calls_of_call? hbody
  have htext := Context.calls_of_call? htext
  have hlast := Context.calls_of_call? hlast
  -- what is true of every source
  have hstores : cx.Stores .placed := (Builtin.placed_start hcx).1
  obtain ⟨hends, hcalls, hcounts, hparagraphs, hgroups, hbodies⟩ :=
    closing_mark_read_as_body cx source
  obtain ⟨d, hd⟩ := hends hstores
  obtain ⟨hend, hboundary⟩ := hcalls d hd
  obtain ⟨after, ⟨nodes, continues⟩, hread⟩ := hend _ hbody
  obtain ⟨closed, read, hclosed⟩ := hend _ hlast
  obtain ⟨hnode, haround, hopen⟩ := hbodies _ _ _ _ _ hbody hwhole hskip hclose _ _ _ hread
  rw [hplace] at hnode
  exact ⟨cx, d, head, before, start, body, text, last, hcx, hstores, hd,
    (hboundary _).mpr (.inr ⟨_, _, hstart, rfl⟩), hbody,
    ⟨nodes, continues, after, hread, hnode, haround, hopen.trans hbodyOpen⟩, htext,
    (hcounts _ htext).1.trans htextOpen,
    hparagraphs _ _ htext (htextOpen ▸ Nat.one_ne_zero) htextClose, hlast, hposition,
    read, closed, hclosed, hgroups _ _ _ hlast hlastClose _ _ hclosed⟩

end MacroMarkup
