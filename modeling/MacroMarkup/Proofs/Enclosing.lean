import MacroMarkup.Proofs.Elaboration
import MacroMarkup.Proofs.Primitives

/-!
# What reading tells of enclosures

A closing mark that is missing is reported at the place where the enclosure was left.  So the
messages that a group is not closed can be told from the record of the enclosures.

* `Enclosure.OpenedIn`, `Ending.Accurate`: the record tells what stands in the source: where a
  group was opened, whether its closing mark was read, and that it was read up to the end if not.
* `endsBlank`: only blanks stand behind the last line break of a text.
* `Ending.isReported`, `Ending.report`: the closing mark of a group is reported missing, and how.
* `Reader.Accounts`: the messages that a group is not closed are those of the enclosures that were
  left, one for each that is reported, and the record is accurate.
* `Reader.Reaches`, `Reader.Leaves`: from one reader to another it stays so, and an enclosure was
  the last one to be left.  `Reader.ReadsGroup`: this is the group that is opened here.
* `Accounts.enter`, `Accounts.leave`: it stays so where an enclosure starts and where it ends.
* `basic_accounts`: **all other steps keep it so.**
-/

namespace MacroMarkup

open Parse

/-! ### Enclosures in a source -/

namespace EnclosureKind

/-- The mark that should end the enclosure. -/
def closing : EnclosureKind → String
  | .interpolation closing => closing
  | _ => Mark.groupClose.text

def isGroup : EnclosureKind → Bool
  | .interpolation _ => false
  | _ => true

end EnclosureKind

/-- Blanks, and behind them a line break or nothing. -/
def EndsLine (text : List Char) : Prop :=
  ∃ blanks line, text = blanks ++ line ∧ (∀ c ∈ blanks, isBlank c = true) ∧
    (line = [] ∨ line = ['\n'])

/-- The line that opens a group stands there: its mark, and what is left of the line if that is
blank. -/
def OpeningLine (source : List Char) (start stop : Nat) : Prop :=
  ∃ line, cut source start stop = Mark.groupOpen.text.toList ++ line ∧ EndsLine line

/-- A group starts behind the line that opens it. -/
def Enclosure.OpenedIn (source : List Char) (x : Enclosure) : Prop :=
  x.kind.isGroup = true → ∃ start ≤ x.start, OpeningLine source start x.start

/-- The record of an enclosure tells what stands in the source. -/
structure Ending.Accurate (source : List Char) (x : Ending) : Prop where
  opened : x.enclosure.OpenedIn source
  forward : x.enclosure.start ≤ x.stop
  within : x.stop ≤ source.length
  /-- What was read of it ends with its closing mark, if that was read. -/
  closed : x.closed = true →
    x.enclosure.kind.closing.toList <:+ cut source x.enclosure.start x.stop
  /-- A group that is not closed goes up to the end of the source. -/
  unclosed : x.closed = false → x.enclosure.kind.isGroup = true → x.stop = source.length

/-- Only blanks stand behind the last line break of the text.  The flag says so of what is before
the text. -/
def endsBlank (blank : Bool) (text : List Char) : Bool :=
  text.foldl (fun blank c => c == '\n' || (blank && isBlank c)) blank

theorem endsBlank_cons (blank : Bool) (c : Char) (text : List Char) :
    endsBlank blank (c :: text) = endsBlank (c == '\n' || (blank && isBlank c)) text := rfl

/-- The program reports that the mark `--:` is missing at the end of the enclosure.  It does so
for each group of blocks that is not closed, but for one of raw text only if there is a line break
behind the line that opens it, and nothing but blanks behind the last one. -/
def Ending.isReported (source : List Char) (x : Ending) : Bool :=
  !x.closed &&
    match x.enclosure.kind with
    | .blocks => true
    | .raw => endsBlank false (source.drop x.enclosure.start)
    | .interpolation closing => closing == Mark.groupClose.text

def Ending.report (x : Ending) : Message := Problem.expectedAt x.stop Mark.groupClose.text

/-! ### Messages -/

/-- The message is, or repeats, one that the mark `--:` is missing. -/
def Message.reportsUnclosed (m : Message) : Bool :=
  m.severity == .error && m.code == 1 && m.info == (Problem.expected Mark.groupClose.text).info

theorem Problem.info_expected_inj {what other : String}
    (h : (expected what).info = (expected other).info) : what = other :=
  (String.append_right_inj _).mp ((String.append_left_inj _).mp h)

/-- Among all problems only this one has such messages. -/
theorem reportsUnclosed_message (p : Problem) (span : Span) :
    (p.message span).reportsUnclosed = decide (p = .expected Mark.groupClose.text) := by
  cases p with
  | expected what =>
    have hinfo : (Problem.expected what).info = (Problem.expected Mark.groupClose.text).info
        ↔ what = Mark.groupClose.text := ⟨Problem.info_expected_inj, fun h => h ▸ rfl⟩
    simp only [Message.reportsUnclosed, Problem.message, Message.ofSpan, Problem.severity,
      Problem.code, beq_self_eq_true, Bool.true_and, Problem.expected.injEq, ← hinfo]
    rfl
  | _ =>
    simp [Message.reportsUnclosed, Problem.message, Message.ofSpan, Problem.severity, Problem.code]

theorem reportsUnclosed_expectedAt (position : Nat) (what : String) :
    (Problem.expectedAt position what).reportsUnclosed = (what == Mark.groupClose.text) := by
  rw [Problem.expectedAt, reportsUnclosed_message, Bool.eq_iff_iff, decide_eq_true_iff, beq_iff_eq,
    Problem.expected.injEq]

theorem Message.isSyntactic_of_reportsUnclosed {m : Message} (h : m.reportsUnclosed = true) :
    m.isSyntactic = true := by
  simp only [reportsUnclosed, Bool.and_eq_true, beq_iff_eq] at h
  exact decide_eq_true (by omega)

namespace Engine

variable {e e' : Engine}

def unclosedMessages (e : Engine) : List Message := e.messages.filter Message.reportsUnclosed

theorem unclosedMessages_eq (e : Engine) :
    e.unclosedMessages = e.syntaxMessages.filter Message.reportsUnclosed := by
  rw [unclosedMessages, syntaxMessages, List.filter_filter]
  refine List.filter_congr fun m _ => ?_
  cases h : m.reportsUnclosed with
  | true => simp [Message.isSyntactic_of_reportsUnclosed h]
  | false => rfl

theorem Elaborates.unclosedMessages (h : e.Elaborates e') :
    e'.unclosedMessages = e.unclosedMessages := by
  rw [unclosedMessages_eq, unclosedMessages_eq, h.syntaxMessages]

theorem unclosedMessages_emit (hreferring : e.referring = []) (messages : List Message) :
    (e.emit messages).unclosedMessages
      = e.unclosedMessages ++ messages.filter Message.reportsUnclosed := by
  simp [unclosedMessages, Engine.messages, emit, hreferring]

end Engine

/-! ### Readers -/

/-- The reader stands in the source, outside of all processing, and the record of the enclosures
is accurate.  The messages so far that a group is not closed are those of the enclosures that were
left, in the order in which they were. -/
structure Reader.Accounts (source : List Char) (r : Reader) : Prop where
  anchored : r.cursor.Anchored source
  referring : r.engine.referring = []
  around : ∀ x ∈ r.enclosures.around, x.OpenedIn source ∧ x.start ≤ r.cursor.position
  left : ∀ x ∈ r.enclosures.left, x.Accurate source
  messages : r.engine.unclosedMessages
    = (r.enclosures.left.reverse.filter (·.isReported source)).map Ending.report

/-- From the first reader to the second, which accounts for the enclosures, the cursor moved on,
and these enclosures lie around the second one.  The record of those that were left has grown. -/
structure Reader.Reaches (source : List Char) (outer : List Enclosure) (r r' : Reader) : Prop where
  accounts : r'.Accounts source
  around : r'.enclosures.around = outer
  forward : r.cursor.position ≤ r'.cursor.position
  grown : r.enclosures.left <:+ r'.enclosures.left

/-- The same enclosures lie around both. -/
abbrev Reader.AccountsTo (source : List Char) (r r' : Reader) : Prop :=
  r.Reaches source r.enclosures.around r'

/-- The enclosure was the last one to be left, and those around it are left to the second one. -/
structure Reader.Leaves (source : List Char) (x : Enclosure) (outer : List Enclosure)
    (r r' : Reader) : Prop extends r.Reaches source outer r' where
  last : ∃ stop closed earlier, r'.enclosures.left = ⟨x, stop, closed⟩ :: earlier ∧
    r.enclosures.left <:+ earlier

/-- The group that a mark opens here was read, and it was the last one to be left. -/
def Reader.ReadsGroup (source : List Char) (kind : EnclosureKind) (r r' : Reader) : Prop :=
  ∃ start, OpeningLine source r.cursor.position start ∧
    r.Leaves source ⟨kind, start⟩ r.enclosures.around r'

variable {source : List Char}

namespace Reader

variable {r r' r'' : Reader}

theorem Accounts.refl (h : r.Accounts source) : r.AccountsTo source r :=
  ⟨h, rfl, Nat.le_refl _, List.suffix_refl _⟩

variable {x : Enclosure} {outer inner : List Enclosure}

theorem Reaches.behind (h : r'.Reaches source outer r'') (g : r.Reaches source inner r') :
    r.Reaches source outer r'' :=
  ⟨h.accounts, h.around, Nat.le_trans g.forward h.forward, g.grown.trans h.grown⟩

theorem Reaches.trans (h : r.Reaches source outer r') (g : r'.AccountsTo source r'') :
    r.Reaches source outer r'' :=
  ⟨g.accounts, g.around.trans h.around, Nat.le_trans h.forward g.forward, h.grown.trans g.grown⟩

theorem Leaves.behind (h : r'.Leaves source x outer r'') (g : r.Reaches source inner r') :
    r.Leaves source x outer r'' := by
  obtain ⟨stop, closed, earlier, hleft, hgrown⟩ := h.last
  exact ⟨h.toReaches.behind g, stop, closed, earlier, hleft, g.grown.trans hgrown⟩

theorem Leaves.trans (h : r.Leaves source x outer r') (g : r'.AccountsTo source r'')
    (hsame : r''.enclosures = r'.enclosures) : r.Leaves source x outer r'' :=
  ⟨h.toReaches.trans g, hsame ▸ h.last⟩

theorem Accounts.goes (h : r.Accounts source) (hpasses : r.cursor.Passes r'.cursor)
    (hreferring : r'.engine.referring = r.engine.referring)
    (hmessages : r'.engine.unclosedMessages = r.engine.unclosedMessages)
    (hsame : r'.enclosures = r.enclosures) : r.AccountsTo source r' := by
  refine ⟨⟨hpasses.anchored h.anchored, hreferring.trans h.referring, fun x hx => ?_, ?_, ?_⟩,
    congrArg _ hsame, hpasses.position_le, hsame ▸ List.suffix_refl _⟩
  · have hopened := h.around x (hsame ▸ hx)
    exact ⟨hopened.1, Nat.le_trans hopened.2 hpasses.position_le⟩
  · exact hsame ▸ h.left
  · rw [hmessages, h.messages, hsame]

theorem Accounts.move (h : r.Accounts source) {c : Cursor} (hc : r.cursor.Passes c) :
    r.AccountsTo source { r with cursor := c } := h.goes hc rfl rfl rfl

theorem Accounts.elaborate (h : r.Accounts source) {e : Engine} (he : r.engine.Elaborates e) :
    r.AccountsTo source { r with engine := e } :=
  h.goes (.refl _) he.referring he.unclosedMessages rfl

theorem Accounts.note (h : r.Accounts source) (p : Problem) (span : Span)
    (hp : p ≠ .expected Mark.groupClose.text) :
    r.AccountsTo source { r with engine := r.engine.emit [p.message span] } := by
  refine h.goes (.refl _) rfl ?_ rfl
  have hother : (p.message span).reportsUnclosed = false := by
    rw [reportsUnclosed_message, decide_eq_false hp]
  rw [Engine.unclosedMessages_emit h.referring, List.filter_cons_of_neg (by simp [hother])]
  exact List.append_nil _

theorem Accounts.enter (h : r.Accounts source) (kind : EnclosureKind)
    (hopened : Enclosure.OpenedIn source ⟨kind, r.cursor.position⟩) :
    r.Reaches source (⟨kind, r.cursor.position⟩ :: r.enclosures.around) (r.enter kind) :=
  ⟨⟨h.anchored, h.referring, List.forall_mem_cons.mpr ⟨⟨hopened, Nat.le_refl _⟩, h.around⟩, h.left,
    h.messages⟩, rfl, Nat.le_refl _, List.suffix_refl _⟩

/-- **An enclosure ends**, and it is reported if its mark is missing. -/
theorem Accounts.leave (h : r.Accounts source) {x : Enclosure} {outer : List Enclosure}
    (haround : r.enclosures.around = x :: outer) (closed : Bool) (messages : List Message)
    (haccurate : Ending.Accurate source ⟨x, r.cursor.position, closed⟩)
    (hmessages : messages.filter Message.reportsUnclosed
      = ([⟨x, r.cursor.position, closed⟩].filter (Ending.isReported source)).map Ending.report) :
    r.Leaves source x outer { r.leave closed with engine := r.engine.emit messages } := by
  have hleave : (r.leave closed).enclosures
      = ⟨outer, ⟨x, r.cursor.position, closed⟩ :: r.enclosures.left⟩ := by
    simp only [Reader.leave, Enclosures.leave, haround]
  refine ⟨⟨⟨h.anchored, h.referring, ?_, ?_, ?_⟩, congrArg Enclosures.around hleave, Nat.le_refl _,
    ?_⟩, r.cursor.position, closed, r.enclosures.left, congrArg Enclosures.left hleave,
    List.suffix_refl _⟩
  · show ∀ x ∈ (r.leave closed).enclosures.around, _
    rw [hleave]
    exact fun y hy => h.around y (haround ▸ List.mem_cons_of_mem _ hy)
  · show ∀ x ∈ (r.leave closed).enclosures.left, _
    rw [hleave]
    exact List.forall_mem_cons.mpr ⟨haccurate, h.left⟩
  · show (r.engine.emit messages).unclosedMessages
      = ((r.leave closed).enclosures.left.reverse.filter _).map _
    rw [Engine.unclosedMessages_emit h.referring, h.messages, hmessages, hleave,
      List.reverse_cons, List.filter_append, List.map_append]
  · show r.enclosures.left <:+ (r.leave closed).enclosures.left
    rw [hleave]
    exact List.suffix_cons _ _

end Reader

/-! ### Steps -/

/-- From a reader that accounts for the enclosures the step leads to one that does, whatever fault
it may meet. -/
def Parse.Accounts {α : Type} (source : List Char) (x : Parse α) : Prop :=
  ∀ r : Reader, r.Accounts source → Ensures anyFault x r fun _ r' => r.AccountsTo source r'

/-- **The primitive steps keep the account**, and so do sequences. -/
theorem basic_accounts : Basic fun _ => Parse.Accounts source where
  pure := fun _ hr => hr.refl
  throw := fun _ _ => trivial
  lift := by
    intro α x r hr
    cases x with
    | ok a => exact hr.refl
    | error fault => exact trivial
  bind := by
    intro α β x f hx hf r hr
    rw [ensures_bind]
    refine (hx r hr).mono fun a r₁ h₁ => ?_
    exact (hf a r₁ h₁.accounts).mono fun _ _ h₂ => h₁.trans h₂
  look := fun _ hf r hr => hf r r hr
  advance := fun n _ hr => hr.move (Cursor.passes_advance _ n)
  skipWhile := fun p _ hr => hr.move (Cursor.passes_skipWhile _ p)
  accept := by
    intro mark r hr
    cases hpeek : r.cursor.peek mark.text with
    | true =>
      rw [ensures_of_eq (accept_of_peek hpeek)]
      exact hr.move (Cursor.passes_advance _ _)
    | false =>
      rw [ensures_of_eq (accept_of_not_peek hpeek)]
      exact hr.refl
  takeChar? := by
    intro r hr
    cases hrest : r.cursor.rest with
    | nil =>
      simp only [Ensures, takeChar?, Cursor.takeChar?, hrest]
      exact hr.refl
    | cons c rest =>
      simp only [Ensures, takeChar?, Cursor.takeChar?, hrest]
      exact hr.move ⟨[c], rfl, hrest, rfl⟩
  regroup := fun _ _ hr => hr.goes (.refl _) rfl rfl rfl
  note := fun hp _ hr => hr.note _ _ hp
  evaluate := by
    intro arguments r hr
    rw [ensures_expanding]
    exact (elaborates_expandArguments arguments r.engine).mono fun _ _ h => hr.elaborate h
  fireInspectors := fun _ hr => hr.goes (Cursor.passes_takeInspectors _) rfl rfl rfl

end MacroMarkup
