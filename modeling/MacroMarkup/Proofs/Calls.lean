import Mathlib.Logic.Relation
import MacroMarkup.Proofs.Inspection

/-!
# Which constructs are called

Reading a source calls its constructs, and these call each other, each at the reader to which the
run has led.  A paragraph calls nothing that starts a block, so the calls of the constructs that do
are listed one by one.

* `Parse.Quiet`: a step that starts no block and opens no group.  `inLine_quiet`: **paragraphs and
  inline modifiers are read in such steps.**
* `Call`: a construct that is called at a reader.  `Call.Ends`: its run ends at another one.
* `Call.Asks`: one call makes another.  `Call.Reaches`: it does so through others.
* `readBlock_cases`, `readGroup_cases`, …: what a run that ends has done.
* `Call.Asks.ends`: **a call that another one makes runs.**
* `Call.Ends.boundary`: **no other blocks are read** than those that are called.
* `Context.Calls`: reading the source makes the call.
* `Call.callees`: the calls that a call makes, computed.  `Context.calls_of_call?`: a call at the
  end of a path through them is made.  `Construct.shape`: what is called there.
-/

namespace MacroMarkup

open Parse

/-! ### Paragraphs start no block -/

/-- The step passes no boundary between blocks and opens no group, whatever fault it may meet. -/
def Parse.Quiet {α : Type} (x : Parse α) : Prop :=
  ∀ r : Reader, Ensures anyFault x r fun _ r' =>
    r'.boundaries = r.boundaries ∧ r'.openGroups = r.openGroups

theorem quiet_of_expand {α : Type} (step : Expand α) : (expanding step).Quiet := by
  intro r
  rw [ensures_expanding]
  exact ensures_of_forall fun _ _ => ⟨rfl, rfl⟩

/-- **The steps within a line start no block**, and neither do sequences. -/
theorem recording_quiet : Recording fun _ => Parse.Quiet where
  pure := fun _ => ⟨rfl, rfl⟩
  throw := fun _ => trivial
  lift := by
    intro α x r
    cases x with
    | ok a => exact ⟨rfl, rfl⟩
    | error fault => exact trivial
  bind := by
    intro α β x f hx hf r
    rw [ensures_bind]
    refine (hx r).mono fun a r₁ h₁ => ?_
    exact (hf a r₁).mono fun _ _ h₂ => ⟨h₂.1.trans h₁.1, h₂.2.trans h₁.2⟩
  look := fun _ hf r => hf r r
  advance := fun _ _ => ⟨rfl, rfl⟩
  skipWhile := fun _ _ => ⟨rfl, rfl⟩
  accept := fun _ _ => ⟨rfl, rfl⟩
  takeChar? := by
    rintro ⟨⟨source, rest, position, inspectors⟩, engine, openGroups, sightings⟩
    cases rest with
    | nil => exact ⟨rfl, rfl⟩
    | cons c rest => exact ⟨rfl, rfl⟩
  enter := fun _ _ => ⟨rfl, rfl⟩
  leave := fun _ _ => ⟨rfl, rfl⟩
  emit := fun messages => quiet_of_expand (Expand.emit messages)
  evaluate := fun arguments => quiet_of_expand (expandArguments arguments)

/-- **Paragraphs and inline modifiers start no block and open no group.** -/
theorem inLine_quiet (fuel : Nat) : InLine (fun _ => Parse.Quiet) fuel :=
  recording_quiet.inLine (fun _ => recording_quiet.readModifier recording_quiet.readEntities
    quiet_of_expand) fuel

/-! ### Calls -/

/-- A construct that reads blocks, or a paragraph. -/
inductive Construct where
  /-- The blocks of a source, behind those read before. -/
  | blocks (before : List Node)
  | block
  /-- The blocks of a group, behind those read before. -/
  | group (before : List Node)
  | paragraph
  | modifier (kind : ModifierKind)
  /-- The body of a modifier behind its head. -/
  | body (kind : ModifierKind) (head : Head)

/-- A construct that is called at a reader, with a bound on how deep it may call others. -/
structure Call where
  fuel : Nat
  construct : Construct
  reader : Reader

def Call.Ends (c : Call) (r : Reader) : Prop :=
  match c.construct with
  | .blocks before => ∃ nodes, readBlocks c.fuel before c.reader = .ok (nodes, r)
  | .block => ∃ nodes, readBlock c.fuel c.reader = .ok (nodes, r)
  | .group before => ∃ nodes, readGroup c.fuel before c.reader = .ok (nodes, r)
  | .paragraph => ∃ nodes, readParagraph c.fuel [] c.reader = .ok (nodes, r)
  | .modifier kind => ∃ answer, readModifier c.fuel kind c.reader = .ok (answer, r)
  | .body kind head => ∃ answer, readBody c.fuel kind head c.reader = .ok (answer, r)

/-- The mark that a block starts with, unless it is a paragraph. -/
def Reader.blockMark? (r : Reader) : Option Mark :=
  [Mark.blockOpen, .systemOpen, .groupOpen].find? (r.cursor.peek ·.text)

namespace Parse

def beginModifier (kind : ModifierKind) : Parse Head := do
  let head ← readHead kind
  let definition := head.modifier.definition
  let immediate ← expanding Expand.immediate
  let _ ← expanding (Expand.reporting
    (definition.behaviour.lifecycle.beforeContent head.modifier immediate))
  expanding (Expand.enterBody definition.delaysContent)
  return head

end Parse

inductive Call.Asks : Call → Call → Prop
  | block {fuel : Nat} {before : List Node} {r : Reader} (hmore : r.cursor.isAtEnd = false) :
      Asks ⟨fuel + 1, .blocks before, r⟩ ⟨fuel, .block, r⟩
  | blocks {fuel : Nat} {before nodes : List Node} {r r₁ r₂ : Reader}
      (hmore : r.cursor.isAtEnd = false) (hblock : readBlock fuel r = .ok (nodes, r₁))
      (hskip : skipSpacing r₁ = .ok ((), r₂)) :
      Asks ⟨fuel + 1, .blocks before, r⟩ ⟨fuel, .blocks (nodes.reverse ++ before), r₂⟩
  | modifier {fuel : Nat} {kind : ModifierKind} {r r₁ : Reader}
      (hshow : fireInspectors r = .ok ((), r₁)) (hmark : r₁.blockMark? = some kind.opening) :
      Asks ⟨fuel + 1, .block, r⟩ ⟨fuel, .modifier kind, r₁⟩
  | group {fuel : Nat} {r r₁ r₂ r₃ : Reader} (hshow : fireInspectors r = .ok ((), r₁))
      (hmark : r₁.blockMark? = some .groupOpen) (haccept : accept .groupOpen r₁ = .ok (true, r₂))
      (henter : enterGroup r₂ = .ok ((), r₃)) :
      Asks ⟨fuel + 1, .block, r⟩ ⟨fuel, .group [], r₃⟩
  | paragraph {fuel : Nat} {r r₁ : Reader} (hshow : fireInspectors r = .ok ((), r₁))
      (hmark : r₁.blockMark? = none) : Asks ⟨fuel + 1, .block, r⟩ ⟨fuel, .paragraph, r₁⟩
  | groupBlock {fuel : Nat} {before : List Node} {r : Reader} (hmore : r.cursor.isAtEnd = false)
      (hopen : r.cursor.peek Mark.groupClose.text = false) :
      Asks ⟨fuel + 1, .group before, r⟩ ⟨fuel, .block, r⟩
  | groupRest {fuel : Nat} {before nodes : List Node} {r r₁ r₂ : Reader}
      (hmore : r.cursor.isAtEnd = false) (hopen : r.cursor.peek Mark.groupClose.text = false)
      (hblock : readBlock fuel r = .ok (nodes, r₁)) (hskip : skipLines 1 r₁ = .ok ((), r₂)) :
      Asks ⟨fuel + 1, .group before, r⟩ ⟨fuel, .group (nodes.reverse ++ before), r₂⟩
  | body {fuel : Nat} {kind : ModifierKind} {head : Head} {r r₁ : Reader}
      (hbegin : beginModifier kind r = .ok (head, r₁)) :
      Asks ⟨fuel + 1, .modifier kind, r⟩ ⟨fuel, .body kind head, r₁⟩
  | bodyBlock {fuel : Nat} {kind : ModifierKind} {head : Head} {r r₁ : Reader}
      (hkind : kind ≠ .inline) (hhead : head.isWhole = false)
      (hskip : skipLines 1 r = .ok ((), r₁)) (hmore : r₁.cursor.isAtEnd = false)
      (hslot : head.modifier.definition.slot ≠ .preformatted) :
      Asks ⟨fuel + 1, .body kind head, r⟩ ⟨fuel, .block, r₁⟩

theorem Call.Asks.fuel_eq {c d : Call} (h : c.Asks d) : c.fuel = d.fuel + 1 := by
  cases h <;> rfl

abbrev Call.Reaches : Call → Call → Prop := Relation.ReflTransGen Call.Asks

/-! ### What a run has done -/

theorem Parse.ok_unique {α : Type} {x : Parse α} {a b : α} {r r₁ r₂ : Reader}
    (h : x r = .ok (a, r₁)) (g : x r = .ok (b, r₂)) : a = b ∧ r₁ = r₂ := by
  rw [h] at g
  cases g
  exact ⟨rfl, rfl⟩

section Cases

variable {fuel : Nat} {r r' : Reader} {before nodes : List Node}

theorem ModifierKind.opening_inj {kind kind' : ModifierKind} (h : kind.opening = kind'.opening) :
    kind = kind' := by
  cases kind <;> cases kind' <;> first | rfl | cases h

theorem ModifierKind.opening_ne_groupOpen (kind : ModifierKind) : kind.opening ≠ .groupOpen := by
  cases kind <;> decide

theorem Parse.ok_of_spanFrom {start : Nat} {span : Span} (h : spanFrom start r = .ok (span, r')) :
    span = ⟨start, r.cursor.position⟩ ∧ r' = r := by
  have hposition : position r = .ok (r.cursor.position, r) := rfl
  rw [spanFrom, bind_of_ok hposition] at h
  by_cases hle : start ≤ r.cursor.position
  · rw [Span.checked_of_le hle] at h
    cases h
    exact ⟨rfl, rfl⟩
  · rw [Span.checked, if_neg hle] at h
    cases h

theorem Reader.blockMark?_eq (r : Reader) : r.blockMark?
    = if r.cursor.peek Mark.blockOpen.text then some .blockOpen
      else if r.cursor.peek Mark.systemOpen.text then some .systemOpen
      else if r.cursor.peek Mark.groupOpen.text then some .groupOpen else none := by
  simp only [blockMark?, List.find?_cons, List.find?_nil]
  cases r.cursor.peek Mark.blockOpen.text <;> cases r.cursor.peek Mark.systemOpen.text <;>
    cases r.cursor.peek Mark.groupOpen.text <;> rfl

theorem readBlocks_cases (h : readBlocks (fuel + 1) before r = .ok (nodes, r')) :
    (r.cursor.isAtEnd = true ∧ r' = r) ∨
    (r.cursor.isAtEnd = false ∧ ∃ read r₁ r₂, readBlock fuel r = .ok (read, r₁) ∧
      skipSpacing r₁ = .ok ((), r₂) ∧
      readBlocks fuel (read.reverse ++ before) r₂ = .ok (nodes, r')) := by
  rw [readBlocks] at h
  obtain ⟨_, _, hat, h⟩ := ok_of_bind h
  cases hat
  cases hend : r.cursor.isAtEnd with
  | true =>
    rw [if_pos hend] at h
    cases h
    exact .inl ⟨rfl, rfl⟩
  | false =>
    rw [if_neg (hend ▸ Bool.false_ne_true)] at h
    obtain ⟨read, r₁, hblock, h⟩ := ok_of_bind h
    obtain ⟨_, r₂, hskip, h⟩ := ok_of_bind h
    exact .inr ⟨rfl, read, r₁, r₂, hblock, hskip, h⟩

/-- A group ends with the source or with its mark, or another block is read. -/
theorem readGroup_cases (h : readGroup (fuel + 1) before r = .ok (nodes, r')) :
    (r.cursor.isAtEnd = true ∧ r'.boundaries = r.boundaries) ∨
    (r.cursor.isAtEnd = false ∧ r.cursor.peek Mark.groupClose.text = true ∧ nodes = before.reverse ∧
      r' = ({ r with cursor := r.cursor.advance Mark.groupClose.text.toList.length } : Reader).leave
        true) ∨
    (r.cursor.isAtEnd = false ∧ r.cursor.peek Mark.groupClose.text = false ∧
      ∃ read r₁ r₂, readBlock fuel r = .ok (read, r₁) ∧ skipLines 1 r₁ = .ok ((), r₂) ∧
        readGroup fuel (read.reverse ++ before) r₂ = .ok (nodes, r')) := by
  rw [readGroup] at h
  obtain ⟨_, _, hat, h⟩ := ok_of_bind h
  cases hat
  cases hend : r.cursor.isAtEnd with
  | true =>
    rw [if_pos hend] at h
    cases h
    exact .inl ⟨rfl, rfl⟩
  | false =>
    rw [if_neg (hend ▸ Bool.false_ne_true)] at h
    cases hclose : r.cursor.peek Mark.groupClose.text with
    | true =>
      rw [bind_of_ok (accept_of_peek hclose)] at h
      cases h
      exact .inr (.inl ⟨rfl, rfl, rfl, rfl⟩)
    | false =>
      rw [bind_of_ok (accept_of_not_peek hclose)] at h
      obtain ⟨read, r₁, hblock, h⟩ := ok_of_bind h
      obtain ⟨_, r₂, hskip, h⟩ := ok_of_bind h
      exact .inr (.inr ⟨rfl, rfl, read, r₁, r₂, hblock, hskip, h⟩)

/-- A block is a modifier, a group or a paragraph, by the mark that it starts with. -/
theorem readBlock_cases (h : readBlock (fuel + 1) r = .ok (nodes, r')) :
    ∃ r₁, fireInspectors r = .ok ((), r₁) ∧
      ((∃ kind answer, r₁.blockMark? = some kind.opening ∧
        readModifier fuel kind r₁ = .ok (answer, r')) ∨
      (∃ r₂ r₃ r₄, r₁.blockMark? = some .groupOpen ∧ accept .groupOpen r₁ = .ok (true, r₂) ∧
        enterGroup r₂ = .ok ((), r₃) ∧ readGroup fuel [] r₃ = .ok (nodes, r₄) ∧
        r' = { r₄ with openGroups := r₄.openGroups - 1 }) ∨
      (r₁.blockMark? = none ∧ ∃ content, readParagraph fuel [] r₁ = .ok (content, r') ∧
        nodes = [.paragraph ⟨r₁.cursor.position, r'.cursor.position⟩ content])) := by
  rw [readBlock] at h
  obtain ⟨_, r₁, hshow, h⟩ := ok_of_bind h
  refine ⟨r₁, hshow, ?_⟩
  rw [Reader.blockMark?_eq]
  obtain ⟨_, _, hpeek, h⟩ := ok_of_bind h
  cases hpeek
  cases hblock : r₁.cursor.peek Mark.blockOpen.text with
  | true =>
    rw [if_pos hblock] at h
    obtain ⟨answer, _, hmodifier, h⟩ := ok_of_bind h
    cases h
    exact .inl ⟨.block, answer, rfl, hmodifier⟩
  | false =>
    rw [if_neg (hblock ▸ Bool.false_ne_true)] at h
    obtain ⟨_, _, hpeek, h⟩ := ok_of_bind h
    cases hpeek
    cases hsystem : r₁.cursor.peek Mark.systemOpen.text with
    | true =>
      rw [if_pos hsystem] at h
      obtain ⟨answer, _, hmodifier, h⟩ := ok_of_bind h
      cases h
      exact .inl ⟨.system, answer, rfl, hmodifier⟩
    | false =>
      rw [if_neg (hsystem ▸ Bool.false_ne_true)] at h
      cases hgroup : r₁.cursor.peek Mark.groupOpen.text with
      | true =>
        rw [bind_of_ok (accept_of_peek hgroup)] at h
        have hopens : openGroup fuel _ = .ok (nodes, r') := h
        rw [openGroup_eq] at hopens
        obtain ⟨_, r₃, henter, hopens⟩ := ok_of_bind hopens
        obtain ⟨read, r₄, hread, hopens⟩ := ok_of_bind hopens
        cases hopens
        exact .inr (.inl ⟨_, r₃, r₄, rfl, accept_of_peek hgroup, henter, hread, rfl⟩)
      | false =>
        rw [bind_of_ok (accept_of_not_peek hgroup)] at h
        obtain ⟨_, _, hposition, h⟩ := ok_of_bind h
        cases hposition
        obtain ⟨content, r₂, hread, h⟩ := ok_of_bind h
        obtain ⟨span, _, hspan, h⟩ := ok_of_bind h
        cases h
        obtain ⟨rfl, rfl⟩ := ok_of_spanFrom hspan
        exact .inr (.inr ⟨rfl, content, hread, rfl⟩)

theorem readBlocks_more (hmore : r.cursor.isAtEnd = false)
    (h : readBlocks (fuel + 1) before r = .ok (nodes, r')) :
    ∃ read r₁ r₂, readBlock fuel r = .ok (read, r₁) ∧ skipSpacing r₁ = .ok ((), r₂) ∧
      readBlocks fuel (read.reverse ++ before) r₂ = .ok (nodes, r') := by
  rcases readBlocks_cases h with ⟨hend, -⟩ | ⟨-, hread⟩
  · exact absurd (hmore.symm.trans hend) Bool.false_ne_true
  · exact hread

theorem readGroup_more (hmore : r.cursor.isAtEnd = false)
    (hopen : r.cursor.peek Mark.groupClose.text = false)
    (h : readGroup (fuel + 1) before r = .ok (nodes, r')) :
    ∃ read r₁ r₂, readBlock fuel r = .ok (read, r₁) ∧ skipLines 1 r₁ = .ok ((), r₂) ∧
      readGroup fuel (read.reverse ++ before) r₂ = .ok (nodes, r') := by
  rcases readGroup_cases h with ⟨hend, -⟩ | ⟨-, hclose, -⟩ | ⟨-, -, hread⟩
  · exact absurd (hmore.symm.trans hend) Bool.false_ne_true
  · exact absurd (hopen.symm.trans hclose) Bool.false_ne_true
  · exact hread

section Marks

variable {r₁ : Reader} (hshow : fireInspectors r = .ok ((), r₁))
  (h : readBlock (fuel + 1) r = .ok (nodes, r'))

include hshow h

/-- What the first mark of a block decides. -/
theorem readBlock_modifier {kind : ModifierKind} (hmark : r₁.blockMark? = some kind.opening) :
    ∃ answer, readModifier fuel kind r₁ = .ok (answer, r') := by
  obtain ⟨_, hshow', hcases⟩ := readBlock_cases h
  obtain ⟨-, rfl⟩ := ok_unique hshow hshow'
  rw [hmark] at hcases
  rcases hcases with ⟨kind', answer, hmark', hread⟩ | ⟨_, _, _, hmark', -⟩ | ⟨hmark', -⟩
  · obtain rfl := ModifierKind.opening_inj (Option.some.inj hmark')
    exact ⟨answer, hread⟩
  · exact absurd (Option.some.inj hmark') (ModifierKind.opening_ne_groupOpen _)
  · cases hmark'

theorem readBlock_group (hmark : r₁.blockMark? = some .groupOpen) :
    ∃ r₂ r₃ r₄, accept .groupOpen r₁ = .ok (true, r₂) ∧ enterGroup r₂ = .ok ((), r₃) ∧
      readGroup fuel [] r₃ = .ok (nodes, r₄) ∧
      r' = { r₄ with openGroups := r₄.openGroups - 1 } := by
  obtain ⟨_, hshow', hcases⟩ := readBlock_cases h
  obtain ⟨-, rfl⟩ := ok_unique hshow hshow'
  rw [hmark] at hcases
  rcases hcases with ⟨kind', _, hmark', -⟩ | ⟨r₂, r₃, r₄, -, hread⟩ | ⟨hmark', -⟩
  · exact absurd (Option.some.inj hmark').symm (ModifierKind.opening_ne_groupOpen _)
  · exact ⟨r₂, r₃, r₄, hread⟩
  · cases hmark'

theorem readBlock_paragraph (hmark : r₁.blockMark? = none) :
    ∃ content, readParagraph fuel [] r₁ = .ok (content, r') ∧
      nodes = [.paragraph ⟨r₁.cursor.position, r'.cursor.position⟩ content] := by
  obtain ⟨_, hshow', hcases⟩ := readBlock_cases h
  obtain ⟨-, rfl⟩ := ok_unique hshow hshow'
  rw [hmark] at hcases
  rcases hcases with ⟨_, _, hmark', -⟩ | ⟨_, _, _, hmark', -⟩ | ⟨-, hread⟩
  · cases hmark'
  · cases hmark'
  · exact hread

end Marks

theorem readModifier_cases {kind : ModifierKind} {answer : Modifier × Bool}
    (h : readModifier (fuel + 1) kind r = .ok (answer, r')) :
    ∃ head r₁ read r₂, beginModifier kind r = .ok (head, r₁) ∧
      readBody fuel kind head r₁ = .ok (read, r₂) ∧ r'.boundaries = r₂.boundaries := by
  have quiet : ∀ {α : Type} {x : Parse α} {a : α} {s s' : Reader}, x.Quiet →
      x s = .ok (a, s') → s'.boundaries = s.boundaries :=
    fun hx hrun => ((hx _).of_ok hrun).1
  rw [readModifier] at h
  obtain ⟨head, ra, hhead, h⟩ := ok_of_bind h
  obtain ⟨immediate, rb, himmediate, h⟩ := ok_of_bind h
  obtain ⟨state, rc, hstate, h⟩ := ok_of_bind h
  obtain ⟨_, r₁, henter, h⟩ := ok_of_bind h
  obtain ⟨read, r₂, hread, h⟩ := ok_of_bind h
  refine ⟨head, r₁, read, r₂, ?_, hread, ?_⟩
  · rw [beginModifier, bind_of_ok hhead, bind_of_ok himmediate, bind_of_ok hstate,
      bind_of_ok henter]
    rfl
  · -- what is done behind the body
    obtain ⟨span, rd, hspan, h⟩ := ok_of_bind h
    obtain ⟨_, re, hleave, h⟩ := ok_of_bind h
    obtain ⟨state', rf, hafter, h⟩ := ok_of_bind h
    obtain ⟨_, _, hget, h⟩ := ok_of_bind h
    cases hget
    obtain ⟨m, rg, hexpand, h⟩ := ok_of_bind h
    cases h
    rw [quiet (quiet_of_expand _) hexpand, quiet (quiet_of_expand _) hafter,
      quiet (quiet_of_expand _) hleave, quiet (recording_quiet.wholeSpan head) hspan]

/-- The body of a block or a system modifier is nothing, raw text or a block. -/
theorem readBody_cases {kind : ModifierKind} {head : Head} {answer : List Node × Bool}
    (hkind : kind ≠ .inline) (h : readBody (fuel + 1) kind head r = .ok (answer, r')) :
    (head.isWhole = true ∧ answer = ([], true) ∧ r' = r) ∨
    (head.isWhole = false ∧ ∃ r₁, skipLines 1 r = .ok ((), r₁) ∧
      ((r₁.cursor.isAtEnd = true ∧ answer = ([], true) ∧ r' = r₁) ∨
      (r₁.cursor.isAtEnd = false ∧ head.modifier.definition.slot = .preformatted ∧
        ∃ node, readPreformatted r₁ = .ok (node, r') ∧ answer = ([node], true)) ∨
      (r₁.cursor.isAtEnd = false ∧ head.modifier.definition.slot ≠ .preformatted ∧
        ∃ nodes, readBlock fuel r₁ = .ok (nodes, r') ∧ answer = (nodes, true)))) := by
  rw [readBody] at h
  cases hwhole : head.isWhole with
  | true =>
    simp only [hwhole, if_true] at h
    cases h
    exact .inl ⟨rfl, rfl, rfl⟩
  | false =>
    simp only [hwhole, Bool.false_eq_true, if_false, hkind] at h
    obtain ⟨_, r₁, hskip, h⟩ := ok_of_bind h
    refine .inr ⟨rfl, r₁, hskip, ?_⟩
    obtain ⟨_, _, hat, h⟩ := ok_of_bind h
    cases hat
    cases hend : r₁.cursor.isAtEnd with
    | true =>
      rw [if_pos hend] at h
      cases h
      exact .inl ⟨rfl, rfl, rfl⟩
    | false =>
      rw [if_neg (hend ▸ Bool.false_ne_true)] at h
      by_cases hslot : head.modifier.definition.slot = .preformatted
      · rw [if_pos hslot] at h
        obtain ⟨node, _, hraw, h⟩ := ok_of_bind h
        cases h
        exact .inr (.inl ⟨rfl, hslot, node, hraw, rfl⟩)
      · rw [if_neg hslot] at h
        obtain ⟨nodes, _, hblock, h⟩ := ok_of_bind h
        cases h
        exact .inr (.inr ⟨rfl, hslot, nodes, hblock, rfl⟩)

theorem readBody_block {kind : ModifierKind} {head : Head} {answer : List Node × Bool}
    {r₁ : Reader} (hkind : kind ≠ .inline) (hhead : head.isWhole = false)
    (hskip : skipLines 1 r = .ok ((), r₁)) (hmore : r₁.cursor.isAtEnd = false)
    (hslot : head.modifier.definition.slot ≠ .preformatted)
    (h : readBody (fuel + 1) kind head r = .ok (answer, r')) :
    ∃ nodes, readBlock fuel r₁ = .ok (nodes, r') ∧ answer = (nodes, true) := by
  rcases readBody_cases hkind h with ⟨hwhole, -⟩ | ⟨-, _, hskip', hcases⟩
  · exact absurd (hhead.symm.trans hwhole) Bool.false_ne_true
  obtain ⟨-, rfl⟩ := ok_unique hskip hskip'
  rcases hcases with ⟨hend, -⟩ | ⟨-, hraw, -⟩ | ⟨-, -, hread⟩
  · exact absurd (hmore.symm.trans hend) Bool.false_ne_true
  · exact absurd hraw hslot
  · exact hread

end Cases

/-! ### The calls are those of the run -/

def Reader.boundary (r : Reader) : Boundary := ⟨r.cursor.position, r.engine.context⟩

theorem Parse.Quiet.boundaries {α : Type} {x : Parse α} {a : α} {r r' : Reader} (hx : x.Quiet)
    (hrun : x r = .ok (a, r')) : r'.boundaries = r.boundaries := ((hx r).of_ok hrun).1

theorem boundaries_of_fireInspectors {r r' : Reader} (h : fireInspectors r = .ok ((), r')) :
    r'.boundaries = r.boundary :: r.boundaries := by
  cases h
  rfl

theorem boundaries_of_enterGroup {r r' : Reader} (h : enterGroup r = .ok ((), r')) :
    r'.boundaries = r.boundaries := by
  have hquiet := recording_quiet
  obtain ⟨_, ra, hopens, h⟩ := ok_of_bind h
  cases hopens
  obtain ⟨_, rb, hline, h⟩ := ok_of_bind h
  obtain ⟨_, rc, henter, hskip⟩ := ok_of_bind h
  rw [(hquiet.skipLines 1).boundaries hskip, (hquiet.enter .blocks).boundaries henter,
    hquiet.endLine.boundaries hline]

theorem beginModifier_quiet (kind : ModifierKind) : (beginModifier kind).Quiet :=
  recording_quiet.bind (recording_quiet.readHead recording_quiet.readEntities kind) fun _ =>
    recording_quiet.bind (quiet_of_expand _) fun _ => recording_quiet.bind (quiet_of_expand _)
      fun _ => recording_quiet.bind (quiet_of_expand _) fun _ => recording_quiet.pure

/-- The boundaries that are passed while a construct is read are added to those before. -/
theorem Call.Ends.suffix {c : Call} {r : Reader} (h : c.Ends r) :
    c.reader.boundaries <:+ r.boundaries := by
  have watched : ∀ {α : Type} {x : Parse α} {a : α}, x.Watched → x c.reader = .ok (a, r) →
      c.reader.boundaries <:+ r.boundaries := by
    intro α x a hx hrun
    obtain ⟨passed, hsees⟩ := (hx _).of_ok hrun
    exact hsees.boundaries ▸ List.suffix_append _ _
  obtain ⟨fuel, construct, reader⟩ := c
  have hconstructs := constructs_watched fuel
  cases construct with
  | blocks before =>
    obtain ⟨_, hrun⟩ := h
    exact watched (closed_watched.readBlocks closed_watched.encloses watched_readModifier _ _) hrun
  | block =>
    obtain ⟨_, hrun⟩ := h
    exact watched hconstructs.block hrun
  | group before =>
    obtain ⟨_, hrun⟩ := h
    exact watched (hconstructs.group _) hrun
  | paragraph =>
    obtain ⟨_, hrun⟩ := h
    exact watched (hconstructs.paragraph _) hrun
  | modifier kind =>
    obtain ⟨_, hrun⟩ := h
    exact watched (hconstructs.modifier _) hrun
  | body kind head =>
    obtain ⟨_, hrun⟩ := h
    exact watched (hconstructs.body _ _) hrun

/-- **A call that another one makes runs**: it ends if that one does, and the boundaries that were
passed by then are passed by the end of that one. -/
theorem Call.Asks.ends {c d : Call} {r : Reader} (h : c.Asks d) (hends : c.Ends r) :
    ∃ r', d.Ends r' ∧ r'.boundaries <:+ r.boundaries := by
  cases h with
  | block hmore =>
    obtain ⟨_, hrun⟩ := hends
    obtain ⟨_, r₁, r₂, hblock, hskip, hrest⟩ := readBlocks_more hmore hrun
    refine ⟨r₁, ⟨_, hblock⟩, ?_⟩
    rw [← (recording_quiet.skipWhile _).boundaries hskip]
    exact Call.Ends.suffix (c := ⟨_, .blocks _, r₂⟩) ⟨_, hrest⟩
  | blocks hmore hblock hskip =>
    obtain ⟨_, hrun⟩ := hends
    obtain ⟨_, _, _, hblock', hskip', hrest⟩ := readBlocks_more hmore hrun
    obtain ⟨rfl, rfl⟩ := ok_unique hblock hblock'
    obtain ⟨-, rfl⟩ := ok_unique hskip hskip'
    exact ⟨r, ⟨_, hrest⟩, List.suffix_refl _⟩
  | modifier hshow hmark =>
    obtain ⟨_, hrun⟩ := hends
    exact ⟨r, readBlock_modifier hshow hrun hmark, List.suffix_refl _⟩
  | group hshow hmark haccept henter =>
    obtain ⟨_, hrun⟩ := hends
    obtain ⟨_, _, r₄, haccept', henter', hrest, rfl⟩ := readBlock_group hshow hrun hmark
    obtain ⟨-, rfl⟩ := ok_unique haccept haccept'
    obtain ⟨-, rfl⟩ := ok_unique henter henter'
    exact ⟨r₄, ⟨_, hrest⟩, List.suffix_refl _⟩
  | paragraph hshow hmark =>
    obtain ⟨_, hrun⟩ := hends
    obtain ⟨content, hrest, -⟩ := readBlock_paragraph hshow hrun hmark
    exact ⟨r, ⟨content, hrest⟩, List.suffix_refl _⟩
  | groupBlock hmore hopen =>
    obtain ⟨_, hrun⟩ := hends
    obtain ⟨_, r₁, r₂, hblock, hskip, hrest⟩ := readGroup_more hmore hopen hrun
    refine ⟨r₁, ⟨_, hblock⟩, ?_⟩
    rw [← (recording_quiet.skipLines 1).boundaries hskip]
    exact Call.Ends.suffix (c := ⟨_, .group _, r₂⟩) ⟨_, hrest⟩
  | groupRest hmore hopen hblock hskip =>
    obtain ⟨_, hrun⟩ := hends
    obtain ⟨_, _, _, hblock', hskip', hrest⟩ := readGroup_more hmore hopen hrun
    obtain ⟨rfl, rfl⟩ := ok_unique hblock hblock'
    obtain ⟨-, rfl⟩ := ok_unique hskip hskip'
    exact ⟨r, ⟨_, hrest⟩, List.suffix_refl _⟩
  | body hbegin =>
    obtain ⟨_, hrun⟩ := hends
    obtain ⟨head, r₁, read, r₂, hbegin', hrest, hsame⟩ := readModifier_cases hrun
    obtain ⟨rfl, rfl⟩ := ok_unique hbegin hbegin'
    exact ⟨r₂, ⟨read, hrest⟩, hsame ▸ List.suffix_refl _⟩
  | bodyBlock hkind hhead hskip hmore hslot =>
    obtain ⟨_, hrun⟩ := hends
    obtain ⟨nodes, hrest, -⟩ := readBody_block hkind hhead hskip hmore hslot hrun
    exact ⟨r, ⟨nodes, hrest⟩, List.suffix_refl _⟩

/-- A block that is called, by this call or on its way, and starts at the boundary. -/
def Call.ReachesBoundary (c : Call) (b : Boundary) : Prop :=
  ∃ fuel r, c.Reaches ⟨fuel, .block, r⟩ ∧ b = r.boundary

theorem Call.Asks.reachesBoundary {c d : Call} {b : Boundary} (h : c.Asks d)
    (hd : d.ReachesBoundary b) : c.ReachesBoundary b := by
  obtain ⟨fuel, r, hreaches, rfl⟩ := hd
  exact ⟨fuel, r, .head h hreaches, rfl⟩

/-- A boundary that a call passes, of those that this one makes, was passed before or is one
where a block starts that is reached. -/
def Call.Reckons (c : Call) (b : Boundary) : Prop :=
  ∀ d r', c.Asks d → d.Ends r' → b ∈ r'.boundaries →
    b ∈ d.reader.boundaries ∨ c.ReachesBoundary b

section Boundaries

variable {fuel : Nat} {b : Boundary} {before nodes : List Node} {r r' : Reader}

theorem Call.boundary_blocks (h : Call.Reckons ⟨fuel + 1, .blocks before, r⟩ b)
    (hrun : readBlocks (fuel + 1) before r = .ok (nodes, r')) (hb : b ∈ r'.boundaries) :
    b ∈ r.boundaries ∨ Call.ReachesBoundary ⟨fuel + 1, .blocks before, r⟩ b := by
  rcases readBlocks_cases hrun with ⟨-, rfl⟩ | ⟨hmore, read, r₁, r₂, hblock, hskip, hrest⟩
  · exact .inl hb
  rcases h _ _ (.blocks hmore hblock hskip) ⟨_, hrest⟩ hb with hb | hb
  · rw [(recording_quiet.skipWhile _).boundaries hskip] at hb
    exact h _ _ (.block hmore) ⟨_, hblock⟩ hb
  · exact .inr hb

theorem Call.boundary_block (h : Call.Reckons ⟨fuel + 1, .block, r⟩ b)
    (hrun : readBlock (fuel + 1) r = .ok (nodes, r')) (hb : b ∈ r'.boundaries) :
    b ∈ r.boundaries ∨ Call.ReachesBoundary ⟨fuel + 1, .block, r⟩ b := by
  obtain ⟨r₁, hshow, hcases⟩ := readBlock_cases hrun
  have hstart : b ∈ r₁.boundaries →
      b ∈ r.boundaries ∨ Call.ReachesBoundary ⟨fuel + 1, .block, r⟩ b := by
    intro hb
    rw [boundaries_of_fireInspectors hshow] at hb
    rcases List.mem_cons.mp hb with rfl | hb
    · exact .inr ⟨_, r, .refl, rfl⟩
    · exact .inl hb
  rcases hcases with ⟨kind, answer, hmark, hrest⟩ |
    ⟨r₂, r₃, r₄, hmark, haccept, henter, hrest, rfl⟩ | ⟨hmark, content, hrest, -⟩
  · exact (h _ _ (.modifier hshow hmark) ⟨_, hrest⟩ hb).elim hstart .inr
  · refine (h _ _ (.group hshow hmark haccept henter) ⟨_, hrest⟩ hb).elim (fun hb => ?_) .inr
    rw [boundaries_of_enterGroup henter, (recording_quiet.accept _).boundaries haccept] at hb
    exact hstart hb
  · rw [((inLine_quiet fuel).paragraph []).boundaries hrest] at hb
    exact hstart hb

theorem Call.boundary_group (h : Call.Reckons ⟨fuel + 1, .group before, r⟩ b)
    (hrun : readGroup (fuel + 1) before r = .ok (nodes, r')) (hb : b ∈ r'.boundaries) :
    b ∈ r.boundaries ∨ Call.ReachesBoundary ⟨fuel + 1, .group before, r⟩ b := by
  rcases readGroup_cases hrun with ⟨-, hsame⟩ | ⟨-, -, -, rfl⟩ |
    ⟨hmore, hopen, read, r₁, r₂, hblock, hskip, hrest⟩
  · exact .inl (hsame ▸ hb)
  · exact .inl hb
  rcases h _ _ (.groupRest hmore hopen hblock hskip) ⟨_, hrest⟩ hb with hb | hb
  · rw [(recording_quiet.skipLines 1).boundaries hskip] at hb
    exact h _ _ (.groupBlock hmore hopen) ⟨_, hblock⟩ hb
  · exact .inr hb

theorem Call.boundary_body {kind : ModifierKind} {head : Head} {answer : List Node × Bool}
    (h : Call.Reckons ⟨fuel + 1, .body kind head, r⟩ b)
    (hrun : readBody (fuel + 1) kind head r = .ok (answer, r')) (hb : b ∈ r'.boundaries) :
    b ∈ r.boundaries ∨ Call.ReachesBoundary ⟨fuel + 1, .body kind head, r⟩ b := by
  by_cases hkind : kind = .inline
  · subst hkind
    exact .inl (((inLine_quiet _).body head).boundaries hrun ▸ hb)
  rcases readBody_cases hkind hrun with ⟨-, -, rfl⟩ | ⟨hhead, r₁, hskip, hcases⟩
  · exact .inl hb
  rw [← (recording_quiet.skipLines 1).boundaries hskip]
  rcases hcases with ⟨-, -, rfl⟩ | ⟨-, -, node, hraw, -⟩ | ⟨hmore, hslot, nodes, hblock, -⟩
  · exact .inl hb
  · exact .inl (recording_quiet.readPreformatted.boundaries hraw ▸ hb)
  · exact h _ _ (.bodyBlock hkind hhead hskip hmore hslot) ⟨_, hblock⟩ hb

end Boundaries

/-- **No other blocks are read** than those that are called: each boundary that is passed while a
construct is read is one where such a block starts. -/
theorem Call.Ends.boundary (fuel : Nat) : ∀ {construct : Construct} {r r' : Reader},
    Ends ⟨fuel, construct, r⟩ r' → ∀ b ∈ r'.boundaries,
      b ∈ r.boundaries ∨ ReachesBoundary ⟨fuel, construct, r⟩ b := by
  induction fuel with
  | zero =>
    intro construct r r' h
    cases construct <;> obtain ⟨_, hrun⟩ := h <;> cases hrun
  | succ fuel ih =>
    intro construct r r' h b hb
    have hreckons : Reckons ⟨fuel + 1, construct, r⟩ b := by
      rintro ⟨deeper, construct', s⟩ s' hasks hends hs
      obtain rfl : fuel = deeper := Nat.succ.inj hasks.fuel_eq
      exact (ih hends b hs).imp_right hasks.reachesBoundary
    cases construct with
    | blocks before =>
      obtain ⟨_, hrun⟩ := h
      exact boundary_blocks hreckons hrun hb
    | block =>
      obtain ⟨_, hrun⟩ := h
      exact boundary_block hreckons hrun hb
    | group before =>
      obtain ⟨_, hrun⟩ := h
      exact boundary_group hreckons hrun hb
    | paragraph =>
      obtain ⟨_, hrun⟩ := h
      exact .inl (((inLine_quiet _).paragraph []).boundaries hrun ▸ hb)
    | modifier kind =>
      obtain ⟨_, hrun⟩ := h
      obtain ⟨head, r₁, read, r₂, hbegin, hrest, hsame⟩ := readModifier_cases hrun
      rw [← (beginModifier_quiet kind).boundaries hbegin]
      exact hreckons _ _ (.body hbegin) ⟨_, hrest⟩ (hsame ▸ hb)
    | body kind head =>
      obtain ⟨_, hrun⟩ := h
      exact boundary_body hreckons hrun hb

/-! ### The calls of a source -/

def Context.Calls (cx : Context) (source : String) (c : Call) : Prop :=
  ∃ r, skipSpacing (.start cx source []) = .ok ((), r) ∧
    Call.Reaches ⟨readingDepth source.toList.length, .blocks [], r⟩ c

theorem Call.Reaches.ends {c d : Call} (h : c.Reaches d) :
    ∀ {r : Reader}, c.Ends r → ∃ r', d.Ends r' ∧ r'.boundaries <:+ r.boundaries := by
  induction h with
  | refl => exact fun hends => ⟨_, hends, List.suffix_refl _⟩
  | tail _ hasks ih =>
    intro r hends
    obtain ⟨r₁, hends₁, hsuffix₁⟩ := ih hends
    obtain ⟨r₂, hends₂, hsuffix₂⟩ := hasks.ends hends₁
    exact ⟨r₂, hends₂, hsuffix₂.trans hsuffix₁⟩

/-- The blocks of a document are read up to its end, where the context is shown last. -/
theorem Context.exists_blocks_of_parse {cx : Context} {source : String} {d : Document}
    (h : cx.parse source = .ok d) : ∃ r r', skipSpacing (.start cx source []) = .ok ((), r) ∧
      Call.Ends ⟨readingDepth source.toList.length, .blocks [], r⟩ r' ∧
      r'.boundary = ⟨source.toList.length, d.context⟩ ∧
      cx.boundaries source = (r'.boundary :: r'.boundaries).reverse := by
  rw [parse_eq_read] at h
  obtain ⟨content, last, hrun, rfl⟩ := exists_readSource_of_read h
  have hboundaries : cx.boundaries source = last.boundaries.reverse := by
    rw [boundaries, hrun]
  have hwatched : (readSource (readingDepth source.toList.length)).Watched :=
    closed_watched.readSource closed_watched.encloses watched_readModifier _
  obtain ⟨passed, hsees⟩ := (hwatched _).of_ok hrun
  have hrest := ((ensures_readSource_end _ _).of_ok hrun).1
  obtain ⟨_, r, hskip, hrun⟩ := ok_of_bind hrun
  obtain ⟨nodes, r', hblocks, hrun⟩ := ok_of_bind hrun
  cases hrun
  refine ⟨r, r', hskip, ⟨content, hblocks⟩, ?_, hboundaries⟩
  have hlength := hsees.length
  rw [hrest] at hlength
  exact congrArg (Boundary.mk · r'.engine.context) (hlength.trans (Nat.zero_add _))

/-- **What is called is what is run.**  In a document that is read every call ends, and the
boundaries are the places where a block that is called starts, and the end. -/
theorem Context.calls_of_parse {cx : Context} {source : String} {d : Document}
    (h : cx.parse source = .ok d) :
    (∀ c, cx.Calls source c → ∃ r, c.Ends r) ∧
    ∀ b, b ∈ cx.boundaries source ↔ b = ⟨source.toList.length, d.context⟩ ∨
      ∃ fuel r, cx.Calls source ⟨fuel, .block, r⟩ ∧ b = r.boundary := by
  obtain ⟨r, r', hskip, hends, hlast, hboundaries⟩ := exists_blocks_of_parse h
  -- there is one reader where the blocks start
  have hreaches : ∀ {c}, cx.Calls source c →
      Call.Reaches ⟨readingDepth source.toList.length, .blocks [], r⟩ c := by
    rintro c ⟨s, hskip', hreaches⟩
    obtain ⟨-, rfl⟩ := ok_unique hskip hskip'
    exact hreaches
  refine ⟨fun c hc => ?_, fun b => ?_⟩
  · obtain ⟨s, hends', -⟩ := (hreaches hc).ends hends
    exact ⟨s, hends'⟩
  rw [hboundaries, List.mem_reverse, List.mem_cons, hlast]
  refine or_congr_right ⟨fun hb => ?_, ?_⟩
  · rcases Call.Ends.boundary _ hends b hb with hb | ⟨fuel, s, hs, rfl⟩
    · cases hskip
      cases hb
    · exact ⟨fuel, s, ⟨r, hskip, hs⟩, rfl⟩
  · rintro ⟨fuel, s, hs, rfl⟩
    obtain ⟨s', ⟨nodes, hblock⟩, hsuffix⟩ := (hreaches hs).ends hends
    obtain ⟨inside, hinside⟩ := boundary_of_readBlock hblock
    exact hsuffix.subset (hinside ▸ List.mem_append_right _ List.mem_cons_self)

/-! ### Calls that are computed -/

def Parse.blockAnd (fuel : Nat) (skip : Parse Unit) : Parse (List Node) := do
  let nodes ← readBlock fuel
  skip
  return nodes

/-- The call that a block makes once it was shown, by the mark that it starts with. -/
def Call.ofBlock (fuel : Nat) (r : Reader) : List Call :=
  match r.blockMark? with
  | none => [⟨fuel, .paragraph, r⟩]
  | some .blockOpen => [⟨fuel, .modifier .block, r⟩]
  | some .systemOpen => [⟨fuel, .modifier .system, r⟩]
  | some _ => ((accept .groupOpen >>= fun _ => enterGroup) r).toOption.toList.map
      fun (_, r') => ⟨fuel, .group [], r'⟩

def Call.callees : Call → List Call
  | ⟨0, _, _⟩ => []
  | ⟨fuel + 1, .blocks before, r⟩ =>
    if r.cursor.isAtEnd then [] else
      ⟨fuel, .block, r⟩ :: (blockAnd fuel skipSpacing r).toOption.toList.map
        fun (nodes, r') => ⟨fuel, .blocks (nodes.reverse ++ before), r'⟩
  | ⟨fuel + 1, .block, r⟩ =>
    (fireInspectors r).toOption.toList.flatMap fun (_, r') => ofBlock fuel r'
  | ⟨fuel + 1, .group before, r⟩ =>
    if r.cursor.isAtEnd ∨ r.cursor.peek Mark.groupClose.text then [] else
      ⟨fuel, .block, r⟩ :: (blockAnd fuel (skipLines 1) r).toOption.toList.map
        fun (nodes, r') => ⟨fuel, .group (nodes.reverse ++ before), r'⟩
  | ⟨_ + 1, .paragraph, _⟩ => []
  | ⟨fuel + 1, .modifier kind, r⟩ =>
    (beginModifier kind r).toOption.toList.map fun (head, r') => ⟨fuel, .body kind head, r'⟩
  | ⟨fuel + 1, .body kind head, r⟩ =>
    if kind = .inline ∨ head.isWhole ∨ head.modifier.definition.slot = .preformatted then [] else
      (skipLines 1 r).toOption.toList.flatMap fun (_, r') =>
        if r'.cursor.isAtEnd then [] else [⟨fuel, .block, r'⟩]

/-- The call at the end of a path, which says at each call on the way which of its calls comes
next. -/
def Call.callee? (c : Call) : List Nat → Option Call
  | [] => some c
  | i :: path => c.callees[i]?.bind (·.callee? path)

/-- The call at the end of a path from the blocks of a source. -/
def Context.call? (cx : Context) (source : String) (path : List Nat) : Option Call :=
  (skipSpacing (.start cx source [])).toOption.bind fun (_, r) =>
    Call.callee? ⟨readingDepth source.toList.length, .blocks [], r⟩ path

/-- What a construct is, without what was read for it. -/
inductive Shape where
  | blocks
  | block
  | group
  | paragraph
  | modifier (kind : ModifierKind)
  | body (kind : ModifierKind) (isWhole : Bool)
deriving DecidableEq

def Construct.shape : Construct → Shape
  | .blocks _ => .blocks
  | .block => .block
  | .group _ => .group
  | .paragraph => .paragraph
  | .modifier kind => .modifier kind
  | .body kind head => .body kind head.isWhole

theorem Construct.eq_block_of_shape {c : Construct} (h : c.shape = .block) : c = .block := by
  cases c <;> first | rfl | cases h

theorem Construct.eq_paragraph_of_shape {c : Construct} (h : c.shape = .paragraph) :
    c = .paragraph := by
  cases c <;> first | rfl | cases h

theorem Construct.eq_group_of_shape {c : Construct} (h : c.shape = .group) :
    ∃ before, c = .group before := by
  cases c <;> first | exact ⟨_, rfl⟩ | cases h

theorem Construct.eq_body_of_shape {c : Construct} {kind : ModifierKind} {isWhole : Bool}
    (h : c.shape = .body kind isWhole) : ∃ head, c = .body kind head ∧ head.isWhole = isWhole := by
  cases c <;> first | cases h; exact ⟨_, rfl, rfl⟩ | cases h

theorem Parse.ok_of_blockAnd {fuel : Nat} {skip : Parse Unit} {nodes : List Node} {r r' : Reader}
    (h : blockAnd fuel skip r = .ok (nodes, r')) :
    ∃ r₁, readBlock fuel r = .ok (nodes, r₁) ∧ skip r₁ = .ok ((), r') := by
  obtain ⟨_, r₁, hblock, h⟩ := ok_of_bind h
  obtain ⟨_, _, hskip, h⟩ := ok_of_bind h
  cases h
  exact ⟨r₁, hblock, hskip⟩

theorem Reader.blockMark?_cases {r : Reader} {mark : Mark} (h : r.blockMark? = some mark) :
    mark = .blockOpen ∨ mark = .systemOpen ∨
      mark = .groupOpen ∧ r.cursor.peek Mark.groupOpen.text = true := by
  have hmem := List.mem_of_find?_eq_some h
  have hpeek := List.find?_some h
  simp only [List.mem_cons, List.not_mem_nil, or_false] at hmem
  rcases hmem with rfl | rfl | rfl
  · exact .inl rfl
  · exact .inr (.inl rfl)
  · exact .inr (.inr ⟨rfl, hpeek⟩)

theorem Call.asks_of_mem_ofBlock {fuel : Nat} {r r' : Reader} {d : Call}
    (hshow : fireInspectors r = .ok ((), r')) (h : d ∈ ofBlock fuel r') :
    Asks ⟨fuel + 1, .block, r⟩ d := by
  rw [ofBlock] at h
  cases hmark : r'.blockMark? with
  | none =>
    rw [hmark] at h
    obtain rfl := List.mem_singleton.mp h
    exact .paragraph hshow hmark
  | some mark =>
    rw [hmark] at h
    rcases Reader.blockMark?_cases hmark with rfl | rfl | ⟨rfl, hpeek⟩
    · obtain rfl := List.mem_singleton.mp h
      exact .modifier hshow hmark
    · obtain rfl := List.mem_singleton.mp h
      exact .modifier hshow hmark
    · obtain ⟨⟨_, r₁⟩, hread, rfl⟩ := List.mem_map.mp h
      obtain ⟨_, _, haccept, henter⟩ := ok_of_bind (mem_toOption.mp hread)
      obtain ⟨rfl, -⟩ := ok_unique haccept (accept_of_peek hpeek)
      exact .group hshow hmark haccept henter

/-- **A call that is computed is made.** -/
theorem Call.asks_of_mem_callees {c d : Call} (h : d ∈ c.callees) : c.Asks d := by
  obtain ⟨fuel, construct, r⟩ := c
  cases fuel with
  | zero => cases h
  | succ fuel =>
    cases construct with
    | blocks before =>
      obtain ⟨hmore, h⟩ := List.mem_ite_nil_left.mp h
      rw [Bool.not_eq_true] at hmore
      rcases List.mem_cons.mp h with rfl | h
      · exact .block hmore
      · obtain ⟨⟨nodes, r'⟩, hread, rfl⟩ := List.mem_map.mp h
        obtain ⟨r₁, hblock, hskip⟩ := ok_of_blockAnd (mem_toOption.mp hread)
        exact .blocks hmore hblock hskip
    | block =>
      obtain ⟨⟨_, r'⟩, hshow, h⟩ := List.mem_flatMap.mp h
      exact asks_of_mem_ofBlock (mem_toOption.mp hshow) h
    | group before =>
      obtain ⟨hmore, h⟩ := List.mem_ite_nil_left.mp h
      rw [not_or, Bool.not_eq_true, Bool.not_eq_true] at hmore
      rcases List.mem_cons.mp h with rfl | h
      · exact .groupBlock hmore.1 hmore.2
      · obtain ⟨⟨nodes, r'⟩, hread, rfl⟩ := List.mem_map.mp h
        obtain ⟨r₁, hblock, hskip⟩ := ok_of_blockAnd (mem_toOption.mp hread)
        exact .groupRest hmore.1 hmore.2 hblock hskip
    | paragraph => cases h
    | modifier kind =>
      obtain ⟨⟨head, r'⟩, hbegin, rfl⟩ := List.mem_map.mp h
      exact .body (mem_toOption.mp hbegin)
    | body kind head =>
      obtain ⟨hblock, h⟩ := List.mem_ite_nil_left.mp h
      rw [not_or, not_or, Bool.not_eq_true] at hblock
      obtain ⟨hkind, hhead, hslot⟩ := hblock
      obtain ⟨⟨_, r'⟩, hskip, h⟩ := List.mem_flatMap.mp h
      obtain ⟨hmore, h⟩ := List.mem_ite_nil_left.mp h
      rw [Bool.not_eq_true] at hmore
      obtain rfl := List.mem_singleton.mp h
      exact .bodyBlock hkind hhead (mem_toOption.mp hskip) hmore hslot

theorem Call.reaches_of_callee? {d : Call} : ∀ {path : List Nat} {c : Call},
    c.callee? path = some d → c.Reaches d := by
  intro path
  induction path with
  | nil =>
    intro c h
    cases h
    exact .refl
  | cons i path ih =>
    intro c h
    obtain ⟨between, hget, h⟩ := Option.bind_eq_some_iff.mp h
    exact .head (asks_of_mem_callees (List.mem_of_getElem? hget)) (ih h)

/-- **A path through the calls of a source ends at a call of it.** -/
theorem Context.calls_of_call? {cx : Context} {source : String} {path : List Nat} {c : Call}
    (h : cx.call? source path = some c) : cx.Calls source c := by
  obtain ⟨⟨_, r⟩, hskip, h⟩ := Option.bind_eq_some_iff.mp h
  exact ⟨r, mem_toOption.mp (Option.mem_toList.mpr hskip), Call.reaches_of_callee? h⟩

end MacroMarkup
