import MacroMarkup.Parser.Document

/-!
# What all steps of reading have in common

All functions of the reader are made of a few primitive steps.  A property that these have, and
that a sequence of steps has if its pieces do, is one of all functions.  For modifiers this is
asked for apart: it may rest on what a lifecycle remembers while the body is read.  So it is for
enclosures: a property may tell where one starts from where it ends.

* `Reader.alone`: a reader that nobody watches.
* `Parse.Elementary`: a property of steps that sequences keep, and that the primitive ones have
  within a line.  `Parse.Basic`: it makes no difference to it where blocks and groups start.
* `Parse.Constructs`: the law of the constructs for one bound, `Parse.InLine` that of those that
  never start a block.
* `Parse.Encloses`: the property passes over interpolations and groups.
* `Elementary.readHead`, `Elementary.readCharacter`, …: the functions that are not recursive, or
  only by themselves.
* `Elementary.inLine`, `Basic.constructs`: the laws of the constructs, for every bound.
* `Basic.readSource`: the property of a whole run.
* `Elementary.readModifier`: modifiers have it if every step of expansion has it.
* `Parse.Recording`: enclosures and messages make no difference to the property, and so for all
  steps in `Parse.Closed`.  `Closed.encloses`: then it passes over interpolations and groups.
-/

namespace MacroMarkup

/-- The reader without inspectors, and without what they saw. -/
def Reader.alone (r : Reader) : Reader :=
  { r with cursor := { r.cursor with inspectors := [] }, sightings := [] }

open Parse

/-- The primitive steps of reading within a line have the property, and sequences have it if their
pieces do.  What is looked up in the reader must not depend on inspectors.  Nothing is asked for
where an enclosure starts or ends, and where a group is reported that is not closed. -/
structure Parse.Elementary (P : (α : Type) → Parse α → Prop) : Prop where
  pure : ∀ {α : Type} {a : α}, P α (pure a)
  throw : ∀ {α : Type} {fault : Fault}, P α (throw fault)
  lift : ∀ {α : Type} {x : Except Fault α}, P α (liftM x)
  bind : ∀ {α β : Type} {x : Parse α} {f : α → Parse β}, P α x → (∀ a, P β (f a)) → P β (x >>= f)
  look : ∀ {α : Type} {f : Reader → Parse α}, (∀ r : Reader, f r.alone = f r) → (∀ r, P α (f r)) →
    P α (get >>= f)
  advance : ∀ n, P Unit (moveCursor fun cursor => cursor.advance n)
  skipWhile : ∀ p, P Unit (moveCursor fun cursor => cursor.skipWhile p)
  accept : ∀ mark, P Bool (accept mark)
  takeChar? : P (Option Char) takeChar?
  note : ∀ {p : Problem} {span : Span}, p ≠ .expected Mark.groupClose.text →
    P Unit (emit [p.message span])
  evaluate : ∀ arguments, P (List Argument) (expanding (expandArguments arguments))

/-- The steps that count groups and that show the context where a block starts have it too. -/
structure Parse.Basic (P : (α : Type) → Parse α → Prop) : Prop extends Elementary P where
  regroup : ∀ f : Nat → Nat, P PUnit (modify fun r => { r with openGroups := f r.openGroups })
  fireInspectors : P Unit fireInspectors

/-- The property of the constructs that never start a block, for one bound on how deep they may
call each other. -/
structure Parse.InLine (P : (α : Type) → Parse α → Prop) (fuel : Nat) : Prop where
  paragraph : ∀ before, P _ (readParagraph fuel before)
  inline : ∀ before, P _ (readInline fuel before)
  inlineBody : ∀ d before, P _ (readInlineBody fuel d before)
  body : ∀ head, P _ (readBody fuel .inline head)
  modifier : P _ (readModifier fuel .inline)

/-- The property of the constructs, for one bound on how deep they may call each other.  What
reads a group on has a property of its own. -/
structure Parse.Constructs (P : (α : Type) → Parse α → Prop) (G : Parse (List Node) → Prop)
    (fuel : Nat) : Prop where
  block : P _ (readBlock fuel)
  group : ∀ before, G (readGroup fuel before)
  paragraph : ∀ before, P _ (readParagraph fuel before)
  inline : ∀ before, P _ (readInline fuel before)
  inlineBody : ∀ d before, P _ (readInlineBody fuel d before)
  body : ∀ kind head, P _ (readBody fuel kind head)
  modifier : ∀ kind, P _ (readModifier fuel kind)

theorem Parse.Constructs.inLine {P : (α : Type) → Parse α → Prop} {G : Parse (List Node) → Prop}
    {fuel : Nat} (h : Constructs P G fuel) : InLine P fuel :=
  ⟨h.paragraph, h.inline, h.inlineBody, h.body .inline, h.modifier .inline⟩

/-- Moves up to the first block of a group, behind its opening mark. -/
def Parse.enterGroup : Parse Unit := do
  modify fun reader => { reader with openGroups := reader.openGroups + 1 }
  endLine
  enter .blocks
  skipLines 1

def Parse.openGroup (fuel : Nat) : Parse (List Node) := do
  modify fun reader => { reader with openGroups := reader.openGroups + 1 }
  endLine
  enter .blocks
  skipLines 1
  let nodes ← readGroup fuel []
  modify fun reader => { reader with openGroups := reader.openGroups - 1 }
  return nodes

theorem Parse.openGroup_eq (fuel : Nat) : openGroup fuel = (do
    enterGroup
    let nodes ← readGroup fuel []
    modify fun reader => { reader with openGroups := reader.openGroups - 1 }
    return nodes) := by
  simp only [openGroup, enterGroup, bind_assoc]

/-- The property passes over interpolations and groups, if what reads a group on has the property
`G`. -/
structure Parse.Encloses (P : (α : Type) → Parse α → Prop) (G : Parse (List Node) → Prop) :
    Prop where
  readEntities : ∀ fuel closing parts stop, P _ (readEntities fuel closing parts stop)
  readPreformatted : P _ readPreformatted
  groupOr : ∀ {fuel : Nat} {other : Parse (List Node)}, Constructs P G fuel → P _ other →
    P _ (accept .groupOpen >>= fun opened => if opened then openGroup fuel else other)
  readGroup : ∀ {fuel : Nat}, Constructs P G fuel → ∀ before, G (readGroup (fuel + 1) before)
  unread : G (throw .outOfFuel)

namespace Parse.Elementary

variable {P : (α : Type) → Parse α → Prop} {α : Type}

theorem ite (_ : Elementary P) {c : Prop} [Decidable c] {x y : Parse α} (hx : P α x) (hy : P α y) :
    P α (if c then x else y) := by
  split
  · exact hx
  · exact hy

variable (h : Elementary P)

include h

/-! ### Scanning -/

theorem configuration : P _ configuration := h.look (fun _ => rfl) fun _ => h.pure

theorem position : P _ position := h.look (fun _ => rfl) fun _ => h.pure

theorem isAtEnd : P _ isAtEnd := h.look (fun _ => rfl) fun _ => h.pure

theorem peek (mark : Mark) : P _ (peek mark) := h.look (fun _ => rfl) fun _ => h.pure

theorem spanFrom (start : Nat) : P _ (spanFrom start) := h.bind h.position fun _ => h.lift

theorem peekName (name : String) : P _ (peekName name) :=
  h.ite h.throw (h.look (fun _ => rfl) fun _ => h.pure)

theorem acceptName (name : String) : P _ (acceptName name) :=
  h.bind (h.peekName name) fun _ => h.ite (h.bind (h.advance _) fun _ => h.pure) h.pure

theorem skipLines (limit : Nat) : P _ (skipLines limit) :=
  h.bind h.position fun _ => h.look (fun _ => rfl) fun _ => h.bind (h.skipWhile _) fun _ =>
    h.ite (h.bind (h.spanFrom _) fun _ => h.note nofun) h.pure

theorem endLine : P _ endLine :=
  h.bind (h.skipWhile _) fun _ => h.bind (h.accept _) fun _ =>
    h.ite (h.bind h.position fun _ => h.note nofun) h.pure

theorem findLongestM? [Named α] (registry : Registry α) :
    P _ (registry.findLongestM? Parse.peekName) := by
  have among : ∀ entries : List α,
      P _ (entries.findM? fun x => Parse.peekName (Named.name x)) := by
    intro entries
    induction entries with
    | nil => exact h.pure
    | cons x rest ih =>
      refine h.bind (h.peekName _) fun found => ?_
      cases found with
      | true => exact h.pure
      | false => exact ih
  unfold Registry.findLongestM?
  induction registry.layers with
  | nil => exact h.pure
  | cons layer rest ih =>
    exact h.bind (among layer.byLength) fun _ => h.bind ih fun _ => h.pure

/-! ### Names -/

theorem acceptClosing (closing : Option String) : P _ (acceptClosing closing) := by
  cases closing with
  | none => exact h.pure
  | some mark => exact h.acceptName mark

theorem findInterpolator? : P _ findInterpolator? :=
  h.bind h.configuration fun _ => h.findLongestM? _

theorem readName (kind : ModifierKind) (start : Nat) : P _ (readName kind start) := by
  refine h.bind h.configuration fun _ => h.bind (h.findLongestM? _) fun found => ?_
  cases found with
  | some definition => exact h.bind (h.acceptName _) fun _ => h.pure
  | none =>
    refine h.look (fun _ => rfl) fun _ => h.bind (h.advance _) fun _ => ?_
    exact h.bind (h.spanFrom _) fun _ => h.bind (h.note nofun) fun _ => h.pure

theorem makeHead (kind : ModifierKind) (start : Nat) (found : Option Definition)
    (arguments : List Argument) (ended : Bool) :
    P _ (makeHead kind start found arguments ended) :=
  h.bind (h.spanFrom _) fun _ => h.look (fun _ => rfl) fun _ =>
    h.bind (h.evaluate _) fun _ => h.pure

theorem wholeSpan (head : Head) : P _ (wholeSpan head) := h.ite h.pure (h.spanFrom _)

/-! ### Characters -/

theorem readCharacter (nodes : List Node) : P _ (readCharacter nodes) := by
  refine h.bind h.position fun _ => h.bind (h.accept _) fun _ => h.ite ?_ ?_
  · refine h.bind (h.skipWhile _) fun _ => h.look (fun _ => rfl) fun _ => ?_
    refine h.bind (h.peek _) fun _ => h.bind (h.peek _) fun _ => h.bind (h.peek _) fun _ => ?_
    refine h.bind h.isAtEnd fun _ => h.ite h.pure ?_
    exact h.bind (h.accept _) fun _ => h.ite (h.bind (h.skipLines _) fun _ => h.pure)
      (h.bind h.lift fun _ => h.pure)
  · refine h.bind h.takeChar? fun taken => ?_
    cases taken with
    | some c => exact h.bind (h.spanFrom _) fun _ => h.pure
    | none => exact h.pure

theorem readEscaped (start : Nat) (nodes : List Node) : P _ (readEscaped start nodes) := by
  refine h.bind h.takeChar? fun taken => ?_
  cases taken with
  | some c => exact h.bind (h.spanFrom _) fun _ => h.pure
  | none => exact h.bind (h.spanFrom _) fun _ => h.pure

theorem acceptInlineClose : P _ acceptInlineClose :=
  h.bind (h.accept _) fun _ => h.ite h.pure (h.accept _)

/-! ### Arguments and heads -/

section Heads

variable (hentities : ∀ fuel closing parts stop, P _ (readEntities fuel closing parts stop))

include hentities

theorem readArgument : P _ readArgument :=
  h.bind h.position fun _ => h.look (fun _ => rfl) fun _ =>
    h.bind (hentities _ _ _ _) fun _ => h.bind h.lift fun _ => h.pure

theorem readArgumentList (leadingSeparator : Bool) (fuel : Nat) :
    ∀ before : List Argument, P _ (readArgumentList leadingSeparator fuel before) := by
  induction fuel with
  | zero => exact fun _ => h.throw
  | succ fuel ih =>
    exact fun _ => h.bind (h.readArgument hentities) fun _ => h.ite (ih _) (h.ite h.pure h.pure)

theorem readArguments : P _ readArguments :=
  h.bind (h.accept _) fun _ => h.ite
    (h.bind (h.skipWhile _) fun _ => h.look (fun _ => rfl) fun _ =>
      h.readArgumentList hentities _ _ _)
    (h.look (fun _ => rfl) fun _ => h.readArgumentList hentities _ _ _)

theorem readHead (kind : ModifierKind) : P _ (readHead kind) := by
  refine h.bind h.position fun _ => h.bind (h.accept _) fun _ => h.bind (h.readName _ _) fun _ => ?_
  refine h.bind (h.readArguments hentities) fun _ => h.bind (h.accept _) fun _ =>
    h.bind (h.accept _) fun _ => h.ite ?_ (h.makeHead _ _ _ _ _)
  exact h.bind h.position fun _ => h.bind (h.note (by decide)) fun _ => h.makeHead _ _ _ _ _

/-- A modifier has the property if its body and every step of expansion have it. -/
theorem readModifier (hsteps : ∀ {α : Type} (step : Expand α), P α (expanding step)) {fuel : Nat}
    {kind : ModifierKind} (hbody : ∀ head, P _ (Parse.readBody fuel kind head)) :
    P _ (readModifier (fuel + 1) kind) := by
  refine h.bind (h.readHead hentities kind) fun head => h.bind (hsteps _) fun _ =>
    h.bind (hsteps _) fun _ => h.bind (hsteps _) fun _ => h.bind (hbody head) fun _ => ?_
  refine h.bind (h.wholeSpan head) fun _ => h.bind (hsteps _) fun _ => h.bind (hsteps _) fun _ => ?_
  exact h.look (fun _ => rfl) fun _ => h.bind (hsteps _) fun _ => h.pure

end Heads

/-! ### Constructs within a line -/

section InLine

variable {fuel : Nat} (ih : InLine P fuel)

include ih

theorem readParagraph (before : List Node) : P _ (readParagraph (fuel + 1) before) :=
  h.bind h.isAtEnd fun _ => h.ite h.pure <| h.bind (ih.inline before) fun _ =>
    h.ite (ih.paragraph _) h.pure

theorem readInline (before : List Node) : P _ (readInline (fuel + 1) before) := by
  refine h.bind (h.peek _) fun _ =>
    h.ite (h.bind h.position fun _ => h.bind (h.note nofun) fun _ => h.pure) ?_
  refine h.bind (h.peek _) fun _ => h.ite (h.bind ih.modifier fun _ => h.pure) ?_
  refine h.bind (h.peek _) fun _ => h.ite h.pure ?_
  refine h.bind h.position fun _ => h.bind (h.accept _) fun _ => h.ite ?_ (h.readCharacter _)
  exact h.bind (h.readEscaped _ _) fun _ => h.pure

theorem readInlineBody (d : Definition) (before : List Node) :
    P _ (readInlineBody (fuel + 1) d before) := by
  refine h.bind h.acceptInlineClose fun _ => h.ite h.pure ?_
  refine h.bind h.isAtEnd fun _ =>
    h.ite (h.bind h.position fun _ => h.bind (h.note nofun) fun _ => h.pure) ?_
  refine h.bind (h.ite (h.readCharacter _) (ih.inline before)) fun _ =>
    h.ite (ih.inlineBody d _) ?_
  exact h.bind h.position fun _ => h.bind (h.note nofun) fun _ => h.pure

theorem readBody_inline (head : Head) : P _ (readBody (fuel + 1) .inline head) := by
  rw [Parse.readBody]
  exact h.ite h.pure (by simpa using ih.inlineBody _ [])

end InLine

/-- **The constructs within a line have the property**, for every bound. -/
theorem inLine (hmodifier : ∀ fuel, (∀ head, P _ (Parse.readBody fuel .inline head)) →
    P _ (Parse.readModifier (fuel + 1) .inline)) (fuel : Nat) : InLine P fuel := by
  induction fuel with
  | zero =>
    exact ⟨fun _ => h.throw, fun _ => h.throw, fun _ _ => h.throw, fun _ => h.throw, h.throw⟩
  | succ fuel ih =>
    exact ⟨h.readParagraph ih, h.readInline ih, h.readInlineBody ih, h.readBody_inline ih,
      hmodifier fuel ih.body⟩

end Parse.Elementary

namespace Parse.Basic

variable {P : (α : Type) → Parse α → Prop} (h : Basic P) {G : Parse (List Node) → Prop}
  (g : Encloses P G)

include h g

/-! ### Constructs -/

section Constructs

variable {fuel : Nat} (ih : Constructs P G fuel)

include ih

/-- A block is shown to inspectors before anything is read. -/
theorem exists_readBlock :
    ∃ rest : Parse (List Node), P _ rest ∧
      Parse.readBlock (fuel + 1) = Parse.fireInspectors >>= fun _ => rest := by
  refine ⟨_, ?_, by rw [Parse.readBlock]⟩
  refine h.bind (h.peek _) fun _ => h.ite (h.bind (ih.modifier .block) fun _ => h.pure) ?_
  refine h.bind (h.peek _) fun _ => h.ite (h.bind (ih.modifier .system) fun _ => h.pure) ?_
  refine g.groupOr ih ?_
  exact h.bind h.position fun _ => h.bind (ih.paragraph []) fun _ =>
    h.bind (h.spanFrom _) fun _ => h.pure

theorem readBlock : P _ (readBlock (fuel + 1)) := by
  obtain ⟨rest, hrest, hblock⟩ := h.exists_readBlock g ih
  rw [hblock]
  exact h.bind h.fireInspectors fun _ => hrest

theorem readBody (kind : ModifierKind) (head : Head) : P _ (readBody (fuel + 1) kind head) := by
  refine h.ite h.pure (h.ite (ih.inlineBody _ []) ?_)
  refine h.bind (h.skipLines _) fun _ => h.bind h.isAtEnd fun _ => h.ite h.pure (h.ite ?_ ?_)
  · exact h.bind g.readPreformatted fun _ => h.pure
  · exact h.bind ih.block fun _ => h.pure

end Constructs

variable (hmodifier : ∀ fuel, (∀ kind head, P _ (Parse.readBody fuel kind head)) →
  ∀ kind, P _ (Parse.readModifier (fuel + 1) kind))

include hmodifier

/-- **The constructs have the property**, for every bound. -/
theorem constructs (fuel : Nat) : Constructs P G fuel := by
  induction fuel with
  | zero =>
    exact ⟨h.throw, fun _ => g.unread, fun _ => h.throw, fun _ => h.throw, fun _ _ => h.throw,
      fun _ _ => h.throw, fun _ => h.throw⟩
  | succ fuel ih =>
    exact ⟨h.readBlock g ih, g.readGroup ih, h.readParagraph ih.inLine, h.readInline ih.inLine,
      h.readInlineBody ih.inLine, h.readBody g ih, hmodifier fuel ih.body⟩

theorem readBlocks (fuel : Nat) : ∀ before : List Node, P _ (readBlocks fuel before) := by
  induction fuel with
  | zero => exact fun _ => h.throw
  | succ fuel ih =>
    intro before
    refine h.bind h.isAtEnd fun _ => h.ite h.pure ?_
    exact h.bind (h.constructs g hmodifier fuel).block fun _ => h.bind (h.skipWhile _) fun _ => ih _

/-- **Reading a whole source has the property.** -/
theorem readSource (fuel : Nat) : P _ (readSource fuel) :=
  h.bind (h.skipWhile _) fun _ => h.bind (h.readBlocks g hmodifier fuel []) fun _ =>
    h.bind h.fireInspectors fun _ => h.pure

end Parse.Basic

/-! ### Properties that do not tell enclosures -/

/-- The steps that record enclosures have the property too, and so have all messages. -/
structure Parse.Recording (P : (α : Type) → Parse α → Prop) : Prop extends Elementary P where
  enter : ∀ kind, P Unit (enter kind)
  leave : ∀ closed, P Unit (leave closed)
  emit : ∀ messages, P Unit (emit messages)
  note := fun _ => emit _

/-- The primitive steps of reading have the property, all of them. -/
structure Parse.Closed (P : (α : Type) → Parse α → Prop) : Prop extends Basic P, Recording P

namespace Parse.Recording

variable {P : (α : Type) → Parse α → Prop} (h : Recording P)

include h

theorem readEntities (fuel : Nat) : ∀ (closing : Option String) (parts : List Entity) (stop : Nat),
    P _ (readEntities fuel closing parts stop) := by
  induction fuel with
  | zero => exact fun _ _ _ => h.throw
  | succ fuel ih =>
    intro closing parts stop
    rw [Parse.readEntities]
    refine h.bind (h.acceptClosing closing) fun _ => h.ite h.pure ?_
    refine h.bind (h.accept _) fun _ => h.ite h.pure ?_
    refine h.bind (h.peek _) fun _ => h.bind (h.peek _) fun _ => h.bind h.isAtEnd fun _ =>
      h.ite h.pure ?_
    refine h.bind h.position fun _ => h.bind (h.accept _) fun _ => h.ite ?_ ?_
    · refine h.bind h.takeChar? fun taken => ?_
      cases taken with
      | some c => exact h.bind (h.spanFrom _) fun _ => ih _ _ _
      | none => exact h.bind (h.spanFrom _) fun _ => h.pure
    refine h.bind h.findInterpolator? fun found => ?_
    cases found with
    | some interpolator =>
      refine h.bind (h.acceptName _) fun _ => h.bind h.position fun _ =>
        h.bind (h.enter _) fun _ => h.bind (ih _ _ _) fun _ => h.bind (h.leave _) fun _ => ?_
      refine h.bind h.lift fun _ => h.bind (h.spanFrom _) fun _ => h.ite (ih _ _ _) ?_
      exact h.bind (h.emit _) fun _ => h.pure
    | none =>
      refine h.bind h.takeChar? fun taken => ?_
      cases taken with
      | some c => exact h.bind (h.spanFrom _) fun _ => ih _ _ _
      | none => exact h.pure

theorem readRaw (start : Nat) (grouped : Bool) : P _ (readRaw start grouped) := by
  have hclose : ∀ (contentStart : Nat) (raw : RawText), P _ (do
      let span ← Parse.spanFrom start
      let contentSpan ← Span.checked contentStart (contentStart + raw.contentLength)
      return Node.preformatted span contentSpan raw.text) :=
    fun _ _ => h.bind (h.spanFrom _) fun _ => h.bind h.lift fun _ => h.pure
  refine h.bind h.position fun _ => h.look (fun _ => rfl) fun _ => h.bind (h.advance _) fun _ => ?_
  refine h.bind (h.ite (h.leave _) h.pure) fun _ => ?_
  exact h.ite (h.bind h.position fun _ => h.bind (h.emit _) fun _ => hclose _ _) (hclose _ _)

theorem readPreformatted : P _ readPreformatted :=
  h.bind h.position fun _ => h.bind (h.accept _) fun _ =>
    h.ite (h.bind h.endLine fun _ => h.bind (h.enter _) fun _ => h.readRaw _ _) (h.readRaw _ _)

end Parse.Recording

namespace Parse.Closed

variable {P : (α : Type) → Parse α → Prop} (h : Closed P)

include h

/-- **Such a property passes over interpolations and groups.** -/
theorem encloses : Encloses P (P (List Node)) where
  readEntities := h.readEntities
  readPreformatted := h.readPreformatted
  groupOr ih hother := by
    refine h.bind (h.accept _) fun _ => h.ite ?_ hother
    refine h.bind (h.regroup (· + 1)) fun _ => h.bind h.endLine fun _ => h.bind (h.enter _) fun _ =>
      h.bind (h.skipLines _) fun _ => h.bind (ih.group []) fun _ => ?_
    exact h.bind (h.regroup (· - 1)) fun _ => h.pure
  readGroup ih before := by
    refine h.bind h.isAtEnd fun _ => h.ite (h.bind (h.leave _) fun _ =>
      h.bind h.position fun _ => h.bind (h.emit _) fun _ => h.pure) ?_
    refine h.bind (h.accept _) fun _ => h.ite (h.bind (h.leave _) fun _ => h.pure) ?_
    exact h.bind ih.block fun _ => h.bind (h.skipLines _) fun _ => ih.group _
  unread := h.throw

end Parse.Closed

end MacroMarkup
