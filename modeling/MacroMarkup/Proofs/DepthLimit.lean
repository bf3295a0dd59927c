import MacroMarkup.Proofs.LimitedWalk
import MacroMarkup.Document.Strip

/-!
# Reading under a larger limit

Reading does not look at the limit.  Only the walks over generated content do, and they
start behind the body of a modifier.

* `persists_readHead`, `persists_readRaw`, …: the parts of a source.
* `ConstructsPersist`: the law of all constructs for one bound, which `constructsPersist`
  proves for every bound.
* `read_withLimit`: what meets no limit is the same under every larger one.
-/

namespace MacroMarkup

open Limited Parse

/-! ### Scanning -/

section Scanning

variable {α : Type} {L : Nat} {r : Reader}

theorem PersistsAs.configuration {f f' : Configuration → Parse α}
    {ok : α → Prop} (h : PersistsAs L ok (f r.engine.context.configuration)
      (f' (withLimit L r).engine.context.configuration) r) :
    PersistsAs L ok (Parse.configuration >>= f) (Parse.configuration >>= f') r := h

theorem persists_note {messages : List Message} : Persists L (Parse.emit messages) r :=
  .expanding persists_emit

theorem persists_moveCursor {f : Cursor → Cursor} : Persists L (moveCursor f) r :=
  .modify (Nat.le_refl _) rfl rfl

theorem persists_position : Persists L position r := .get .pure

theorem persists_isAtEnd : Persists L isAtEnd r := .get .pure

theorem persists_peek {mark : Mark} : Persists L (peek mark) r := .get .pure

theorem persists_spanFrom {start : Nat} : Persists L (spanFrom start) r :=
  .bind persists_position fun _ _ => .lift

theorem persists_accept {mark : Mark} : Persists L (accept mark) r := by
  intro _ a r' hrun
  cases hrun
  exact ⟨Nat.le_refl _, rfl, fun _ _ => rfl⟩

theorem persists_peekName {name : String} : Persists L (peekName name) r :=
  .ite (fun _ => .throw) fun _ => .get .pure

theorem persists_acceptName {name : String} : Persists L (acceptName name) r := by
  refine .bind persists_peekName fun found r' => ?_
  exact .ite (fun _ => .bind persists_moveCursor fun _ _ => .pure) fun _ => .pure

theorem persists_takeChar? : Persists L takeChar? r := by
  intro _ a r' hrun
  obtain ⟨⟨source, rest, position, inspectors⟩, engine, openGroups, sightings⟩ := r
  cases rest with
  | nil =>
    cases hrun
    exact ⟨Nat.le_refl _, rfl, fun _ _ => rfl⟩
  | cons c rest =>
    cases hrun
    exact ⟨Nat.le_refl _, rfl, fun _ _ => rfl⟩

theorem persists_skipLines {limit : Nat} : Persists L (skipLines limit) r := by
  refine .bind persists_position fun start r₁ => ?_
  refine .get ?_
  refine .bind persists_moveCursor fun _ r₂ => .ite (fun _ => ?_) fun _ => .pure
  exact .bind persists_spanFrom fun _ _ => persists_note

theorem persists_endLine : Persists L endLine r := by
  refine .bind persists_moveCursor fun _ r₁ => ?_
  refine .bind persists_accept fun found r₂ => ?_
  exact .ite (fun _ => .bind persists_position fun _ _ => persists_note) fun _ => .pure

theorem persists_enter {kind : EnclosureKind} : Persists L (enter kind) r :=
  .modify (Nat.le_refl _) rfl rfl

theorem persists_leave {closed : Bool} : Persists L (leave closed) r :=
  .modify (Nat.le_refl _) rfl rfl

theorem persists_fireInspectors : Persists L fireInspectors r := by
  refine .modify (Nat.le_refl _) rfl ?_
  simp only [withLimit, List.map_append, List.map_reverse, List.map_map]
  rfl

theorem persists_findLongestM? [Named α] {registry : Registry α} :
    Persists L (registry.findLongestM? peekName) r := by
  have among : ∀ (entries : List α) (r : Reader),
      Persists L (entries.findM? fun x => peekName (Named.name x)) r := by
    intro entries
    induction entries with
    | nil => exact fun r => .pure
    | cons x rest ih =>
      intro r
      refine .bind persists_peekName fun found r' => ?_
      cases found with
      | true => exact .pure
      | false => exact ih r'
  unfold Registry.findLongestM?
  induction registry.layers generalizing r with
  | nil => exact .pure
  | cons layer rest ih =>
    refine .bind (among layer.byLength r) fun upper r' => ?_
    exact .bind ih fun _ _ => .pure

end Scanning

/-! ### Arguments and heads -/

section Heads

variable {L : Nat} {r : Reader}

section Parts

variable {fuel : Nat} {closing : Option String} {parts : List Entity} {start : Nat}
  (ih : ∀ closing parts stop r, Persists L (readEntities fuel closing parts stop) r)

include ih

theorem persists_readEscapedPart : Persists L (readEscapedPart fuel closing parts start) r := by
  refine .bind persists_takeChar? fun taken r₁ => ?_
  cases taken with
  | some c => exact .bind persists_spanFrom fun _ r₂ => ih _ _ _ r₂
  | none => exact .bind persists_spanFrom fun _ _ => .pure

theorem persists_readInterpolationPart {interpolator : Interpolator} :
    Persists L (readInterpolationPart fuel closing parts start interpolator) r := by
  refine .bind persists_acceptName fun _ r₁ => ?_
  refine .bind persists_position fun innerStart r₂ => ?_
  refine .bind persists_enter fun _ r₃ => ?_
  refine .bind (ih _ _ _ r₃) fun inner r₄ => ?_
  refine .bind persists_leave fun _ r₅ => ?_
  refine .bind .lift fun innerSpan r₆ => ?_
  refine .bind persists_spanFrom fun span r₇ => ?_
  refine .ite (fun _ => ih _ _ _ r₇) fun _ => ?_
  exact .bind persists_note fun _ _ => .pure

theorem persists_readTextPart {stop : Nat} :
    Persists L (readTextPart fuel closing parts start stop) r := by
  refine .bind persists_takeChar? fun taken r₁ => ?_
  cases taken with
  | some c => exact .bind persists_spanFrom fun _ r₂ => ih _ _ _ r₂
  | none => exact .pure

end Parts

theorem persists_readEntities (fuel : Nat) : ∀ (closing : Option String) (parts : List Entity)
    (stop : Nat) (r : Reader), Persists L (readEntities fuel closing parts stop) r := by
  induction fuel with
  | zero => exact fun _ _ _ _ => .throw
  | succ fuel ih =>
    intro closing parts stop r
    have hclosing : ∀ r, Persists L (acceptClosing closing) r := by
      intro r
      cases closing with
      | none => exact .pure
      | some mark => exact persists_acceptName
    rw [readEntities_succ]
    refine .bind (hclosing r) fun closed r₁ => ?_
    refine .ite (fun _ => .pure) fun _ => ?_
    refine .bind persists_accept fun separated r₂ => ?_
    refine .ite (fun _ => .pure) fun _ => ?_
    refine .bind persists_peek fun ended r₃ => ?_
    refine .bind persists_peek fun closed r₄ => ?_
    refine .bind persists_isAtEnd fun atEnd r₅ => ?_
    refine .ite (fun _ => .pure) fun _ => ?_
    refine .bind persists_position fun start r₆ => ?_
    refine .bind persists_accept fun escaped r₇ => ?_
    refine .ite (fun _ => persists_readEscapedPart ih) fun _ => ?_
    -- the interpolators do not depend on the limit
    refine .bind (.configuration persists_findLongestM?) fun found r₈ => ?_
    cases found with
    | some interpolator => exact persists_readInterpolationPart ih
    | none => exact persists_readTextPart ih

theorem persists_readArgument : Persists L readArgument r := by
  refine .bind persists_position fun start r₁ => ?_
  refine .get ?_
  refine .bind (persists_readEntities _ _ _ _ r₁) fun text r₂ => ?_
  exact .bind .lift fun _ _ => .pure

theorem persists_readArgumentList (leadingSeparator : Bool) (fuel : Nat) :
    ∀ (before : List Argument) (r : Reader),
      Persists L (readArgumentList leadingSeparator fuel before) r := by
  induction fuel with
  | zero => exact fun _ _ => .throw
  | succ fuel ih =>
    intro before r
    refine .bind persists_readArgument fun read r₁ => ?_
    refine .ite (fun _ => ih _ r₁) fun _ => ?_
    exact .ite (fun _ => .pure) fun _ => .pure

theorem persists_readArguments : Persists L readArguments r := by
  refine .bind persists_accept fun leadingSeparator r₁ => ?_
  refine .ite (fun _ => .bind persists_moveCursor fun _ r₂ => .get ?_) fun _ => .get ?_
  · exact persists_readArgumentList _ _ _ r₂
  · exact persists_readArgumentList _ _ _ r₁

theorem persists_readName {kind : ModifierKind} {start : Nat} :
    Persists L (readName kind start) r := by
  refine .configuration (.bind persists_findLongestM? fun found r₁ => ?_)
  cases found with
  | some definition => exact .bind persists_acceptName fun _ _ => .pure
  | none =>
    refine .get (.bind persists_moveCursor fun _ r₂ => .bind persists_spanFrom fun span r₃ => ?_)
    exact .bind persists_note fun _ _ => .pure

theorem persists_makeHead {kind : ModifierKind} {start : Nat} {found : Option Definition}
    {arguments : List Argument} {ended : Bool} :
    Persists L (makeHead kind start found arguments ended) r := by
  refine .bind persists_spanFrom fun head r₁ => ?_
  refine .get ?_
  exact .bind (.expanding (persists_expandArguments arguments _)) fun _ _ => .pure

theorem persists_readHead {kind : ModifierKind} : Persists L (readHead kind) r := by
  refine .bind persists_position fun start r₁ => ?_
  refine .bind persists_accept fun _ r₂ => ?_
  refine .bind persists_readName fun found r₃ => ?_
  refine .bind persists_readArguments fun arguments r₄ => ?_
  refine .bind persists_accept fun ended r₅ => ?_
  refine .bind persists_accept fun closed r₆ => ?_
  refine .ite (fun _ => .bind persists_position fun stop r₇ => ?_) fun _ => persists_makeHead
  exact .bind persists_note fun _ _ => persists_makeHead

theorem persists_wholeSpan {head : Head} : Persists L (wholeSpan head) r :=
  .ite (fun _ => .pure) fun _ => persists_spanFrom

end Heads

/-! ### Raw text and characters -/

section Characters

variable {L : Nat} {r : Reader}

theorem persists_readRaw {start : Nat} {grouped : Bool} :
    Persists L (readRaw start grouped) r := by
  have close : ∀ (contentStart : Nat) (raw : RawText) (r : Reader), Persists L (do
      let span ← spanFrom start
      let contentSpan ← Span.checked contentStart (contentStart + raw.contentLength)
      return Node.preformatted span contentSpan raw.text) r :=
    fun _ _ _ => .bind persists_spanFrom fun _ _ => .bind .lift fun _ _ => .pure
  refine .bind persists_position fun contentStart r₁ => ?_
  refine .get ?_
  refine .bind persists_moveCursor fun _ r₂ => ?_
  refine .bind (.ite (fun _ => persists_leave) fun _ => .pure) fun _ r₃ => ?_
  refine .ite (fun _ => .bind persists_position fun stop r₄ => ?_) fun _ => close _ _ _
  exact .bind persists_note fun _ _ => close _ _ _

theorem persists_readPreformatted : Persists L readPreformatted r := by
  refine .bind persists_position fun start r₁ => ?_
  refine .bind persists_accept fun grouped r₂ => ?_
  refine .ite (fun _ => ?_) fun _ => persists_readRaw
  exact .bind persists_endLine fun _ _ => .bind persists_enter fun _ _ => persists_readRaw

theorem persists_readCharacter {nodes : List Node} : Persists L (readCharacter nodes) r := by
  refine .bind persists_position fun start r₁ => ?_
  refine .bind persists_accept fun newline r₂ => ?_
  refine .ite (fun _ => .bind persists_moveCursor fun _ r₃ => .get ?_) fun _ => ?_
  · refine .bind persists_peek fun _ _ => ?_
    refine .bind persists_peek fun _ _ => ?_
    refine .bind persists_peek fun _ _ => ?_
    refine .bind persists_isAtEnd fun _ r₄ => ?_
    refine .ite (fun _ => .pure) fun _ => ?_
    refine .bind persists_accept fun blankLine r₅ => ?_
    refine .ite (fun _ => .bind persists_skipLines fun _ _ => .pure) fun _ => ?_
    exact .bind .lift fun _ _ => .pure
  · refine .bind persists_takeChar? fun taken r₃ => ?_
    cases taken with
    | some c => exact .bind persists_spanFrom fun _ _ => .pure
    | none => exact .pure

theorem persists_readEscaped {start : Nat} {nodes : List Node} :
    Persists L (readEscaped start nodes) r := by
  refine .bind persists_takeChar? fun taken r₁ => ?_
  cases taken with
  | some c => exact .bind persists_spanFrom fun _ _ => .pure
  | none => exact .bind persists_spanFrom fun _ _ => .pure

theorem persists_acceptInlineClose : Persists L acceptInlineClose r := by
  refine .bind persists_accept fun found r₁ => .ite (fun _ => .pure) fun _ => persists_accept

end Characters

/-! ### Constructs -/

/-- The law of the constructs, for one bound on how deep they may call each other. -/
structure ConstructsPersist (L fuel : Nat) : Prop where
  block : ∀ r, Persists L (readBlock fuel) r
  group : ∀ before r, Persists L (readGroup fuel before) r
  paragraph : ∀ before r, Persists L (readParagraph fuel before) r
  inline : ∀ before r, Persists L (readInline fuel before) r
  inlineBody : ∀ d before r, Persists L (readInlineBody fuel d before) r
  body : ∀ kind head r, Persists L (readBody fuel kind head) r
  modifier : ∀ kind r, Persists L (readModifier fuel kind) r

section Constructs

variable {L fuel : Nat}

theorem persists_readBlock (ih : ConstructsPersist L fuel) (r : Reader) :
    Persists L (readBlock (fuel + 1)) r := by
  refine .bind persists_fireInspectors fun _ r₁ => ?_
  refine .bind persists_peek fun _ r₂ => ?_
  refine .ite (fun _ => .bind (ih.modifier .block r₂) fun _ _ => .pure) fun _ => ?_
  refine .bind persists_peek fun _ r₃ => ?_
  refine .ite (fun _ => .bind (ih.modifier .system r₃) fun _ _ => .pure) fun _ => ?_
  refine .bind persists_accept fun grouped r₄ => .ite (fun _ => ?_) fun _ => ?_
  · refine .bind (.modify (Nat.le_refl _) rfl rfl) fun _ r₅ => ?_
    refine .bind persists_endLine fun _ r₆ => ?_
    refine .bind persists_enter fun _ r₇ => ?_
    refine .bind persists_skipLines fun _ r₈ => ?_
    refine .bind (ih.group [] r₈) fun nodes r₉ => ?_
    exact .bind (.modify (Nat.le_refl _) rfl rfl) fun _ _ => .pure
  · refine .bind persists_position fun start r₅ => ?_
    refine .bind (ih.paragraph [] r₅) fun nodes r₆ => ?_
    exact .bind persists_spanFrom fun _ _ => .pure

theorem persists_readGroup (ih : ConstructsPersist L fuel) (before : List Node) (r : Reader) :
    Persists L (readGroup (fuel + 1) before) r := by
  refine .bind persists_isAtEnd fun atEnd r₁ => .ite (fun _ => ?_) fun _ => ?_
  · refine .bind persists_leave fun _ r₂ => ?_
    exact .bind persists_position fun _ _ => .bind persists_note fun _ _ => .pure
  · refine .bind persists_accept fun closed r₂ => ?_
    refine .ite (fun _ => .bind persists_leave fun _ _ => .pure) fun _ => ?_
    refine .bind (ih.block r₂) fun nodes r₃ => ?_
    refine .bind persists_skipLines fun _ r₄ => ?_
    exact ih.group _ r₄

theorem persists_readParagraph (ih : ConstructsPersist L fuel) (before : List Node) (r : Reader) :
    Persists L (readParagraph (fuel + 1) before) r := by
  refine .bind persists_isAtEnd fun atEnd r₁ => ?_
  refine .ite (fun _ => .pure) fun _ => ?_
  refine .bind (ih.inline before r₁) fun read r₂ => ?_
  exact .ite (fun _ => ih.paragraph _ r₂) fun _ => .pure

theorem persists_readInline (ih : ConstructsPersist L fuel) (before : List Node) (r : Reader) :
    Persists L (readInline (fuel + 1) before) r := by
  refine .bind persists_peek fun _ r₁ => .ite (fun _ => ?_) fun _ => ?_
  · exact .bind persists_position fun _ _ => .bind persists_note fun _ _ => .pure
  refine .bind persists_peek fun _ r₂ => ?_
  refine .ite (fun _ => .bind (ih.modifier .inline r₂) fun _ _ => .pure) fun _ => ?_
  refine .bind persists_peek fun _ r₃ => ?_
  refine .ite (fun _ => .pure) fun _ => ?_
  refine .bind persists_position fun start r₄ => ?_
  refine .bind persists_accept fun escaped r₅ => ?_
  refine .ite (fun _ => ?_) fun _ => persists_readCharacter
  exact .bind persists_readEscaped fun _ _ => .pure

theorem persists_readInlineBody (ih : ConstructsPersist L fuel) (d : Definition)
    (before : List Node) (r : Reader) : Persists L (readInlineBody (fuel + 1) d before) r := by
  refine .bind persists_acceptInlineClose fun closed r₁ => ?_
  refine .ite (fun _ => .pure) fun _ => ?_
  refine .bind persists_isAtEnd fun atEnd r₂ => .ite (fun _ => ?_) fun _ => ?_
  · exact .bind persists_position fun _ _ => .bind persists_note fun _ _ => .pure
  have hpiece : ∀ r, Persists L
      (if d.slot = .preformatted then readCharacter before else readInline fuel before) r :=
    fun r => .ite (fun _ => persists_readCharacter) fun _ => ih.inline before r
  refine .bind (hpiece r₂) fun read r₃ => ?_
  refine .ite (fun _ => ih.inlineBody d _ r₃) fun _ => ?_
  exact .bind persists_position fun _ _ => .bind persists_note fun _ _ => .pure

theorem persists_readBody (ih : ConstructsPersist L fuel) (kind : ModifierKind) (head : Head)
    (r : Reader) : Persists L (readBody (fuel + 1) kind head) r := by
  refine .ite (fun _ => .pure) fun _ => ?_
  refine .ite (fun _ => ih.inlineBody _ [] r) fun _ => ?_
  refine .bind persists_skipLines fun _ r₁ => ?_
  refine .bind persists_isAtEnd fun atEnd r₂ => ?_
  refine .ite (fun _ => .pure) fun _ => .ite (fun _ => ?_) fun _ => ?_
  · exact .bind persists_readPreformatted fun _ _ => .pure
  · exact .bind (ih.block r₂) fun _ _ => .pure

/-- Behind the body of a modifier generated content may nest deeper under the larger
limit. -/
theorem persists_readModifier (ih : ConstructsPersist L fuel) (kind : ModifierKind) (r : Reader) :
    Persists L (readModifier (fuel + 1) kind) r := by
  refine .bind persists_readHead fun head r₁ => ?_
  have hlife := ignores (L := L) head.modifier.definition.behaviour
  refine .bind (.expanding persists_immediate) fun immediate r₂ => ?_
  refine .bind (.expanding (.reporting (hlife.beforeContent _ immediate _))) fun state r₃ => ?_
  refine .bind (.expanding (.modify (Nat.le_refl _) rfl rfl)) fun _ r₄ => ?_
  refine .bind (ih.body kind head r₄) fun read r₅ => ?_
  refine .bind persists_wholeSpan fun span r₆ => ?_
  refine .bind (.expanding (.modify (Nat.le_refl _) rfl rfl)) fun _ r₇ => ?_
  refine .bind (.expanding (.inContext (hlife.afterContent state _))) fun state r₈ => ?_
  refine .get ?_
  intro hlimit
  have hlevels : r₈.engine.levels ≤ (withLimit L r₈).engine.levels := Nat.succ_le_succ hlimit
  refine PersistsAs.bind (.expanding ?_) (fun _ _ => .pure) hlimit
  let m : Modifier := { head.modifier with span := span, content := read.1 }
  exact persists_expandRead (m := m) (persists_process hlevels) state

/-- **The constructs persist**, for every bound. -/
theorem constructsPersist (fuel : Nat) : ConstructsPersist L fuel := by
  induction fuel with
  | zero =>
    exact ⟨fun _ => .throw, fun _ _ => .throw, fun _ _ => .throw, fun _ _ => .throw,
      fun _ _ _ => .throw, fun _ _ _ => .throw, fun _ _ => .throw⟩
  | succ fuel ih =>
    exact ⟨persists_readBlock ih, persists_readGroup ih, persists_readParagraph ih,
      persists_readInline ih, persists_readInlineBody ih, persists_readBody ih,
      persists_readModifier ih⟩

end Constructs

/-! ### Whole sources -/

section Sources

variable {L : Nat}

theorem persists_readBlocks (fuel : Nat) : ∀ (before : List Node) (r : Reader),
    Persists L (readBlocks fuel before) r := by
  induction fuel with
  | zero => exact fun _ _ => .throw
  | succ fuel ih =>
    intro before r
    refine .bind persists_isAtEnd fun atEnd r₁ => ?_
    refine .ite (fun _ => .pure) fun _ => ?_
    refine .bind ((constructsPersist fuel).block r₁) fun nodes r₂ => ?_
    exact .bind persists_moveCursor fun _ r₃ => ih _ r₃

theorem persists_readSource (fuel : Nat) (r : Reader) : Persists L (readSource fuel) r := by
  refine .bind persists_moveCursor fun _ r₁ => ?_
  refine .bind (persists_readBlocks fuel [] r₁) fun _ r₂ => ?_
  exact .bind persists_fireInspectors fun _ _ => .pure

end Sources

def Document.withLimit (limit : Nat) (d : Document) : Document :=
  { d with
    context := d.context.withLimit limit
    sightings := d.sightings.map (·.withLimit limit) }

/-- **A parse that meets no limit does not depend on it.**  If nothing reports that the limit
was met, and no refusal went unnoticed, then under every larger limit the same source has the
same tree, the same messages and the same context. -/
theorem read_withLimit {cx : Context} {source : String} {inspectors : List Inspector}
    {d : Document} {L : Nat} (hd : cx.read source inspectors = .ok d)
    (hmessages : ∀ message ∈ d.messages, message.reportsLimit = false) (hlosses : d.losses = 0)
    (hL : cx.configuration.depthLimit ≤ L) :
    (cx.withLimit L).read source inspectors = .ok (d.withLimit L) := by
  let r := Reader.start cx source inspectors
  simp only [Context.read, bind, Except.bind] at hd ⊢
  cases hrun : readSource (readingDepth r.cursor.rest.length) r with
  | error fault =>
    rw [hrun] at hd
    cases hd
  | ok done =>
    obtain ⟨content, r'⟩ := done
    rw [hrun] at hd
    cases hd
    obtain ⟨-, -, hpersists⟩ := persists_readSource _ r hL content r' hrun
    have hquiet : alarms r' = alarms r := by
      have hcount : r'.engine.emitted.countP Message.reportsLimit = 0 := by
        refine List.countP_eq_zero.mpr fun message hm => ?_
        simp [hmessages message (List.mem_reverse.mpr hm)]
      show r'.engine.losses + r'.engine.emitted.countP Message.reportsLimit = 0
      rw [hcount]
      exact hlosses
    have hrun' : readSource (readingDepth r.cursor.rest.length)
        (Reader.start (cx.withLimit L) source inspectors) = .ok (content, withLimit L r') :=
      hpersists hquiet trivial
    have hlength : (Reader.start (cx.withLimit L) source inspectors).cursor.rest.length
        = r.cursor.rest.length := rfl
    rw [hlength, hrun']
    have hsightings : ((withLimit L r').document content).sightings
        = ((r'.document content).withLimit L).sightings := List.map_reverse.symm
    exact congrArg (fun sightings => Except.ok { (r'.document content).withLimit L with
      sightings := sightings }) hsightings

/-- A definition with a slot that is used twice, under the limits 10 and 20. -/
theorem read_withLimit_box :
    let source := "[-define-block box][.slot]\n\n[.box][.box][/print abc]"
    ∃ cx d, Context.start Builtin.configuration .empty = .ok cx ∧
      (cx.read source [] = .ok d ∧ (∀ message ∈ d.messages, message.reportsLimit = false) ∧
        d.losses = 0 ∧ cx.configuration.depthLimit ≤ 20) ∧
      (cx.withLimit 20).read source [] = .ok (d.withLimit 20) := by
  intro source
  have hquiet : ((Context.start Builtin.configuration .empty).bind fun cx =>
      (cx.read source []).map fun d => (cx.configuration.depthLimit, d)).toOption.map
        (fun r => (r.1, r.2.messages.any Message.reportsLimit, r.2.losses))
        = some (10, false, 0) := by
    decide +kernel
  obtain ⟨cx, hcx⟩ : ∃ cx, Context.start Builtin.configuration .empty = .ok cx := ⟨_, rfl⟩
  rw [hcx, Except.bind] at hquiet
  cases hd : cx.read source [] with
  | error fault =>
    rw [hd] at hquiet
    cases hquiet
  | ok d =>
    rw [hd] at hquiet
    have hfacts := Option.some.inj hquiet
    have hlimit : cx.configuration.depthLimit = 10 := congrArg (·.1) hfacts
    have hany : d.messages.any Message.reportsLimit = false := congrArg (·.2.1) hfacts
    have hlosses : d.losses = 0 := congrArg (·.2.2) hfacts
    have hmessages : ∀ message ∈ d.messages, message.reportsLimit = false := by
      simpa using hany
    have hle : cx.configuration.depthLimit ≤ 20 := by omega
    exact ⟨cx, d, hcx, ⟨hd, hmessages, hlosses, hle⟩, read_withLimit hd hmessages hlosses hle⟩

/-- Inside the content of a generated modifier the limit is met without notice: nothing is
reported, and something is left to expand. -/
example : ((Context.start { Builtin.configuration with depthLimit := 2 } .empty).bind fun cx =>
    cx.parse "[-define-block c][/ifndef z][/ifndef z][/print abc][/][/]\n\n[.c]").toOption.map
      (fun d => (d.messages.isEmpty, areBare d.strip.content)) = some (true, false) := by
  decide +kernel

end MacroMarkup
