import MacroMarkup.Proofs.Chains

/-!
# Reading is uttered

While a source is read nothing is being processed, and all spans that are made lie between places
of the cursor.  So what is said there is uttered too, and what is read is located.

* `Reader.Traced`: a place where the parse reads, at which all messages so far are uttered.
* `Parse.Traces`: a step of reading that leads from such a place to another, with a rule for each
  way of building one.
* `TracesConstructs`: the law of all constructs for one bound, which `tracesConstructs` proves for
  every bound.
* `parse_utters`: **all messages of a parse are uttered**, and its document is located.
-/

namespace MacroMarkup

open Parse

/-- The parse reads here, and all messages so far are uttered. -/
structure Reader.Traced (cx : Context) (source : String) (P : Nat → Prop) (r : Reader) : Prop where
  place : cx.ReadsIn source r
  engine : r.engine.Traced cx source P []

/-- The step leads from each traced place to a traced place, with a result that satisfies `post`,
whatever faults it may meet. -/
def Parse.Traces (cx : Context) (source : String) (P : Nat → Prop) {α : Type} (post : α → Prop)
    (x : Parse α) : Prop :=
  ∀ r : Reader, r.Traced cx source P →
    Ensures anyFault x r fun a r' => r'.Traced cx source P ∧ post a

def ArgumentText.Located (P : Nat → Prop) (text : ArgumentText) : Prop :=
  (∀ part ∈ text.content, part.Located P) ∧ P text.stop

abbrev AreLocated (P : Nat → Prop) (nodes : List Node) : Prop := ∀ n ∈ nodes, n.Located P

variable {cx : Context} {source : String} {P : Nat → Prop}

namespace Reader

variable {r r' : Reader}

theorem Traced.move {c : Cursor} (h : r.Traced cx source P) (hc : r.cursor.Passes c) :
    Reader.Traced cx source P { r with cursor := c } :=
  ⟨⟨h.place.reads.scan (scans_of_passes hc), hc.anchored h.place.anchored⟩, h.engine⟩

theorem Traced.note {p : Problem} {span : Span} (h : r.Traced cx source P)
    (hp : p.isSyntactic = true) (hfresh : (p.message span).Fresh P) :
    Reader.Traced cx source P { r with engine := r.engine.emit [p.message span] } := by
  have hscans : r.Scans { r with engine := r.engine.emit [p.message span] } :=
    ⟨.refl _, Engine.reports_emit (.inl hp) _, rfl⟩
  refine ⟨⟨h.place.reads.scan hscans, h.place.anchored⟩, ?_⟩
  refine h.engine.speaks (.notes h.place hp) ?_ h.engine.located rfl
  exact Engine.raises_emit r.engine.context (List.forall_mem_singleton.mpr hfresh)

end Reader

namespace Parse.Traces

variable {α β : Type} {post : α → Prop} {post' : β → Prop}

theorem pure {a : α} (h : post a) : Traces cx source P post (pure a : Parse α) :=
  fun _ hr => ⟨hr, h⟩

theorem throw {fault : Fault} : Traces cx source P post (throw fault : Parse α) :=
  fun _ _ => trivial

theorem bind {x : Parse α} {f : α → Parse β} (h : Traces cx source P post x)
    (g : ∀ a, post a → Traces cx source P post' (f a)) : Traces cx source P post' (x >>= f) := by
  intro r hr
  rw [ensures_bind]
  refine (h r hr).mono ?_
  rintro a r₁ ⟨hr₁, ha⟩
  exact g a ha r₁ hr₁

theorem ite {c : Prop} [Decidable c] {x y : Parse α} (h : Traces cx source P post x)
    (g : Traces cx source P post y) : Traces cx source P post (if c then x else y) := by
  split
  · exact h
  · exact g

theorem get {f : Reader → Parse α} (h : ∀ r, Traces cx source P post (f r)) :
    Traces cx source P post (get >>= f) :=
  fun r hr => h r r hr

theorem lift {x : Except Fault α} (h : ∀ a, x = .ok a → post a) :
    Traces cx source P post (liftM x : Parse α) := by
  intro r hr
  cases x with
  | ok a => exact ⟨hr, h a rfl⟩
  | error fault => exact trivial

/-- A mark that is next decides how to go on. -/
theorem ifPeek {mark : Mark} {x y : Parse α}
    (h : ∀ r : Reader, r.Traced cx source P → r.cursor.peek mark.text = true →
      Ensures anyFault x r fun a r' => r'.Traced cx source P ∧ post a)
    (g : Traces cx source P post y) :
    Traces cx source P post (peek mark >>= fun found => if found = true then x else y) := by
  intro r hr
  rw [ensures_bind, ensures_peek, ensures_ite]
  exact ⟨fun hpeek => h r hr hpeek, fun _ => g r hr⟩

/-! ### Scanning -/

theorem configuration : Traces cx source P
    (fun c : Configuration => ∀ kind, (c.modifiers kind).All (·.Located P)) configuration := by
  refine fun r hr => ⟨hr, fun kind => ?_⟩
  cases kind with
  | block => exact hr.engine.located.registries.1
  | inline => exact hr.engine.located.registries.2
  | system => exact hr.engine.located.systems

theorem moveCursor {f : Cursor → Cursor} (hf : ∀ c : Cursor, c.Passes (f c)) :
    Traces cx source P (fun _ => True) (moveCursor f) :=
  fun _ hr => ⟨hr.move (hf _), trivial⟩

theorem advance {n : Nat} :
    Traces cx source P (fun _ => True) (Parse.moveCursor fun cursor => cursor.advance n) :=
  moveCursor fun c => Cursor.passes_advance c n

theorem skip {p : Char → Bool} :
    Traces cx source P (fun _ => True) (Parse.moveCursor fun cursor => cursor.skipWhile p) :=
  moveCursor fun c => Cursor.passes_skipWhile c p

theorem isAtEnd : Traces cx source P (fun _ => True) isAtEnd := .get fun _ => .pure trivial

theorem peek {mark : Mark} : Traces cx source P (fun _ => True) (peek mark) :=
  .get fun _ => .pure trivial

/-- Behind a mark that was there the cursor stands as much further as the mark is long. -/
theorem accepts {mark : Mark} {r : Reader} (hr : r.Traced cx source P) :
    Ensures anyFault (accept mark) r fun found r' => r'.Traced cx source P ∧
      (found = true → r'.cursor.position = r.cursor.position + mark.text.toList.length) := by
  cases h : r.cursor.peek mark.text with
  | true =>
    rw [ensures_of_eq (accept_of_peek h)]
    exact ⟨hr.move (Cursor.passes_advance _ _), fun _ => (Cursor.reads_literal h).position⟩
  | false =>
    rw [ensures_of_eq (accept_of_not_peek h)]
    exact ⟨hr, fun h => by cases h⟩

theorem accept {mark : Mark} : Traces cx source P (fun _ => True) (accept mark) :=
  fun _ hr => (accepts hr).mono fun _ _ h => ⟨h.1, trivial⟩

theorem peekName {name : String} : Traces cx source P (fun _ => True) (peekName name) :=
  .ite .throw (.get fun _ => .pure trivial)

theorem acceptName {name : String} : Traces cx source P (fun _ => True) (acceptName name) :=
  .bind peekName fun _ _ => .ite (.bind advance fun _ _ => .pure trivial) (.pure trivial)

theorem takeChar? : Traces cx source P (fun _ => True) takeChar? := by
  rintro ⟨⟨text, rest, position, inspectors⟩, engine, openGroups, sightings⟩ hr
  cases rest with
  | nil => exact ⟨hr, trivial⟩
  | cons c rest => exact ⟨hr.move ⟨[c], rfl, rfl, rfl⟩, trivial⟩

theorem fireInspectors : Traces cx source P (fun _ => True) fireInspectors := by
  refine fun r hr => ⟨⟨⟨?_, ?_⟩, hr.engine⟩, trivial⟩
  · exact hr.place.reads.scan ⟨Cursor.passes_takeInspectors _, .refl _, rfl⟩
  · exact (Cursor.passes_takeInspectors _).anchored hr.place.anchored

theorem grouped {f : Reader → Nat} : Traces cx source P (fun _ => True)
    (modify fun reader : Reader => { reader with openGroups := f reader }) :=
  fun _ hr => ⟨⟨⟨hr.place.reads.grouped _, hr.place.anchored⟩, hr.engine⟩, trivial⟩

theorem enter {kind : EnclosureKind} : Traces cx source P (fun _ => True) (enter kind) :=
  fun _ hr => ⟨⟨⟨hr.place.reads.scan (Reader.scans_enter kind), hr.place.anchored⟩, hr.engine⟩,
    trivial⟩

theorem leave {closed : Bool} : Traces cx source P (fun _ => True) (leave closed) :=
  fun _ hr => ⟨⟨⟨hr.place.reads.scan (Reader.scans_leave closed), hr.place.anchored⟩, hr.engine⟩,
    trivial⟩

theorem findLongestM? [Named α] {registry : Registry α} (h : registry.All post) :
    Traces cx source P (fun found => ∀ x, found = some x → post x)
      (registry.findLongestM? Parse.peekName) := by
  intro r hr
  refine (ensures_findLongestM? h fun _ _ _ => trivial).mono ?_
  rintro found r' ⟨rfl, hfound⟩
  exact ⟨hr, fun x hx => (hfound x hx).1⟩

theorem emit {p : Problem} {span : Span} (hp : p.isSyntactic = true)
    (hfresh : (p.message span).Fresh P) :
    Traces cx source P (fun _ => True) (emit [p.message span]) :=
  fun _ hr => ⟨hr.note hp hfresh, trivial⟩

theorem expected {start : Nat} {what : String} (h : P start) :
    Traces cx source P (fun _ => True) (Parse.emit [Problem.expectedAt start what]) :=
  emit rfl ⟨.expected what, _, rfl, h, .inr ⟨what, rfl⟩⟩

theorem acceptClosing {closing : Option String} :
    Traces cx source P (fun _ => True) (acceptClosing closing) := by
  cases closing with
  | none => exact .pure trivial
  | some mark => exact .acceptName

theorem acceptInlineClose : Traces cx source P (fun _ => True) acceptInlineClose :=
  .bind .accept fun _ _ => .ite (.pure trivial) .accept

/-! ### Places -/

section Located

variable (hP : ∀ k ≤ source.toList.length, P k)

include hP

theorem position : Traces cx source P P position :=
  fun _ hr => ⟨hr, hP _ hr.place.anchored.position⟩

theorem spanFrom {start : Nat} (hstart : P start) :
    Traces cx source P (fun s => s.Located P ∧ s.start = start ∧ s.start ≤ s.stop)
      (spanFrom start) := by
  refine .bind (position hP) fun stop hstop => .lift fun s hs => ?_
  have hlocated := Span.Located.checked hstart hstop hs
  rw [Span.checked] at hs
  split at hs
  · cases hs
    exact ⟨hlocated, rfl, by assumption⟩
  · cases hs

theorem emitHere {p : Problem} (hp : p.isSyntactic = true) :
    Traces cx source P (fun _ => True)
      (Parse.position >>= fun start => Parse.emit [p.message (.empty start)]) :=
  .bind (position hP) fun _ hstart => emit hp (Message.fresh p ⟨hstart, hstart⟩)

theorem skipLines {limit : Nat} : Traces cx source P (fun _ => True) (skipLines limit) :=
  .bind (position hP) fun _ hstart => .get fun _ => .bind skip fun _ _ =>
    .ite (.bind (spanFrom hP hstart) fun _ hspan => emit rfl (Message.fresh _ hspan.1))
      (.pure trivial)

theorem endLine : Traces cx source P (fun _ => True) endLine :=
  .bind skip fun _ _ => .bind accept fun _ _ => .ite (emitHere hP rfl) (.pure trivial)

/-! ### Arguments and heads -/

omit hP in
theorem endArgument {parts : List Entity} {stop : Nat} {continues : Bool}
    (hparts : ∀ part ∈ parts, part.Located P) (hstop : P stop) :
    Traces cx source P (·.Located P)
      (Pure.pure ⟨parts.reverse, stop, continues⟩ : Parse ArgumentText) :=
  .pure ⟨fun part hpart => hparts part (List.mem_reverse.mp hpart), hstop⟩

omit hP in
theorem located_appendEntityText {parts : List Entity} (hparts : ∀ part ∈ parts, part.Located P)
    (text : String) (span : Span) : ∀ part ∈ appendEntityText text span parts, part.Located P := by
  rw [appendEntityText.eq_def]
  split
  · exact List.forall_mem_cons.mpr ⟨.text, (List.forall_mem_cons.mp hparts).2⟩
  · exact List.forall_mem_cons.mpr ⟨.text, hparts⟩

section Parts

variable {fuel : Nat} {closing : Option String} {parts : List Entity} {start : Nat}
  (ih : ∀ (closing : Option String) (parts : List Entity) (stop : Nat),
    (∀ part ∈ parts, part.Located P) → P stop →
    Traces cx source P (·.Located P)
      (readEntities fuel closing parts stop))
  (hparts : ∀ part ∈ parts, part.Located P) (hstart : P start)

include ih hparts hstart

theorem readEscapedPart :
    Traces cx source P (·.Located P)
      (readEscapedPart fuel closing parts start) := by
  refine .bind .takeChar? fun taken _ => ?_
  cases taken with
  | some c =>
    refine .bind (spanFrom hP hstart) fun span hspan => ih _ _ _ ?_ hspan.1.stop
    exact List.forall_mem_cons.mpr ⟨.escaped, hparts⟩
  | none =>
    exact .bind (spanFrom hP hstart) fun span hspan =>
      endArgument (located_appendEntityText hparts _ _) hspan.1.stop

theorem readInterpolationPart (interpolator : Interpolator) :
    Traces cx source P (·.Located P)
      (readInterpolationPart fuel closing parts start interpolator) := by
  refine .bind .acceptName fun _ _ => .bind (position hP) fun innerStart hinner => ?_
  refine .bind .enter fun _ _ => ?_
  refine .bind (ih _ _ _ (List.forall_mem_nil _) hinner) fun inner hcontent => ?_
  refine .bind .leave fun _ _ => ?_
  refine .bind (.lift fun _ _ => trivial) fun innerSpan (_ : True) => ?_
  refine .bind (spanFrom hP hstart) fun span hspan => ?_
  have hpart : ∀ part ∈ Entity.interpolation span interpolator
      ⟨innerSpan, inner.content, none⟩ none :: parts, part.Located P :=
    List.forall_mem_cons.mpr ⟨.interpolation hspan.1 hcontent.1, hparts⟩
  refine .ite (ih _ _ _ hpart hspan.1.stop) ?_
  exact .bind (.expected hspan.1.stop) fun _ _ => endArgument hpart hspan.1.stop

theorem readTextPart {stop : Nat} (hstop : P stop) :
    Traces cx source P (·.Located P)
      (readTextPart fuel closing parts start stop) := by
  refine .bind .takeChar? fun taken _ => ?_
  cases taken with
  | some c =>
    exact .bind (spanFrom hP hstart) fun span hspan =>
      ih _ _ _ (located_appendEntityText hparts _ _) hspan.1.stop
  | none => exact endArgument hparts hstop

end Parts

theorem readEntities (fuel : Nat) : ∀ (closing : Option String) (parts : List Entity) (stop : Nat),
    (∀ part ∈ parts, part.Located P) → P stop →
    Traces cx source P (·.Located P)
      (readEntities fuel closing parts stop) := by
  induction fuel with
  | zero => exact fun _ _ _ _ _ => .throw
  | succ fuel ih =>
    intro closing parts stop hparts hstop
    rw [readEntities_succ]
    refine .bind .acceptClosing fun _ _ => .ite (endArgument hparts hstop) ?_
    refine .bind .accept fun _ _ => .ite (endArgument hparts hstop) ?_
    refine .bind .peek fun _ _ => .bind .peek fun _ _ => .bind .isAtEnd fun _ _ =>
      .ite (endArgument hparts hstop) ?_
    refine .bind (position hP) fun start hstart => .bind .accept fun _ _ =>
      .ite (readEscapedPart hP ih hparts hstart) ?_
    have hany : ∀ c : Configuration, c.interpolators.All fun _ => True := fun _ _ _ _ _ => trivial
    refine .bind (.bind .configuration fun c _ => .findLongestM? (hany c)) fun found _ => ?_
    cases found with
    | some interpolator => exact readInterpolationPart hP ih hparts hstart interpolator
    | none => exact readTextPart hP ih hparts hstart hstop

theorem readArgument : Traces cx source P (fun r => r.1.Located P) readArgument := by
  refine .bind (position hP) fun start hstart => .get fun _ => ?_
  refine .bind (readEntities hP _ _ _ _ (List.forall_mem_nil _) hstart) fun text htext => ?_
  refine .bind (.lift fun span hspan => Span.Located.checked hstart htext.2 hspan)
    fun span hspan => .pure ⟨hspan, htext.1⟩

theorem readArgumentList (leadingSeparator : Bool) (fuel : Nat) : ∀ before : List Argument,
    (∀ a ∈ before, a.Located P) → Traces cx source P (fun arguments => ∀ a ∈ arguments, a.Located P)
      (readArgumentList leadingSeparator fuel before) := by
  induction fuel with
  | zero => exact fun _ _ => .throw
  | succ fuel ih =>
    intro before hbefore
    refine .bind (readArgument hP) fun argument hargument => ?_
    have harguments := List.forall_mem_cons.mpr ⟨hargument, hbefore⟩
    refine .ite (ih _ harguments) (.ite (.pure (List.forall_mem_nil _)) (.pure fun a ha => ?_))
    exact harguments a (List.mem_reverse.mp ha)

theorem readArguments :
    Traces cx source P (fun arguments => ∀ a ∈ arguments, a.Located P) readArguments :=
  .bind .accept fun _ _ => .ite
    (.bind .skip fun _ _ => .get fun _ => readArgumentList hP _ _ _ (List.forall_mem_nil _))
    (.get fun _ => readArgumentList hP _ _ _ (List.forall_mem_nil _))

theorem readName {kind : ModifierKind} {start : Nat} (hstart : P start) :
    Traces cx source P (fun found => ∀ d, found = some d → d.Located P) (readName kind start) := by
  refine .bind .configuration fun c hc => .bind (.findLongestM? (hc kind)) fun found hfound => ?_
  cases found with
  | some definition => exact .bind .acceptName fun _ _ => .pure hfound
  | none =>
    refine .get fun _ => .bind .advance fun _ _ => .bind (spanFrom hP hstart) fun span hspan => ?_
    exact .bind (.emit rfl (Message.fresh _ hspan.1)) fun _ _ => .pure fun _ h => by cases h

/-- The modifier of a head is located, and its head is the whole of it so far. -/
theorem makeHead {kind : ModifierKind} {start : Nat} {found : Option Definition}
    {arguments : List Argument} {ended : Bool} (hstart : P start)
    (hfound : ∀ d, found = some d → d.Located P) (harguments : ∀ a ∈ arguments, a.Located P) :
    Traces cx source P
      (fun head => head.modifier.Located P ∧ head.modifier.head.start ≤ head.modifier.head.stop)
      (makeHead kind start found arguments ended) := by
  refine .bind (spanFrom hP hstart) fun span hspan r hr => ?_
  simp only [ensures_bind, ensures_get, ensures_expanding]
  refine (hr.engine.evaluating harguments fun _ _ => .evaluates hr.place).mono_run ?_
  rintro values e hrun ⟨he, hvalues⟩
  obtain ⟨⟨hreports, -⟩, -, -⟩ := (@ensures_expandArguments anyFault arguments r.engine
    fun _ _ => trivial).of_ok hrun
  refine ⟨⟨⟨hr.place.reads.scan ⟨.refl _, hreports, rfl⟩, hr.place.anchored⟩, he⟩, ?_, hspan.2.2⟩
  refine ⟨hspan.1, hspan.1, hvalues, ?_, List.forall_mem_nil _⟩
  cases found with
  | some d => exact hfound d rfl
  | none => exact List.forall_mem_nil _

theorem readHead {kind : ModifierKind} : Traces cx source P
    (fun head => head.modifier.Located P ∧ head.modifier.head.start ≤ head.modifier.head.stop)
    (readHead kind) := by
  refine .bind (position hP) fun start hstart => .bind .accept fun _ _ => ?_
  refine .bind (readName hP hstart) fun found hfound => ?_
  refine .bind (readArguments hP) fun arguments harguments => ?_
  have hmade : ∀ ended, Traces cx source P
      (fun head => head.modifier.Located P ∧ head.modifier.head.start ≤ head.modifier.head.stop)
      (Parse.makeHead kind start found arguments ended) :=
    fun _ => makeHead hP hstart hfound harguments
  refine .bind .accept fun ended _ => .bind .accept fun _ _ => .ite ?_ (hmade ended)
  exact .bind (position hP) fun _ hhere => .bind (.expected hhere) fun _ _ => hmade ended

theorem wholeSpan {head : Head} {r : Reader} (hr : r.Traced cx source P)
    (hm : head.modifier.Located P) (hhead : head.modifier.head.start ≤ head.modifier.head.stop) :
    Ensures anyFault (wholeSpan head) r fun span r' =>
      r' = r ∧ span.Located P ∧ span.start ≤ head.modifier.head.stop := by
  simp only [Parse.wholeSpan, ensures_ite, Parse.spanFrom, ensures_bind, ensures_position]
  refine ⟨fun _ => ⟨rfl, hm.head, hhead⟩, fun _ => ?_⟩
  by_cases hle : head.modifier.head.start ≤ r.cursor.position
  · exact ensures_checked hle ⟨rfl, ⟨hm.head.start, hP _ hr.place.anchored.position⟩, hhead⟩
  · rw [Span.checked, if_neg hle]
    trivial

/-! ### Raw text and characters -/

theorem readRaw {start : Nat} {grouped : Bool} (hstart : P start) :
    Traces cx source P (·.Located P) (readRaw start grouped) := by
  have hclose : ∀ (contentStart : Nat) (raw : RawText), Traces cx source P (·.Located P) (do
      let span ← Parse.spanFrom start
      let contentSpan ← Span.checked contentStart (contentStart + raw.contentLength)
      return Node.preformatted span contentSpan raw.text) :=
    fun _ _ => .bind (spanFrom hP hstart) fun span hspan =>
      .bind (.lift fun _ _ => trivial) fun _ (_ : True) => .pure (.preformatted hspan.1)
  refine .bind (position hP) fun _ _ => .get fun _ => .bind .advance fun _ _ => ?_
  refine .bind (.ite .leave (.pure trivial)) fun _ (_ : True) => .ite ?_ (hclose _ _)
  exact .bind (position hP) fun _ hhere => .bind (.expected hhere) fun _ _ => hclose _ _

theorem readPreformatted : Traces cx source P (·.Located P) readPreformatted :=
  .bind (position hP) fun _ hstart => .bind .accept fun _ _ =>
    .ite (.bind (endLine hP) fun _ _ => .bind .enter fun _ _ => readRaw hP hstart)
      (readRaw hP hstart)

end Located

theorem located_appendText {text : String} {span : Span} {nodes : List Node}
    (hspan : span.Located P) (h : AreLocated P nodes) :
    AreLocated P (appendText text span nodes) := by
  rw [appendText.eq_def]
  split
  · obtain ⟨hfirst, hrest⟩ := List.forall_mem_cons.mp h
    exact List.forall_mem_cons.mpr ⟨.text ⟨hfirst.span.start, hspan.stop⟩, hrest⟩
  · exact List.forall_mem_cons.mpr ⟨.text hspan, h⟩

section Located

variable (hP : ∀ k ≤ source.toList.length, P k)

include hP

theorem readCharacter {nodes : List Node} (h : AreLocated P nodes) :
    Traces cx source P (fun r => AreLocated P r.1) (readCharacter nodes) := by
  intro r hr
  simp only [Parse.readCharacter, ensures_bind, ensures_position]
  have hstart : P r.cursor.position := hP _ hr.place.anchored.position
  refine (accepts hr).mono ?_
  rintro found r₁ ⟨hr₁, hfound⟩
  rw [ensures_ite]
  refine ⟨fun hnewline => ?_, fun _ => ?_⟩
  · -- the line break that was passed lies in the source
    have hstop : P (r.cursor.position + 1) := hfound hnewline ▸ hP _ hr₁.place.anchored.position
    have hbreak : ∀ span, Span.checked r.cursor.position (r.cursor.position + 1) = .ok span →
        span.Located P := fun _ => Span.Located.checked hstart hstop
    have hgoes : Traces cx source P (fun r : List Node × Bool => AreLocated P r.1) (do
        if ← Parse.accept .newline then
          Parse.skipLines 0
          return (nodes, false)
        let span ← Span.checked r.cursor.position (r.cursor.position + 1)
        return (appendText Mark.newline.text span nodes, true)) :=
      .bind .accept fun _ _ => .ite (.bind (skipLines hP) fun _ _ => .pure h)
        (.bind (.lift hbreak) fun _ hspan => .pure (located_appendText hspan h))
    refine Traces.bind .skip (fun _ _ => .get fun _ => .bind .peek fun _ _ => ?_) r₁ hr₁
    exact .bind .peek fun _ _ => .bind .peek fun _ _ => .bind .isAtEnd fun _ _ =>
      .ite (.pure h) hgoes
  · refine Traces.bind .takeChar? (fun taken _ => ?_) r₁ hr₁
    cases taken with
    | some c => exact .bind (spanFrom hP hstart) fun _ hspan => .pure (located_appendText hspan.1 h)
    | none => exact .pure h

theorem readEscaped {start : Nat} {nodes : List Node} (hstart : P start) (h : AreLocated P nodes) :
    Traces cx source P (AreLocated P) (readEscaped start nodes) := by
  refine .bind .takeChar? fun taken _ => ?_
  cases taken with
  | some c =>
    exact .bind (spanFrom hP hstart) fun _ hspan =>
      .pure (List.forall_mem_cons.mpr ⟨.escaped hspan.1, h⟩)
  | none => exact .bind (spanFrom hP hstart) fun _ hspan => .pure (located_appendText hspan.1 h)

end Located

end Parse.Traces

/-! ### Constructs -/

/-- The law of the constructs, for one bound on how deep they may call each other. -/
structure TracesConstructs (cx : Context) (source : String) (P : Nat → Prop) (fuel : Nat) :
    Prop where
  block : Traces cx source P (AreLocated P) (readBlock fuel)
  group : ∀ before, AreLocated P before → Traces cx source P (AreLocated P) (readGroup fuel before)
  paragraph : ∀ before, AreLocated P before →
    Traces cx source P (AreLocated P) (readParagraph fuel before)
  inline : ∀ before, AreLocated P before →
    Traces cx source P (fun r => AreLocated P r.1) (readInline fuel before)
  inlineBody : ∀ d before, AreLocated P before →
    Traces cx source P (fun r => AreLocated P r.1) (readInlineBody fuel d before)
  body : ∀ kind head, Traces cx source P (fun r => AreLocated P r.1) (readBody fuel kind head)
  modifier : ∀ kind (r : Reader), r.Traced cx source P → r.cursor.peek kind.opening.text = true →
    Ensures anyFault (readModifier fuel kind) r fun a r' =>
      r'.Traced cx source P ∧ a.1.Located P

theorem AreLocated.reverse {nodes : List Node} (h : AreLocated P nodes) :
    AreLocated P nodes.reverse :=
  fun n hn => h n (List.mem_reverse.mp hn)

section Constructs

variable {fuel : Nat} (hP : ∀ k ≤ source.toList.length, P k)
  (ih : TracesConstructs cx source P fuel)

include hP ih

/-- **A modifier that is read** is evaluated, opened, prepared and processed at places of the
parse, with nothing being processed around it. -/
theorem traces_readModifier (kind : ModifierKind) (r : Reader) (hr : r.Traced cx source P)
    (hpeek : r.cursor.peek kind.opening.text = true) :
    Ensures anyFault (readModifier (fuel + 1) kind) r fun a r' =>
      r'.Traced cx source P ∧ a.1.Located P := by
  have hbehind : Ensures anyFault (readModifier (fuel + 1) kind) r fun a r' =>
      (r'.cursor.Anchored source.toList ∧ r'.engine.Traced cx source P []) ∧ a.1.Located P := by
    rw [ensures_readModifier_iff]
    refine (Traces.readHead hP r hr).mono_run ?_
    rintro head r₁ hhead ⟨hr₁, hm, hplaced⟩
    have hlife := locates hm.definition
    refine (hr₁.engine.reporting (hlife.beforeContent head.modifier r₁.engine.immediate hm)
      fun _ _ => .opens hr.place hhead).mono_run ?_
    rintro state opened hopened ⟨ho, hstate⟩
    have hopens : head.modifier.OpensAt r state
        { r₁ with engine := opened.inBody head.modifier.definition.delaysContent } :=
      ⟨kind, head, r₁, opened, hhead, rfl, hopened, rfl⟩
    have hinside : Reader.Traced cx source P
        { r₁ with engine := opened.inBody head.modifier.definition.delaysContent } :=
      ⟨⟨hr.place.reads.body hopens, hr₁.place.anchored⟩, ho.quiet ho.located rfl rfl⟩
    refine (ih.body kind head _ hinside).mono_run ?_
    rintro ⟨content, continues⟩ r₂ hbody ⟨hr₂, hcontent⟩
    refine (Traces.wholeSpan hP hr₂ hm hplaced).mono ?_
    rintro span r₂ ⟨rfl, hlocated, hstart⟩
    have hleft : Engine.Traced cx source P [] { r₂.engine with
        delayDepth := r₂.engine.delayDepth - head.modifier.definition.delaysContent.toNat } :=
      hr₂.engine.quiet hr₂.engine.located rfl rfl
    refine (hleft.inContext (hlife.afterContent state hstate)).mono_run ?_
    rintro state' outside hafter ⟨houtside, hstate'⟩
    have hm' : Modifier.Located P { head.modifier with span := span, content := content } :=
      ⟨hlocated, hm.head, hm.arguments, hm.definition, hcontent⟩
    have hexpands : Ensures anyFault (expandRead (process outside.levels)
        { head.modifier with span := span, content := content } state') outside fun r e' =>
          e'.Traced cx source P [] ∧ r.1.Located P := by
      rw [ensures_expandRead_iff]
      refine ⟨fun _ => ⟨houtside, hm'⟩, fun hdelayed => ?_⟩
      have hcloses : head.modifier.ClosesAt
          { r₁ with engine := opened.inBody head.modifier.definition.delaysContent } state span
          content state' outside :=
        ⟨r₂, .body hbody, hstart, hafter, by simpa using hdelayed⟩
      refine traced_finishModifier (traced_process _) houtside hm' hstate' ?_ ?_ ?_
      · exact fun _ _ => .prepares (m := head.modifier) hr.place hopens hcloses
      · exact fun x inside => .read hr.place hopens hcloses
      · exact fun _ x inside nodes later context => .limits context hr.place hopens hcloses
    refine hexpands.mono ?_
    rintro a e' ⟨he', ha⟩
    exact ⟨⟨hr₂.place.anchored, he'⟩, ha⟩
  refine hbehind.mono_run ?_
  rintro a r' hrun ⟨⟨hanchored, he⟩, ha⟩
  exact ⟨⟨⟨hr.place.reads.behind (.modifier hpeek hrun), hanchored⟩, he⟩, ha⟩

theorem traces_readBlock : Traces cx source P (AreLocated P) (readBlock (fuel + 1)) := by
  have hmodifier : ∀ kind (r : Reader), r.Traced cx source P →
      r.cursor.peek kind.opening.text = true →
      Ensures anyFault (readModifier fuel kind >>= fun read => pure [Node.modifier read.1]) r
        fun nodes r' => r'.Traced cx source P ∧ AreLocated P nodes := by
    intro kind r hr hpeek
    rw [ensures_bind]
    refine (ih.modifier kind r hr hpeek).mono ?_
    rintro ⟨m, continues⟩ r' ⟨hr', hm⟩
    exact ⟨hr', List.forall_mem_singleton.mpr (Node.located_modifier_iff.mpr hm)⟩
  refine .bind .fireInspectors fun _ _ => .ifPeek (hmodifier .block) ?_
  refine .ifPeek (hmodifier .system) (.bind .accept fun _ _ => .ite ?_ ?_)
  · refine .bind .grouped fun _ _ => .bind (.endLine hP) fun _ _ => ?_
    refine .bind .enter fun _ _ => .bind (.skipLines hP) fun _ _ => ?_
    exact .bind (ih.group [] (List.forall_mem_nil _)) fun _ hnodes =>
      .bind .grouped fun _ (_ : True) => .pure hnodes
  · refine .bind (.position hP) fun start hstart => ?_
    refine .bind (ih.paragraph [] (List.forall_mem_nil _)) fun nodes hnodes => ?_
    exact .bind (.spanFrom hP hstart) fun span hspan =>
      .pure (List.forall_mem_singleton.mpr (.paragraph hspan.1 hnodes))

theorem traces_readGroup (before : List Node) (h : AreLocated P before) :
    Traces cx source P (AreLocated P) (readGroup (fuel + 1) before) := by
  refine .bind .isAtEnd fun _ _ => .ite ?_ ?_
  · refine .bind .leave fun _ _ => .bind (.position hP) fun _ hstart => ?_
    exact .bind (.expected hstart) fun _ _ => .pure h.reverse
  refine .bind .accept fun _ _ => .ite (.bind .leave fun _ _ => .pure h.reverse) ?_
  refine .bind ih.block fun nodes hnodes => .bind (.skipLines hP) fun _ _ => ih.group _ ?_
  exact List.forall_mem_append.mpr ⟨AreLocated.reverse hnodes, h⟩

omit hP in
theorem traces_readParagraph (before : List Node) (h : AreLocated P before) :
    Traces cx source P (AreLocated P) (readParagraph (fuel + 1) before) :=
  .bind .isAtEnd fun _ _ => .ite (.pure h.reverse) <| .bind (ih.inline before h) fun _ hnodes =>
    .ite (ih.paragraph _ hnodes) (.pure (AreLocated.reverse hnodes))

theorem traces_readInline (before : List Node) (h : AreLocated P before) :
    Traces cx source P (fun r => AreLocated P r.1) (readInline (fuel + 1) before) := by
  refine .bind .peek fun _ _ => .ite ?_ ?_
  · exact .bind (.position hP) fun _ hstart =>
      .bind (.emit rfl (Message.fresh _ ⟨hstart, hstart⟩)) fun _ _ => .pure h
  refine .ifPeek (fun r hr hpeek => ?_) ?_
  · rw [ensures_bind]
    refine (ih.modifier .inline r hr hpeek).mono ?_
    rintro ⟨m, continues⟩ r' ⟨hr', hm⟩
    exact ⟨hr', List.forall_mem_cons.mpr ⟨Node.located_modifier_iff.mpr hm, h⟩⟩
  refine .bind .peek fun _ _ => .ite (.pure h) ?_
  refine .bind (.position hP) fun start hstart => .bind .accept fun _ _ => .ite ?_
    (.readCharacter hP h)
  exact .bind (.readEscaped hP hstart h) fun _ hnodes => .pure hnodes

theorem traces_readInlineBody (d : Definition) (before : List Node) (h : AreLocated P before) :
    Traces cx source P (fun r => AreLocated P r.1) (readInlineBody (fuel + 1) d before) := by
  have hunclosed : ∀ {nodes : List Node} (continues : Bool), AreLocated P nodes →
      Traces cx source P (fun r : List Node × Bool => AreLocated P r.1) (do
        emit [(Problem.unclosedInline d.name).message (.empty (← position))]
        return (nodes.reverse, continues)) :=
    fun _ hnodes => .bind (.position hP) fun _ hstart =>
      .bind (.emit rfl (Message.fresh _ ⟨hstart, hstart⟩)) fun _ _ =>
        .pure (AreLocated.reverse hnodes)
  refine .bind .acceptInlineClose fun _ _ => .ite (.pure h.reverse) ?_
  refine .bind .isAtEnd fun _ _ => .ite (hunclosed true h) ?_
  refine .bind (.ite (.readCharacter hP h) (ih.inline before h)) fun answer hnodes => ?_
  exact .ite (ih.inlineBody d _ hnodes) (hunclosed false hnodes)

theorem traces_readBody (kind : ModifierKind) (head : Head) :
    Traces cx source P (fun r => AreLocated P r.1) (readBody (fuel + 1) kind head) := by
  refine .ite (.pure (List.forall_mem_nil _)) (.ite (ih.inlineBody _ [] (List.forall_mem_nil _)) ?_)
  refine .bind (.skipLines hP) fun _ _ => .bind .isAtEnd fun _ _ =>
    .ite (.pure (List.forall_mem_nil _)) (.ite ?_ ?_)
  · exact .bind (.readPreformatted hP) fun _ h => .pure (List.forall_mem_singleton.mpr h)
  · exact .bind ih.block fun _ h => .pure h

omit ih

/-- **All constructs lead from traced places to traced places**, for every bound. -/
theorem tracesConstructs (fuel : Nat) : TracesConstructs cx source P fuel := by
  induction fuel with
  | zero =>
    exact ⟨.throw, fun _ _ => .throw, fun _ _ => .throw, fun _ _ => .throw, fun _ _ _ => .throw,
      fun _ _ => .throw, fun _ _ _ _ => trivial⟩
  | succ fuel ih =>
    exact ⟨traces_readBlock hP ih, traces_readGroup hP ih, traces_readParagraph ih,
      traces_readInline hP ih, traces_readInlineBody hP ih, traces_readBody hP ih,
      traces_readModifier hP ih⟩

theorem traces_readBlocks (fuel : Nat) : ∀ before : List Node, AreLocated P before →
    Traces cx source P (AreLocated P) (readBlocks fuel before) := by
  induction fuel with
  | zero => exact fun _ _ => .throw
  | succ fuel ih =>
    intro before h
    refine .bind .isAtEnd fun _ _ => .ite (.pure h.reverse) ?_
    refine .bind (tracesConstructs hP fuel).block fun nodes hnodes => .bind .skip fun _ _ => ?_
    exact ih _ (List.forall_mem_append.mpr ⟨AreLocated.reverse hnodes, h⟩)

/-- **All messages of a parse are uttered**, each behind those before it, and the document and
whatever the parse leaves behind are located. -/
theorem parse_utters (hcx : cx.Located P) {d : Document} (hd : cx.parse source = .ok d) :
    (∀ earlier m later, d.messages = earlier ++ m :: later →
      cx.Utters source P m earlier.reverse) ∧ AreLocated P d.content ∧ d.context.Located P := by
  have hreads : Traces cx source P (AreLocated P)
      (readSource (readingDepth source.toList.length)) :=
    .bind .skip fun _ _ => .bind (traces_readBlocks hP _ [] (List.forall_mem_nil _))
      fun nodes hnodes => .bind .fireInspectors fun _ _ => .pure hnodes
  have hstart : (Reader.start cx source []).Traced cx source P :=
    ⟨⟨.start source [], ⟨rfl, Nat.zero_le _⟩⟩, hcx, rfl, List.forall_mem_nil _, fun _ _ _ h =>
      (List.append_ne_nil_of_right_ne_nil _ (List.cons_ne_nil _ _) h.symm).elim⟩
  obtain ⟨content, r, hrun, rfl⟩ := Context.exists_readSource_of_read hd
  obtain ⟨hr, hcontent⟩ := (hreads _ hstart).of_ok hrun
  refine ⟨fun earlier m later hmessages => ?_, hcontent, hr.engine.located⟩
  refine hr.engine.messages later.reverse m earlier.reverse ?_
  have hemitted : r.engine.emitted.reverse = earlier ++ m :: later := hmessages
  rw [← List.reverse_reverse r.engine.emitted, hemitted]
  simp

end Constructs

end MacroMarkup
