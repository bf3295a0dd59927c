import MacroMarkup.Proofs.Lookup
import MacroMarkup.Proofs.RawScan
import MacroMarkup.Proofs.Scanning

/-!
# Reading names, arguments and heads

The name of a modifier is the longest registered one that is next, and arguments are read
up to the end of the head.  None of this can fail if no registered name is empty: the
bounds on the steps are never met, as each step moves on.

* `ensures_findLongestM?`: what is found is registered and next.
* `ensures_readName_visible`: the name that is read is visible.
* `ensures_readEntities`, `ensures_readArguments`: arguments.
* `ensures_readHead`: heads.
* `ensures_readPreformatted`, `ensures_readCharacter`: raw text and characters.
-/

namespace MacroMarkup

open Parse

section Names

variable {α : Type} [Named α] {allows : Fault → Prop} {r : Reader} {P : α → Prop}

theorem ensures_findM? {entries : List α} (h : ∀ x ∈ entries, P x)
    (hname : ∀ x, P x → Named.name x = "" → allows .emptyLiteral) {post : Option α → Reader → Prop}
    (hsome : ∀ x, P x → r.cursor.peek (Named.name x) = true → post (some x) r)
    (hnone : post none r) :
    Ensures allows (entries.findM? fun x => peekName (Named.name x)) r post := by
  induction entries with
  | nil => exact hnone
  | cons x rest ih =>
    have hx : P x := h x List.mem_cons_self
    rw [List.findM?, ensures_bind]
    refine ensures_peekName (hname x hx) ?_
    cases hpeek : r.cursor.peek (Named.name x) with
    | true => exact hsome x hx hpeek
    | false => exact ih fun y hy => h y (List.mem_cons_of_mem _ hy)

theorem longer_cases (upper lower : Option α) :
    Registry.longer upper lower = upper ∨ Registry.longer upper lower = lower := by
  cases upper with
  | none => exact .inr rfl
  | some x =>
    cases lower with
    | none => exact .inl rfl
    | some y =>
      simp only [Registry.longer]
      split
      · exact .inr rfl
      · exact .inl rfl

theorem ensures_findLongestInM? {layers : List (Layer α)} (h : ∀ layer ∈ layers, ∀ x ∈ layer, P x)
    (hname : ∀ x, P x → Named.name x = "" → allows .emptyLiteral) :
    Ensures allows (Registry.findLongestInM? peekName layers) r fun found r' => r' = r ∧
      ∀ x, found = some x → P x ∧ r.cursor.peek (Named.name x) = true := by
  induction layers with
  | nil => exact ⟨rfl, fun x hx => by cases hx⟩
  | cons layer rest ih =>
    have hrest := ih fun layer hl => h layer (List.mem_cons_of_mem _ hl)
    have both : ∀ upper : Option α, (∀ x, upper = some x → P x ∧
        r.cursor.peek (Named.name x) = true) →
        Ensures allows
          (do return Registry.longer upper (← Registry.findLongestInM? peekName rest)) r
          fun found r' => r' = r ∧
            ∀ x, found = some x → P x ∧ r.cursor.peek (Named.name x) = true := by
      intro upper hupper
      rw [ensures_bind]
      refine hrest.mono ?_
      intro lower r' answer
      obtain ⟨rfl, hlower⟩ := answer
      refine ⟨rfl, fun x hx => ?_⟩
      rcases longer_cases upper lower with heq | heq
      · exact hupper x (heq.symm.trans hx)
      · exact hlower x (heq.symm.trans hx)
    rw [Registry.findLongestInM?, ensures_bind]
    refine ensures_findM? (fun x hx => h layer List.mem_cons_self x (.inr hx)) hname
      (fun x hx hpeek => ?_) ?_
    · refine both (some x) fun y hy => ?_
      cases hy
      exact ⟨hx, hpeek⟩
    · exact both none fun y hy => by cases hy

/-- **The longest registered name that is next** is registered and next, and looking for it
does nothing. -/
theorem ensures_findLongestM? {registry : Registry α} (h : registry.All P)
    (hname : ∀ x, P x → Named.name x = "" → allows .emptyLiteral) :
    Ensures allows (registry.findLongestM? peekName) r fun found r' => r' = r ∧
      ∀ x, found = some x → P x ∧ r.cursor.peek (Named.name x) = true :=
  ensures_findLongestInM? h hname

/-- Looking for the first of several names that is next does nothing. -/
theorem ensures_findM?_find? (entries : List α) :
    Ensures anyFault (entries.findM? fun x => peekName (Named.name x)) r fun found r' => r' = r ∧
      found = entries.find? fun x => r.cursor.peek (Named.name x) := by
  induction entries with
  | nil => exact ⟨rfl, rfl⟩
  | cons x rest ih =>
    rw [List.findM?, ensures_bind]
    refine ensures_peekName (fun _ => trivial) ?_
    rw [List.find?_cons]
    cases r.cursor.peek (Named.name x) with
    | true => exact ⟨rfl, rfl⟩
    | false => exact ih

/-- **The longest registered name that is next** is found as without effects. -/
theorem ensures_findLongestM?_findLongest? (registry : Registry α) :
    Ensures anyFault (registry.findLongestM? peekName) r fun found r' => r' = r ∧
      found = registry.findLongest? r.cursor.peek := by
  have hall : ∀ layers : List (Layer α),
      Ensures anyFault (Registry.findLongestInM? peekName layers) r fun found r' => r' = r ∧
        found = Registry.findLongestIn? r.cursor.peek layers := by
    intro layers
    induction layers with
    | nil => exact ⟨rfl, rfl⟩
    | cons layer rest ih =>
      rw [Registry.findLongestInM?, ensures_bind]
      refine (ensures_findM?_find? layer.byLength).mono ?_
      rintro upper _ ⟨rfl, hupper⟩
      rw [ensures_bind]
      refine ih.mono ?_
      rintro lower _ ⟨rfl, hlower⟩
      exact ⟨rfl, by rw [hupper, hlower, Registry.findLongestIn?_cons]⟩
  exact hall registry.layers

end Names

/-! ### Arguments -/

/-- An interpolator with an empty mark may be met only if this may fail. -/
def Configuration.Marked (allows : Fault → Prop) (c : Configuration) : Prop :=
  c.interpolators.All fun i =>
    (i.name = "" → allows .emptyLiteral) ∧ (i.closing = "" → allows .emptyLiteral)

section Arguments

variable {allows : Fault → Prop}

def Reader.EndsHead (r : Reader) : Prop :=
  r.cursor.peek Mark.headEnd.text = true ∨ r.cursor.peek Mark.headClose.text = true ∨ r.left = 0

theorem Reader.endsHead_of_peek {r : Reader}
    (h : (r.cursor.peek Mark.headEnd.text || r.cursor.peek Mark.headClose.text ||
      r.cursor.rest.isEmpty) = true) : r.EndsHead := by
  simp only [Bool.or_eq_true, List.isEmpty_iff] at h
  obtain (h | h) | h := h
  · exact .inl h
  · exact .inr (.inl h)
  · exact .inr (.inr (List.length_eq_zero_iff.mpr h))

/-- The parts of an argument were read; if another argument follows, or the closing mark was
found, then it was passed, and otherwise reading moved on unless the head ends here. -/
structure ArgumentText.Reads (r : Reader) (text : ArgumentText) (r' : Reader) : Prop where
  scans : r.Scans r'
  starts : r.cursor.position ≤ text.stop
  stops : text.stop ≤ r'.cursor.position
  moves : text.continues = true ∨ ¬ r.EndsHead → r'.left < r.left

theorem ArgumentText.Reads.after {r r' r'' : Reader} {text : ArgumentText} (hs : r.Scans r')
    (hlt : r'.left < r.left) (h : text.Reads r' r'') : text.Reads r r'' :=
  ⟨hs.trans h.scans, Nat.le_trans hs.position_le h.starts, h.stops,
    fun _ => Nat.lt_of_le_of_lt h.scans.left_le hlt⟩

/-- The parts of an argument lie behind those that were read before. -/
def ArgumentText.Follows (r : Reader) (parts : List Entity) (text : ArgumentText) : Prop :=
  ∀ source lo, r.cursor.Anchored source → Entity.Written source lo r.cursor.position parts →
    Entity.Laid source lo text.stop text.content

theorem ensures_findInterpolator? {r : Reader}
    (h : r.engine.context.configuration.Marked allows) :
    Ensures allows findInterpolator? r fun found r' => r' = r ∧ ∀ i, found = some i →
      ((i.name = "" → allows .emptyLiteral) ∧ (i.closing = "" → allows .emptyLiteral)) ∧
        r.cursor.peek i.name = true := by
  simp only [findInterpolator?, ensures_bind, ensures_configuration]
  exact ensures_findLongestM? h fun _ hi => hi.1

theorem ensures_acceptClosing {r : Reader} {closing : Option String}
    (hclosing : closing = some "" → allows .emptyLiteral) {post : Bool → Reader → Prop}
    (hfound : ∀ r', r.Scans r' → r'.left < r.left → post true r') (hmissing : post false r) :
    Ensures allows (acceptClosing closing) r post := by
  cases closing with
  | none => exact hmissing
  | some mark =>
    have hmark : mark = "" → allows .emptyLiteral := fun h => hclosing (by rw [h])
    exact ensures_acceptName hmark (fun _ => hfound) fun _ => hmissing

/-- Reading ends here: nothing is added to the parts that were read before. -/
theorem ArgumentText.reads_stop {r r' : Reader} {parts : List Entity} {continues : Bool}
    (hs : r.Scans r') (hmoves : continues = true ∨ ¬ r.EndsHead → r'.left < r.left) :
    (ArgumentText.mk parts.reverse r.cursor.position continues).Reads r r' ∧
      (ArgumentText.mk parts.reverse r.cursor.position continues).Follows r parts :=
  ⟨⟨hs, Nat.le_refl _, hs.position_le, hmoves⟩, fun _ _ _ hparts => hparts.laid⟩

theorem ArgumentText.reads_end {r : Reader} {parts : List Entity} (hend : r.EndsHead) :
    (ArgumentText.mk parts.reverse r.cursor.position false).Reads r r ∧
      (ArgumentText.mk parts.reverse r.cursor.position false).Follows r parts :=
  ArgumentText.reads_stop (.refl r) fun hmoves =>
    absurd hend (hmoves.resolve_left Bool.false_ne_true)

/-- The law of the parts of an argument, for one bound on how many there are. -/
def ReadsEntities (allows : Fault → Prop) (fuel : Nat) : Prop :=
  ∀ (closing : Option String) (parts : List Entity) (r : Reader),
    (allows .outOfFuel ∨ r.left < fuel) → (closing = some "" → allows .emptyLiteral) →
    r.engine.context.configuration.Marked allows →
    Ensures allows (readEntities fuel closing parts r.cursor.position) r fun text r' =>
      text.Reads r r' ∧ text.Follows r parts

/-- Reading goes on behind a part that ends at the cursor. -/
theorem ReadsEntities.goOn {fuel : Nat} (ih : ReadsEntities allows fuel)
    {closing : Option String} {parts parts' : List Entity} {r r' : Reader}
    (hfuel : allows .outOfFuel ∨ r'.left < fuel)
    (hclosing : closing = some "" → allows .emptyLiteral)
    (hmarked : r.engine.context.configuration.Marked allows) (hs : r.Scans r')
    (hlt : r'.left < r.left)
    (hwritten : ∀ source lo, r.cursor.Anchored source →
      Entity.Written source lo r.cursor.position parts →
        Entity.Written source lo r'.cursor.position parts') :
    Ensures allows (readEntities fuel closing parts' r'.cursor.position) r' fun text r'' =>
      text.Reads r r'' ∧ text.Follows r parts := by
  refine (ih closing parts' r' hfuel hclosing (by rwa [hs.configuration])).mono ?_
  intro text r'' hanswer
  obtain ⟨hreads, hfollows⟩ := hanswer
  exact ⟨hreads.after hs hlt, fun source lo hanchored hparts =>
    hfollows source lo (hs.anchored hanchored) (hwritten source lo hanchored hparts)⟩

/-- **Inside an interpolation** the parts up to its closing mark are read, and the interpolation
is then one more part of the argument around it. -/
theorem ReadsEntities.interpolated {fuel : Nat} (ih : ReadsEntities allows fuel)
    {i : Interpolator} (parts : List Entity) {r r₁ : Reader}
    (hfuel : allows .outOfFuel ∨ r₁.left < fuel) (hcloses : i.closing = "" → allows .emptyLiteral)
    (hmarked : r.engine.context.configuration.Marked allows) (h₁ : r.Scans r₁)
    (hlt : r₁.left < r.left) :
    Ensures allows (readEntities fuel (some i.closing) [] r₁.cursor.position)
      (r₁.enter (.interpolation i.closing)) fun inner r₂ =>
        r₁.cursor.position ≤ inner.stop ∧ r.Scans (r₂.leave inner.continues) ∧
          r₂.left < r.left ∧ ∀ source lo, r.cursor.Anchored source →
            Entity.Written source lo r.cursor.position parts →
            Entity.Written source lo r₂.cursor.position
              (.interpolation ⟨r.cursor.position, r₂.cursor.position⟩ i
                ⟨⟨r₁.cursor.position, inner.stop⟩, inner.content, none⟩ none :: parts) := by
  have hopen := h₁.trans (Reader.scans_enter (.interpolation i.closing))
  refine (ih _ [] (r₁.enter _) hfuel (fun h => hcloses (Option.some.inj h))
    (hopen.configuration.symm ▸ hmarked)).mono ?_
  intro inner r₂ hanswer
  obtain ⟨hinner, hfollows⟩ := hanswer
  have hleft : r.Scans (r₂.leave inner.continues) :=
    hopen.trans (hinner.scans.trans (Reader.scans_leave _))
  exact ⟨hinner.starts, hleft, Nat.lt_of_le_of_lt hinner.scans.left_le hlt,
    fun source lo hanchored hparts => hparts.interpolation
      (hfollows source _ (h₁.anchored hanchored) (.nil (Nat.le_refl _)))
      h₁.position_le hinner.stops hleft.position_le⟩

section Parts

variable {fuel : Nat} {closing : Option String} {parts : List Entity} {r : Reader}

variable (ih : ReadsEntities allows fuel)
  (hdeeper : ∀ r' : Reader, r'.left < r.left → allows .outOfFuel ∨ r'.left < fuel)
  (hclosing : closing = some "" → allows .emptyLiteral)
  (hmarked : r.engine.context.configuration.Marked allows)

include ih hdeeper hclosing hmarked

theorem ReadsEntities.escaped {r₁ : Reader} (h₁ : r.Scans r₁) (hlt₁ : r₁.left < r.left)
    (hmark : r.cursor.Reads Mark.escape.text.toList r₁.cursor) :
    Ensures allows (readEscapedPart fuel closing parts r.cursor.position) r₁ fun text r' =>
      text.Reads r r' ∧ text.Follows r parts := by
  simp only [readEscapedPart, ensures_bind]
  refine ensures_takeChar? (fun c r₂ h₂ hlt₂ hchar => ?_) fun _ => ?_
  · simp only [ensures_bind]
    have hs : r.Scans r₂ := h₁.trans h₂
    have hlt : r₂.left < r.left := Nat.lt_trans hlt₂ hlt₁
    refine ensures_spanFrom hs.position_le (ih.goOn (hdeeper r₂ hlt) hclosing hmarked hs hlt ?_)
    intro source lo hanchored hparts
    have hreads := hmark.trans hchar
    exact hparts.push (.escaped hreads.position (hreads.cut_eq hanchored))
      (fun _ _ h => by cases h) (Nat.le_refl _) hs.position_le (Nat.le_refl _)
  · simp only [ensures_bind]
    refine ensures_spanFrom h₁.position_le ?_
    refine ⟨⟨h₁, h₁.position_le, Nat.le_refl _, fun _ => hlt₁⟩,
      fun source lo hanchored hparts => ?_⟩
    exact (hparts.appendText h₁.position_le (hmark.cut_eq hanchored).symm).laid

theorem ReadsEntities.interpolation {interpolator : Interpolator}
    (hname : interpolator.name = "" → allows .emptyLiteral)
    (hcloses : interpolator.closing = "" → allows .emptyLiteral)
    (hpeek : r.cursor.peek interpolator.name = true) :
    Ensures allows (readInterpolationPart fuel closing parts r.cursor.position interpolator) r
      fun text r' => text.Reads r r' ∧ text.Follows r parts := by
  simp only [readInterpolationPart, ensures_bind]
  refine ensures_acceptName hname (fun _ r₁ h₁ hlt₁ => ?_) fun hmissing => ?_
  · rw [ensures_position, ensures_enter]
    refine (ih.interpolated parts (hdeeper _ hlt₁) hcloses hmarked h₁ hlt₁).mono ?_
    intro inner r₂ hanswer
    obtain ⟨hstarts, h₂, hlt₂, hwritten⟩ := hanswer
    rw [ensures_leave]
    refine ensures_checked hstarts (ensures_spanFrom h₂.position_le ?_)
    rw [ensures_ite]
    refine ⟨fun _ => ih.goOn (hdeeper r₂ hlt₂) hclosing hmarked h₂ hlt₂ hwritten, fun _ => ?_⟩
    -- the closing mark is missing: the interpolation is the last part
    rw [ensures_bind]
    refine ensures_emit rfl fun r₃ h₃ hcursor => ?_
    refine ⟨⟨h₂.trans h₃, h₂.position_le, ?_, fun _ => Nat.lt_of_le_of_lt h₃.left_le hlt₂⟩,
      fun source lo hanchored hparts => (hwritten source lo hanchored hparts).laid⟩
    exact Nat.le_of_eq (congrArg Cursor.position hcursor).symm
  · rw [hmissing] at hpeek
    cases hpeek

theorem ReadsEntities.plain :
    Ensures allows (readTextPart fuel closing parts r.cursor.position r.cursor.position) r
      fun text r' => text.Reads r r' ∧ text.Follows r parts := by
  simp only [readTextPart, ensures_bind]
  refine ensures_takeChar? (fun c r₁ h₁ hlt₁ hchar => ?_) fun hend => ?_
  · simp only [ensures_bind]
    refine ensures_spanFrom h₁.position_le
      (ih.goOn (hdeeper r₁ hlt₁) hclosing hmarked h₁ hlt₁ ?_)
    intro source lo hanchored hparts
    refine hparts.appendText h₁.position_le ?_
    rw [hchar.cut_eq hanchored]
    exact String.toList_singleton c
  · exact ArgumentText.reads_end (.inr (.inr (List.length_eq_zero_iff.mpr hend)))

end Parts

/-- **The parts of an argument** are read without fault, however many there are, and lie where
they were read. -/
theorem ensures_readEntities (fuel : Nat) : ReadsEntities allows fuel := by
  induction fuel with
  | zero =>
    intro closing parts r hfuel
    exact fun _ _ => hfuel.resolve_right (Nat.not_lt_zero _)
  | succ fuel ih =>
    intro closing parts r hfuel hclosing hmarked
    have hdeeper : ∀ r' : Reader, r'.left < r.left → allows .outOfFuel ∨ r'.left < fuel :=
      fun r' hlt => hfuel.imp_right fun h => by omega
    rw [readEntities_succ]
    simp only [ensures_bind]
    refine ensures_acceptClosing hclosing
      (fun r₁ h₁ hlt => ArgumentText.reads_stop h₁ fun _ => hlt) ?_
    simp only [Bool.false_eq_true, if_false, ensures_bind]
    refine ensures_accept (fun _ r₁ h₁ hlt => ArgumentText.reads_stop h₁ fun _ => hlt)
      fun _ => ?_
    simp only [Bool.false_eq_true, if_false, ensures_bind, ensures_peek, ensures_isAtEnd]
    rw [ensures_ite]
    refine ⟨fun hend => ArgumentText.reads_end (Reader.endsHead_of_peek hend), fun _ => ?_⟩
    rw [ensures_bind, ensures_position, ensures_bind]
    refine ensures_acceptMark (fun r₁ h₁ hlt₁ hmark => ?_) fun _ => ?_
    · exact ih.escaped hdeeper hclosing hmarked h₁ hlt₁ hmark
    simp only [Bool.false_eq_true, if_false, ensures_bind]
    refine (ensures_findInterpolator? hmarked).mono ?_
    rintro found _ ⟨rfl, hfound⟩
    cases found with
    | some interpolator =>
      obtain ⟨⟨hname, hcloses⟩, hpeek⟩ := hfound interpolator rfl
      exact ih.interpolation hdeeper hclosing hmarked hname hcloses hpeek
    | none => exact ih.plain hdeeper hclosing hmarked

theorem ensures_readArgument {r : Reader} (hmarked : r.engine.context.configuration.Marked allows) :
    Ensures allows readArgument r fun read r' => r.Scans r' ∧
      (read.2 = true → r'.left < r.left) ∧ ∀ source lo before, r.cursor.Anchored source →
        Argument.Laid source lo r.cursor.position before →
        Argument.Laid source lo r'.cursor.position (before ++ [read.1]) := by
  simp only [readArgument, ensures_bind, ensures_position, ensures_get]
  refine (ensures_readEntities _ none [] r (.inr (Nat.lt_succ_self _)) (fun h => by cases h)
    hmarked).mono ?_
  intro text r' hanswer
  obtain ⟨hreads, hfollows⟩ := hanswer
  refine ensures_checked hreads.starts ⟨hreads.scans, fun h => hreads.moves (.inl h), ?_⟩
  intro source lo before hanchored hbefore
  have hlaid : Entity.Laid source r.cursor.position text.stop text.content :=
    hfollows source _ hanchored (.nil (Nat.le_refl _))
  exact hbefore.concat hlaid (Nat.le_refl _) hreads.starts hreads.stops

theorem ensures_readArgumentList (leadingSeparator : Bool) (fuel : Nat) :
    ∀ (before : List Argument) (r : Reader), r.left < fuel →
      r.engine.context.configuration.Marked allows →
      Ensures allows (readArgumentList leadingSeparator fuel before) r fun arguments r' =>
        r.Scans r' ∧ ∀ source lo, r.cursor.Anchored source →
          Argument.Laid source lo r.cursor.position before.reverse →
          Argument.Laid source lo r'.cursor.position arguments := by
  induction fuel with
  | zero => intro before r hfuel; exact absurd hfuel (Nat.not_lt_zero _)
  | succ fuel ih =>
    intro before r hfuel hmarked
    rw [readArgumentList, ensures_bind]
    refine (ensures_readArgument hmarked).mono ?_
    intro answer r₁ hanswer
    obtain ⟨argument, continues⟩ := answer
    obtain ⟨h₁, hmoves, hlaid⟩ := hanswer
    simp only [ensures_ite, ensures_pure, List.reverse_cons]
    refine ⟨fun hcontinues => ?_, fun _ => ⟨fun _ => ⟨h₁, ?_⟩, fun _ => ⟨h₁, ?_⟩⟩⟩
    · have hlt : r₁.left < r.left := hmoves hcontinues
      refine (ih _ r₁ (by omega) (by rwa [h₁.configuration])).mono ?_
      intro arguments r₂ hanswer
      obtain ⟨h₂, hrest⟩ := hanswer
      refine ⟨h₁.trans h₂, fun source lo hanchored hbefore => ?_⟩
      refine hrest source lo (h₁.anchored hanchored) ?_
      rw [List.reverse_cons]
      exact hlaid source lo _ hanchored hbefore
    · exact fun _ _ _ hbefore => .nil (Nat.le_trans hbefore.inOrder.le h₁.position_le)
    · exact fun source lo hanchored hbefore => hlaid source lo _ hanchored hbefore

/-- **All arguments of a head** are read without fault, and lie where they were read. -/
theorem ensures_readArguments {r : Reader}
    (hmarked : r.engine.context.configuration.Marked allows) :
    Ensures allows readArguments r fun arguments r' => r.Scans r' ∧ ∀ source,
      r.cursor.Anchored source →
      Argument.Laid source r.cursor.position r'.cursor.position arguments := by
  have list : ∀ (leadingSeparator : Bool) (r₁ : Reader), r.Scans r₁ →
      Ensures allows (readArgumentList leadingSeparator (r₁.cursor.rest.length + 1) []) r₁
        fun arguments r' => r.Scans r' ∧ ∀ source, r.cursor.Anchored source →
          Argument.Laid source r.cursor.position r'.cursor.position arguments := by
    intro leadingSeparator r₁ h₁
    refine (ensures_readArgumentList _ _ [] r₁ (Nat.lt_succ_self _)
      (by rwa [h₁.configuration])).mono ?_
    intro arguments r₂ hanswer
    obtain ⟨h₂, hlaid⟩ := hanswer
    exact ⟨h₁.trans h₂, fun source hanchored =>
      hlaid source _ (h₁.anchored hanchored) (.nil h₁.position_le)⟩
  simp only [readArguments, ensures_bind]
  refine ensures_accept (fun _ r₁ h₁ _ => list true r₁ h₁) fun _ => ?_
  simp only [Bool.not_false, if_true, ensures_bind]
  exact ensures_skipSpacing fun r₁ h₁ => list false r₁ h₁

end Arguments

/-! ### Heads -/

/-- What reading a head relies on: registered definitions are in `F`, and only what is allowed
to fail may meet an empty name or want the state of the macros. -/
structure Context.Readable (allows : Fault → Prop) (F : Definition → Prop) (cx : Context) :
    Prop where
  registered : ∀ kind, (cx.configuration.modifiers kind).All fun d =>
    (d.name = "" → allows .emptyLiteral) ∧ F d
  unknown : ∀ kind head, F (.unknown kind head)
  marked : cx.configuration.Marked allows
  macros : ∀ fault, cx.macros = .error fault → allows fault

theorem Context.Stores.readable {S : Stock} {cx : Context} (h : cx.Stores S) :
    cx.Readable noFault S.Fits where
  registered kind := by
    have hnamed : ∀ d, S.Registered d → (d.name = "" → noFault .emptyLiteral) ∧ S.Fits d :=
      fun _ hd => ⟨hd.1, hd.2⟩
    cases kind with
    | block => exact h.registries.1.mono hnamed
    | inline => exact h.registries.2.mono hnamed
    | system => exact h.systems.mono hnamed
  unknown := S.unknown
  marked := h.interpolators.mono fun _ hi => hi
  macros := by
    obtain ⟨s, hs, -⟩ := h.macros
    exact allows_of_macros hs

section Heads

variable {allows : Fault → Prop} {F : Definition → Prop} {kind : ModifierKind} {r : Reader}

theorem ensures_readName {start : Nat} (hstart : start ≤ r.cursor.position)
    (hcx : r.engine.context.Readable allows F) :
    Ensures allows (readName kind start) r fun found r' => r.Scans r' ∧
      ∀ d, found = some d → F d := by
  simp only [readName, ensures_bind, ensures_configuration]
  refine (ensures_findLongestM? (hcx.registered kind) fun d hd => hd.1).mono ?_
  intro found r' answer
  obtain ⟨rfl, hfound⟩ := answer
  cases found with
  | some d =>
    obtain ⟨⟨hname, hfits⟩, -⟩ := hfound d rfl
    have hd : ∀ d', some d = some d' → F d' := fun d' h => Option.some.inj h ▸ hfits
    simp only [ensures_bind]
    exact ensures_acceptName hname (fun _ r₁ h₁ _ => ⟨h₁, hd⟩) fun _ => ⟨.refl r', hd⟩
  | none =>
    simp only [ensures_bind, ensures_get]
    refine ensures_moveCursor (Cursor.passes_advance _ _) fun r₁ h₁ _ => ?_
    refine ensures_spanFrom (Nat.le_trans hstart h₁.position_le) ?_
    refine ensures_emit rfl fun r₂ h₂ _ => ?_
    exact ⟨h₁.trans h₂, fun d h => by cases h⟩

/-- **A name that is read is visible**, where indexes agree: what was found is what its name
stands for. -/
theorem ensures_readName_visible {start : Nat}
    (h : (r.engine.context.configuration.modifiers kind).Indexed) :
    Ensures anyFault (readName kind start) r fun found _ => ∀ d, found = some d →
      (r.engine.context.configuration.modifiers kind).get? d.name = some d := by
  simp only [readName, ensures_bind, ensures_configuration]
  refine (ensures_findLongestM?_findLongest? _).mono ?_
  rintro found _ ⟨rfl, hfound⟩
  cases found with
  | some d =>
    simp only [ensures_bind]
    refine ensures_of_forall fun _ _ x hx => ?_
    cases hx
    exact Registry.get?_of_findLongest? h hfound.symm
  | none =>
    simp only [ensures_bind]
    refine ensures_of_forall fun _ _ => ensures_of_forall fun _ _ => ensures_of_forall fun _ _ =>
      ensures_of_forall fun _ _ x hx => ?_
    cases hx


/-- A head that starts at `start`, as it is made from `r` on: its modifier waits, its arguments
lie inside it, and if visits are final they have values. -/
structure Parse.Head.Made (F : Definition → Prop) (start : Nat) (r : Reader) (head : Head) :
    Prop where
  fits : F head.modifier.definition
  starts : head.modifier.head.start = start
  placed : head.modifier.head.start ≤ head.modifier.head.stop
  whole : head.modifier.span = head.modifier.head
  content : head.modifier.content = []
  waits : head.modifier.expansion = none
  values : r.engine.IsFinal → ∀ a ∈ head.modifier.arguments, a.value.isSome = true
  laid : ∀ source, r.cursor.Anchored source →
    Argument.Laid source head.modifier.head.start head.modifier.head.stop head.modifier.arguments

/-- Where a head is made makes no difference as long as nothing is expanded. -/
theorem Parse.Head.Made.back {start : Nat} {r r' : Reader} {head : Head}
    (h : head.Made F start r') (hs : r.Scans r') : head.Made F start r :=
  ⟨h.fits, h.starts, h.placed, h.whole, h.content, h.waits,
    fun hfinal => h.values (hs.reports.isFinal hfinal),
    fun source hanchored => h.laid source (hs.anchored hanchored)⟩

theorem ensures_makeHead {r' : Reader} {start : Nat} {found : Option Definition}
    {arguments : List Argument} {ended : Bool} (h : r.Scans r')
    (hcx : r.engine.context.Readable allows F) (hfound : ∀ d, found = some d → F d)
    (hstart : start ≤ r'.cursor.position)
    (hlaid : ∀ source, r.cursor.Anchored source →
      Argument.Laid source start r'.cursor.position arguments) :
    Ensures allows (makeHead kind start found arguments ended) r' fun head r'' =>
      r.Scans r'' ∧ head.modifier.head.stop = r''.cursor.position ∧ head.Made F start r := by
  have hmacros : ∀ fault, r'.engine.context.macros = .error fault → allows fault := by
    rw [h.reports.context]
    exact hcx.macros
  simp only [makeHead, ensures_bind]
  refine ensures_spanFrom hstart ?_
  simp only [ensures_get, ensures_expanding]
  refine (ensures_expandArguments arguments r'.engine hmacros).mono ?_
  intro arguments' e hanswer
  obtain ⟨⟨hreports, -⟩, hstays, hvalues⟩ := hanswer
  refine ⟨h.trans ⟨.refl _, hreports, rfl⟩, rfl, ?_, rfl, hstart, rfl, rfl, rfl,
    fun hfinal => hvalues (h.reports.isFinal hfinal),
    fun source hanchored => (hlaid source hanchored).stays hstays⟩
  cases found with
  | some d => exact hfound d rfl
  | none => exact hcx.unknown _ _

theorem ensures_readHeadFrom {start : Nat} (hcx : r.engine.context.Readable allows F)
    (hstart : start ≤ r.cursor.position) :
    Ensures allows (readHeadFrom kind start) r fun head r' =>
      r.Scans r' ∧ head.modifier.head.stop = r'.cursor.position ∧ head.Made F start r := by
  simp only [readHeadFrom, ensures_bind]
  refine (ensures_readName hstart hcx).mono ?_
  intro found r₁ hanswer
  obtain ⟨h₁, hfound⟩ := hanswer
  have hmarked : r₁.engine.context.configuration.Marked allows := by
    rw [h₁.configuration]
    exact hcx.marked
  refine (ensures_readArguments hmarked).mono ?_
  intro arguments r₂ hanswer
  obtain ⟨h₂, hlaid⟩ := hanswer
  -- behind the arguments the head is closed, or that it is not is reported
  have close : ∀ (ended : Bool) (r₃ : Reader), r₂.Scans r₃ →
      Ensures allows (makeHead kind start found arguments ended) r₃ fun head r' =>
        r.Scans r' ∧ head.modifier.head.stop = r'.cursor.position ∧ head.Made F start r := by
    intro ended r₃ h₃
    have h := h₁.trans (h₂.trans h₃)
    refine ensures_makeHead h hcx hfound (Nat.le_trans hstart h.position_le)
      fun source hanchored => ?_
    exact (hlaid source (h₁.anchored hanchored)).widen (Nat.le_trans hstart h₁.position_le)
      h₃.position_le
  refine ensures_acceptAny fun ended r₃ h₃ => ?_
  refine ensures_accept (fun _ r₄ h₄ _ => close ended r₄ (h₃.trans h₄)) fun _ => ?_
  simp only [Bool.not_false, if_true, ensures_bind, ensures_position]
  exact ensures_emit rfl fun r₄ h₄ _ => close ended r₄ (h₃.trans h₄)

/-- **Heads** are read without fault. -/
theorem ensures_readHead (hcx : r.engine.context.Readable allows F) :
    Ensures allows (readHead kind) r fun head r' => r.Scans r' ∧
      (r.cursor.peek kind.opening.text = true → r'.left < r.left) ∧
      head.modifier.head.stop = r'.cursor.position ∧ head.Made F r.cursor.position r := by
  simp only [readHead, ensures_bind, ensures_position]
  refine ensures_accept (fun _ r₁ h₁ hlt => ?_) fun hmissing => ?_
  · have hcx₁ : r₁.engine.context.Readable allows F := by rwa [h₁.reports.context]
    refine (ensures_readHeadFrom hcx₁ h₁.position_le).mono ?_
    intro head r₂ hanswer
    obtain ⟨h₂, hstop, hmade⟩ := hanswer
    exact ⟨h₁.trans h₂, fun _ => Nat.lt_of_le_of_lt h₂.left_le hlt, hstop, hmade.back h₁⟩
  · refine (ensures_readHeadFrom hcx (Nat.le_refl _)).mono ?_
    intro head r₂ hanswer
    obtain ⟨h₂, hstop, hmade⟩ := hanswer
    refine ⟨h₂, fun hpeek => ?_, hstop, hmade⟩
    rw [hmissing] at hpeek
    cases hpeek

end Heads

/-! ### Raw text and characters -/

section Text

variable {allows : Fault → Prop} {r : Reader}

/-- The nodes behind those that were read before lie behind them, the last one first; if
reading goes on, more text may be added. -/
def Reader.Extends (r : Reader) (before : List Node) (r' : Reader) (nodes : List Node)
    (continues : Bool) : Prop :=
  ∀ source lo, r.cursor.Anchored source → Node.Written source lo r.cursor.position before →
    Node.Laid source lo r'.cursor.position nodes.reverse ∧
      (continues = true → Node.Written source lo r'.cursor.position nodes)

theorem Reader.extends_of_written {r' : Reader} {before nodes : List Node} {continues : Bool}
    (h : ∀ source lo, r.cursor.Anchored source →
      Node.Written source lo r.cursor.position before →
      Node.Written source lo r'.cursor.position nodes) :
    r.Extends before r' nodes continues :=
  fun source lo hanchored hbefore =>
    ⟨(h source lo hanchored hbefore).laid, fun _ => h source lo hanchored hbefore⟩

theorem Reader.Scans.extends_nothing {r' : Reader} {nodes : List Node} (h : r.Scans r') :
    r.Extends nodes r' nodes false :=
  fun _ _ _ hbefore => ⟨hbefore.laid.widen (Nat.le_refl _) h.position_le, fun h => by cases h⟩

theorem ensures_leaveRaw {grouped : Bool} {raw : RawText} {post : Unit → Reader → Prop}
    (h : ∀ r', r.Scans r' → r'.cursor = r.cursor → post () r') :
    Ensures allows (leaveRaw grouped raw) r post := by
  rw [leaveRaw, ensures_ite]
  exact ⟨fun _ => h _ (Reader.scans_leave _) rfl, fun _ => h r (.refl r) rfl⟩

theorem ensures_readRaw {start : Nat} {grouped : Bool} (hstart : start ≤ r.cursor.position) :
    Ensures allows (readRaw start grouped) r fun node r' => r.Scans r' ∧ node.isLeaf = true ∧
      ∀ source, r.cursor.Anchored source →
        Node.Laid source start r'.cursor.position [node] := by
  obtain ⟨htext, hcontent, hlength⟩ := RawText.ofChars_reads grouped r.cursor.rest
  simp only [readRaw, ensures_bind, ensures_position, ensures_get]
  generalize RawText.ofChars grouped r.cursor.rest = raw at *
  refine ensures_moveCursor (Cursor.passes_advance _ _) fun r₀ h₀ hcursor₀ => ?_
  refine ensures_leaveRaw fun r₁ hrecord hsame => ?_
  have h₁ : r.Scans r₁ := h₀.trans hrecord
  have hposition₁ : r₁.cursor.position = r.cursor.position + raw.length := by
    rw [hsame, hcursor₀, Cursor.position_advance_of_le hlength]
  -- the text lies where it was read
  have finish : ∀ r₂, r₁.Scans r₂ → r₂.cursor = r₁.cursor →
      r.Scans r₂ ∧ Node.isLeaf (.preformatted ⟨start, r₂.cursor.position⟩
          ⟨r.cursor.position, r.cursor.position + raw.contentLength⟩ raw.text) = true ∧
        ∀ source, r.cursor.Anchored source → Node.Laid source start r₂.cursor.position
          [.preformatted ⟨start, r₂.cursor.position⟩
            ⟨r.cursor.position, r.cursor.position + raw.contentLength⟩ raw.text] := by
    intro r₂ h₂ hcursor₂
    have hposition : r₂.cursor.position = r.cursor.position + raw.length := by
      rw [hcursor₂, hposition₁]
    refine ⟨h₁.trans h₂, rfl, fun source hanchored => ?_⟩
    have hle : r.cursor.position + raw.contentLength ≤ r₂.cursor.position := by omega
    refine .single (.preformatted hstart (Nat.le_add_right _ _) hle ?_) (Nat.le_refl _)
      (Nat.le_trans hstart (h₁.trans h₂).position_le) (Nat.le_refl _)
    rw [cut, hanchored.rest, Nat.add_sub_cancel_left]
    exact htext
  simp only [ensures_ite, ensures_bind, ensures_position]
  refine ⟨fun _ => ensures_emit rfl fun r₂ h₂ hcursor₂ => ?_, fun _ => ?_⟩
  · exact ensures_spanFrom (Nat.le_trans hstart (h₁.trans h₂).position_le)
      (ensures_checked (Nat.le_add_right _ _) (finish r₂ h₂ hcursor₂))
  · exact ensures_spanFrom (Nat.le_trans hstart h₁.position_le)
      (ensures_checked (Nat.le_add_right _ _) (finish r₁ (.refl r₁) rfl))

theorem ensures_readPreformatted :
    Ensures allows readPreformatted r fun node r' => r.Scans r' ∧ node.isLeaf = true ∧
      ∀ source, r.cursor.Anchored source →
        Node.Laid source r.cursor.position r'.cursor.position [node] := by
  simp only [readPreformatted, ensures_bind, ensures_position]
  refine ensures_accept (fun _ r₁ h₁ _ => ?_) fun _ => ensures_readRaw (Nat.le_refl _)
  simp only [if_true, ensures_bind]
  refine ensures_endLine fun r₂ h₂ => ensures_enter.mpr ?_
  have h := (h₁.trans h₂).trans (Reader.scans_enter .raw)
  refine (ensures_readRaw h.position_le).mono ?_
  intro node r₃ hanswer
  obtain ⟨h₃, hleaf, hlaid⟩ := hanswer
  exact ⟨h.trans h₃, hleaf, fun source hanchored => hlaid source (h.anchored hanchored)⟩

/-- Text that is put behind nodes is a leaf or joins one. -/
@[simp] theorem compounds_appendText (text : String) (span : Span) (nodes : List Node) :
    compounds (appendText text span nodes) = compounds nodes := by
  unfold appendText
  split <;> rfl

/-- A character that is not the mark that was looked for. -/
theorem Cursor.Reads.ne_of_not_peek {c c' : Cursor} {x y : Char} (h : c.Reads [x] c')
    (hpeek : c.peek (String.ofList [y]) = false) : x ≠ y := by
  rintro rfl
  simp [Cursor.peek, h.rest] at hpeek

theorem Reader.extends_character {r' : Reader} {c : Char} {nodes : List Node} {continues : Bool}
    (h : r.cursor.Reads [c] r'.cursor) (hbreak : c ≠ '\n') :
    r.Extends nodes r' (appendText c.toString ⟨r.cursor.position, r'.cursor.position⟩ nodes)
      continues := by
  refine extends_of_written fun source lo hanchored hwritten => ?_
  have hposition : r'.cursor.position = r.cursor.position + 1 := h.position
  have hcut := h.cut_eq hanchored
  rw [hposition] at hcut ⊢
  exact hwritten.character hcut hbreak

/-- A character adds nothing but text, and if the paragraph goes on, it was passed. -/
theorem ensures_readCharacter (nodes : List Node) :
    Ensures allows (readCharacter nodes) r fun read r' => r.Scans r' ∧
      compounds read.1 = compounds nodes ∧ (read.2 = true → r'.left < r.left) ∧
      (r.cursor.rest ≠ [] → r'.left < r.left) ∧ r.Extends nodes r' read.1 read.2 := by
  have hfalse : ∀ {p : Prop}, false = true → p := fun h => absurd h Bool.false_ne_true
  simp only [readCharacter, ensures_bind, ensures_position]
  refine ensures_acceptMark (fun r₁ h₁ hlt hmark => ?_) fun hmissing => ?_
  · simp only [if_true, ensures_bind]
    refine ensures_skipBlanks fun r₂ h₂ hblanks => ?_
    have h := h₁.trans h₂
    have hlt₂ : r₂.left < r.left := Nat.lt_of_le_of_lt h₂.left_le hlt
    simp only [ensures_get, ensures_peek, ensures_isAtEnd, ensures_ite]
    refine ⟨fun _ => ⟨h, rfl, hfalse, fun _ => hlt₂, h.extends_nothing⟩, fun _ => ?_⟩
    rw [ensures_bind]
    refine ensures_accept (fun _ r₃ h₃ hlt₃ => ?_) fun _ => ?_
    · simp only [if_true, ensures_bind]
      refine ensures_skipLines fun r₄ h₄ => ?_
      have h' := h₃.trans h₄
      exact ⟨h.trans h', rfl, hfalse, fun _ => Nat.lt_of_le_of_lt h'.left_le hlt₂,
        (h.trans h').extends_nothing⟩
    · simp only [Bool.false_eq_true, if_false, ensures_bind]
      refine ensures_checked (Nat.le_succ _) ?_
      refine ⟨h, compounds_appendText .., fun _ => hlt₂, fun _ => hlt₂, ?_⟩
      refine Reader.extends_of_written fun source lo hanchored hwritten => ?_
      obtain ⟨blanks, hreads, hblank, hends⟩ := hblanks
      have hanchored₁ := h₁.anchored hanchored
      have hposition : r₁.cursor.position = r.cursor.position + 1 := hmark.position
      have hcut := hmark.cut_eq hanchored
      rw [hposition] at hcut
      refine hwritten.lineBreak hcut (hposition ▸ h₂.position_le) ?_ ?_
      · rw [← hposition, hreads.cut_eq hanchored₁]
        exact hblank
      · rw [(h₂.anchored hanchored₁).rest]
        exact hends
  · simp only [Bool.false_eq_true, if_false, ensures_bind]
    refine ensures_takeChar? (fun c r₁ h₁ hlt hchar => ?_) fun hnil => ?_
    · simp only [ensures_bind]
      refine ensures_spanFrom h₁.position_le ?_
      exact ⟨h₁, compounds_appendText .., fun _ => hlt, fun _ => hlt,
        Reader.extends_character hchar (hchar.ne_of_not_peek hmissing)⟩
    · exact ⟨.refl r, rfl, hfalse, fun h => absurd hnil h, (Reader.Scans.refl r).extends_nothing⟩

theorem ensures_readEscaped {r' : Reader} (h : r.Scans r')
    (hescape : r.cursor.Reads Mark.escape.text.toList r'.cursor) (nodes : List Node) :
    Ensures allows (readEscaped r.cursor.position nodes) r' fun read r'' => r.Scans r'' ∧
      r''.left ≤ r'.left ∧ compounds read = compounds nodes ∧
      r.Extends nodes r'' read true := by
  simp only [readEscaped, ensures_bind]
  refine ensures_takeChar? (fun c r₁ h₁ _ hchar => ?_) fun _ => ?_
  · simp only [ensures_bind]
    have hscans := h.trans h₁
    refine ensures_spanFrom hscans.position_le ⟨hscans, h₁.left_le, rfl, ?_⟩
    refine Reader.extends_of_written fun source lo hanchored hwritten => ?_
    have hreads := hescape.trans hchar
    exact hwritten.push (.escaped hreads.position (hreads.cut_eq hanchored)) rfl (Nat.le_refl _)
      hscans.position_le (Nat.le_refl _)
  · simp only [ensures_bind]
    exact ensures_spanFrom h.position_le ⟨h, Nat.le_refl _, compounds_appendText ..,
      Reader.extends_character hescape (by decide)⟩

theorem ensures_acceptInlineClose {post : Bool → Reader → Prop}
    (hfound : ∀ r', r.Scans r' → post true r') (hmissing : post false r) :
    Ensures allows acceptInlineClose r post := by
  simp only [acceptInlineClose, ensures_bind]
  refine ensures_accept (fun _ r₁ h₁ _ => hfound r₁ h₁) fun _ => ?_
  exact ensures_accept (fun _ r₁ h₁ _ => hfound r₁ h₁) fun _ => hmissing

end Text

end MacroMarkup
