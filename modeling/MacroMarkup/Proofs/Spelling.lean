import Mathlib.Data.List.Forall2
import MacroMarkup.Proofs.Standing

/-!
# Reading what is spelled out

A plain character stands for itself in an argument, and any character does behind a backslash,
so a word that is written with these is read as it is meant, wherever a reader stands before it.

* `isPlain`: a character that means itself.
* `Written`: how a word is written in an argument; `spelling?`: what literal parts of one
  stand for.
* `Parse.goesOn_plain`, `Parse.goesOn_escape`: neither ends an argument.
* `ensures_readEntities_written`, `ensures_readArguments_written`: a list of words is read as
  arguments that spell them, by induction on how they are written.
* `ensures_expandArguments_spelled`: arguments that spell words have them as values.
* `ensures_readHead_named`: the head of a known modifier.
-/

namespace MacroMarkup

/-- A character that means itself wherever it stands: it belongs to no sign of the language and
is neither a blank nor a line break. -/
def isPlain (c : Char) : Bool :=
  !(['[', ']', ':', ';', '-', '\\', '$', '(', ')', ' ', '\t', '\n'].contains c)

theorem ne_of_isPlain {c x : Char} (h : isPlain c = true) (hx : isPlain x = false) : c ≠ x := by
  rintro rfl
  rw [h] at hx
  cases hx

theorem isSpacing_of_isPlain {c : Char} (h : isPlain c = true) : isSpacing c = false := by
  have hspace : c ≠ ' ' := ne_of_isPlain h rfl
  have htab : c ≠ '\t' := ne_of_isPlain h rfl
  have hline : c ≠ '\n' := ne_of_isPlain h rfl
  simp [isSpacing, isBlank, hspace, htab, hline]

theorem Mark.not_isPrefixOf_plain {c : Char} (h : isPlain c = true) (mark : Mark)
    (text : List Char) : mark.text.toList.isPrefixOf (c :: text) = false := by
  obtain ⟨x, rest, hmark, hx⟩ : ∃ x rest, mark.text.toList = x :: rest ∧ isPlain x = false := by
    cases mark <;> exact ⟨_, _, rfl, rfl⟩
  have hne : (x == c) = false := by simpa using (ne_of_isPlain h hx).symm
  rw [hmark, List.isPrefixOf, hne, Bool.false_and]

/-! ### Spans -/

section Spans

open Parse

variable {r : Reader}

theorem ensures_checkedAny {σ : Type} {s : σ} {start stop : Nat} {post : Span → σ → Prop}
    (h : ∀ span, post span s) :
    Ensures anyFault (liftM (Span.checked start stop) : StateT σ (Except Fault) Span) s post := by
  unfold Span.checked
  split
  · exact h _
  · exact trivial

theorem ensures_spanFromAny {start : Nat} {post : Span → Reader → Prop}
    (h : ∀ span, post span r) : Ensures anyFault (spanFrom start) r post := by
  rw [spanFrom, ensures_bind, ensures_position]
  exact ensures_checkedAny h

end Spans

/-! ### Words -/

/-- `source` is a way to write `text` in an argument. -/
inductive Written : List Char → List Char → Prop
  | nil : Written [] []
  | plain {c : Char} {source text : List Char} (hc : isPlain c = true)
      (h : Written source text) : Written (c :: source) (c :: text)
  | escaped (c : Char) {source text : List Char} (h : Written source text) :
      Written ('\\' :: c :: source) (c :: text)

theorem written_plain {text : List Char} (h : ∀ c ∈ text, isPlain c = true) :
    Written text text := by
  induction text with
  | nil => exact .nil
  | cons c rest ih =>
    exact .plain (h c List.mem_cons_self) (ih fun x hx => h x (List.mem_cons_of_mem _ hx))

/-- Any text can be written with a backslash before each character. -/
theorem written_escaped (text : List Char) : Written (text.flatMap fun c => ['\\', c]) text := by
  induction text with
  | nil => exact .nil
  | cons c rest ih => exact .escaped c ih

/-- What literal parts of an argument stand for. -/
def spelling? : List Entity → Option String
  | [] => some ""
  | .text _ content :: rest => (spelling? rest).map (content ++ ·)
  | .escaped _ content :: rest => (spelling? rest).map (content ++ ·)
  | .interpolation _ _ _ _ :: _ => none

theorem spelling?_append (a b : List Entity) :
    spelling? (a ++ b) = (spelling? a).bind fun s => (spelling? b).map (s ++ ·) := by
  induction a with
  | nil => cases h : spelling? b <;> simp [spelling?, h]
  | cons entity rest ih =>
    cases entity with
    | text span content =>
      simp only [List.cons_append, spelling?, ih]
      cases spelling? rest <;> cases spelling? b <;> simp [String.append_assoc]
    | escaped span content =>
      simp only [List.cons_append, spelling?, ih]
      cases spelling? rest <;> cases spelling? b <;> simp [String.append_assoc]
    | interpolation span interpolator argument value => rfl

theorem spelling?_appendEntityText (content : String) (span : Span) (parts : List Entity) :
    spelling? (appendEntityText content span parts).reverse
      = (spelling? parts.reverse).map (· ++ content) := by
  have happend : ∀ before : List Entity,
      spelling? (before ++ [.text span content]) = (spelling? before).map (· ++ content) := by
    intro before
    rw [spelling?_append]
    cases spelling? before <;> simp [spelling?]
  unfold appendEntityText
  split
  · rename_i last inner rest
    simp only [List.reverse_cons, spelling?_append]
    cases spelling? rest.reverse <;> simp [spelling?, String.append_assoc]
  · rw [List.reverse_cons, happend]

theorem spelling?_escaped (content : String) (span : Span) (parts : List Entity) :
    spelling? (Entity.escaped span content :: parts).reverse
      = (spelling? parts.reverse).map (· ++ content) := by
  rw [List.reverse_cons, spelling?_append]
  cases spelling? parts.reverse <;> simp [spelling?]

/-- The argument spells a word and was not evaluated yet. -/
structure Argument.Spells (a : Argument) (text : String) : Prop where
  value : a.value = none
  spelling : spelling? a.content = some text

theorem expandEntities_spelled {entities : List Entity} {text : String}
    (h : spelling? entities = some text) (e : Engine) :
    expandEntities entities e = .ok ((entities, some text), e) := by
  induction entities generalizing text with
  | nil =>
    cases h
    rfl
  | cons entity rest ih =>
    have hstep : ∀ content, expandEntity entity e = .ok ((entity, some content), e) →
        (spelling? rest).map (content ++ ·) = some text →
        expandEntities (entity :: rest) e = .ok ((entity :: rest, some text), e) := by
      intro content hentity hspelling
      obtain ⟨others, hothers, rfl⟩ := Option.map_eq_some_iff.mp hspelling
      rw [expandEntities, bind_of_ok hentity]
      exact bind_of_ok (ih hothers)
    cases entity with
    | text span content => exact hstep content (by rw [expandEntity]; rfl) h
    | escaped span content => exact hstep content (by rw [expandEntity]; rfl) h
    | interpolation span interpolator argument value => cases h

theorem expandArgument_known {a : Argument} {value : String} (ha : a.value = some value)
    (e : Engine) : expandArgument a e = .ok ((a, some value), e) := by
  obtain ⟨span, content, _⟩ := a
  cases ha
  rw [expandArgument]
  rfl

theorem expandArgument_spelled {a : Argument} {text : String} (ha : a.Spells text) (e : Engine) :
    expandArgument a e = .ok (({ a with value := some text }, some text), e) := by
  obtain ⟨span, content, _⟩ := a
  obtain ⟨rfl, hspelling⟩ := ha
  rw [expandArgument]
  exact bind_of_ok (expandEntities_spelled hspelling e)

/-- **Arguments that spell words have them as values.** -/
theorem ensures_expandArguments_spelled {allows : Fault → Prop} {arguments : List Argument}
    {words : List String} (h : List.Forall₂ Argument.Spells arguments words) (e : Engine) :
    Ensures allows (expandArguments arguments) e fun arguments' e' =>
      e' = e ∧ arguments'.map Argument.value = words.map some := by
  induction h with
  | nil => exact ⟨rfl, rfl⟩
  | @cons a word rest words ha _ ih =>
    rw [expandArguments, ensures_bind, ensures_of_eq (expandArgument_spelled ha e), ensures_bind]
    refine ih.mono ?_
    rintro rest' _ ⟨rfl, hvalues⟩
    exact ⟨rfl, by rw [List.map_cons, hvalues]; rfl⟩

/-! ### Arguments -/

/-- The inline modifiers and the interpolators are those that come with the language. -/
structure Context.IsStandard (cx : Context) : Prop where
  inlines : cx.configuration.inlines = Builtin.configuration.inlines
  interpolators : cx.configuration.interpolators = Builtin.configuration.interpolators

theorem Builtin.findLongest?_interpolators (test : String → Bool) :
    Builtin.configuration.interpolators.findLongest? test
      = if test Builtin.interpolator.name then some Builtin.interpolator else none := by
  show Registry.findLongestIn? test [⟨[Builtin.interpolator], [Builtin.interpolator]⟩] = _
  rw [Registry.findLongestIn?_cons]
  show Registry.longer (List.find? _ _) none = _
  rw [List.find?_cons]
  show Registry.longer (match test Builtin.interpolator.name with
    | true => some Builtin.interpolator
    | false => none) none = _
  cases test Builtin.interpolator.name <;> rfl

section Arguments

open Parse

variable {e : Engine} {r : Reader} {text : List Char} {closing : Option String}
  {parts : List Entity} {fuel stop : Nat}

/-- The closing mark can only be the one of the language. -/
abbrev Parse.ClosesStandard (closing : Option String) : Prop :=
  ∀ mark, closing = some mark → mark = Builtin.interpolator.closing

theorem Parse.goesOn_plain (hclosing : ClosesStandard closing) {c : Char}
    (hc : isPlain c = true) (text : List Char) : GoesOn closing (c :: text) where
  some_left := List.cons_ne_nil _ _
  closes mark hmark := by
    have hne : (')' == c) = false := by simpa using (ne_of_isPlain hc (x := ')') rfl).symm
    simp [hclosing mark hmark, Builtin.interpolator, List.isPrefixOf, hne]
  separates := Mark.not_isPrefixOf_plain hc _ _
  ends := Mark.not_isPrefixOf_plain hc _ _
  closes_head := Mark.not_isPrefixOf_plain hc _ _

theorem Parse.goesOn_escape (hclosing : ClosesStandard closing) (text : List Char) :
    GoesOn closing ('\\' :: text) where
  some_left := List.cons_ne_nil _ _
  closes mark hmark := by rw [hclosing mark hmark]; rfl
  separates := rfl
  ends := rfl
  closes_head := rfl

/-- The interpolator of the language is the only one that is found. -/
theorem ensures_findInterpolator (h : r.Faces e text) (he : e.context.IsStandard) :
    Ensures anyFault findInterpolator? r fun found r' => r' = r ∧
      found = if Builtin.interpolator.name.toList.isPrefixOf text
        then some Builtin.interpolator else none := by
  rw [findInterpolator?, ensures_bind, ensures_configuration]
  refine (ensures_findLongestM?_findLongest? _).mono ?_
  rintro found _ ⟨rfl, hfound⟩
  rw [h.engine, he.interpolators, Builtin.findLongest?_interpolators, h.peek] at hfound
  exact ⟨rfl, hfound⟩

/-- **A plain character** of an argument belongs to its text. -/
theorem ensures_readEntities_plain {post : ArgumentText → Reader → Prop} {c : Char}
    (hc : isPlain c = true) (h : r.Faces e (c :: text)) (he : e.context.IsStandard)
    (hclosing : ClosesStandard closing)
    (hpost : ∀ span r', r'.Faces e text → Ensures anyFault
      (readEntities fuel closing (appendEntityText c.toString span parts) span.stop) r' post) :
    Ensures anyFault (readEntities (fuel + 1) closing parts stop) r post := by
  have hplain : Builtin.interpolator.name.toList.isPrefixOf (c :: text) = false := by
    have hne : ('$' == c) = false := by simpa using (ne_of_isPlain hc (x := '$') rfl).symm
    simp [Builtin.interpolator, List.isPrefixOf, hne]
  have hfind : Ensures anyFault findInterpolator? r fun found r' => found = none ∧ r' = r := by
    refine (ensures_findInterpolator h he).mono ?_
    rintro _ _ ⟨rfl, rfl⟩
    rw [hplain, if_neg Bool.false_ne_true]
    exact ⟨rfl, rfl⟩
  exact stands_readEntities_character h.standsAt (goesOn_plain hclosing hc text)
    (ne_of_isPlain hc rfl) hfind fun r' h' => hpost _ r' h'.toFaces

/-- **A character behind a backslash** belongs to the text of an argument. -/
theorem ensures_readEntities_escaped {post : ArgumentText → Reader → Prop} {c : Char}
    (h : r.Faces e ('\\' :: c :: text)) (hclosing : ClosesStandard closing)
    (hpost : ∀ span r', r'.Faces e text → Ensures anyFault
      (readEntities fuel closing (.escaped span c.toString :: parts) span.stop) r' post) :
    Ensures anyFault (readEntities (fuel + 1) closing parts stop) r post :=
  stands_readEntities_escape h.standsAt (goesOn_escape hclosing _)
    fun r' h' => hpost _ r' h'.toFaces

/-- **A word in an argument** is read as it is meant. -/
theorem ensures_readEntities_written {post : ArgumentText → Reader → Prop}
    (he : e.context.IsStandard) (hclosing : ClosesStandard closing) {source word : List Char}
    (hword : Written source word) : ∀ {fuel stop : Nat} {parts : List Entity} {before : String}
      {r : Reader}, r.Faces e (source ++ text) → spelling? parts.reverse = some before →
      (∀ fuel' stop' parts' r', r'.Faces e text →
        spelling? parts'.reverse = some (before ++ String.ofList word) →
        Ensures anyFault (readEntities fuel' closing parts' stop') r' post) →
      Ensures anyFault (readEntities fuel closing parts stop) r post := by
  induction hword with
  | nil =>
    intro fuel stop parts before r h hparts hpost
    exact hpost _ _ _ _ h (by simpa using hparts)
  | @plain c source word hc _ ih =>
    intro fuel stop parts before r h hparts hpost
    cases fuel with
    | zero => exact trivial
    | succ fuel =>
      refine ensures_readEntities_plain hc h he hclosing fun span r' h' => ?_
      refine ih h' (by rw [spelling?_appendEntityText, hparts]; rfl)
        fun fuel' stop' parts' r'' h'' hparts' => hpost _ _ _ _ h'' ?_
      rw [hparts', String.append_assoc]
      simp [String.ofList_cons]
  | @escaped c source word _ ih =>
    intro fuel stop parts before r h hparts hpost
    cases fuel with
    | zero => exact trivial
    | succ fuel =>
      refine ensures_readEntities_escaped h hclosing fun span r' h' => ?_
      refine ih h' (by rw [spelling?_escaped, hparts]; rfl)
        fun fuel' stop' parts' r'' h'' hparts' => hpost _ _ _ _ h'' ?_
      rw [hparts', String.append_assoc]
      simp [String.ofList_cons]

/-- **The interpolation of a word** is read as one part. -/
theorem ensures_readEntities_interpolation {post : ArgumentText → Reader → Prop}
    (he : e.context.IsStandard) {source word : List Char} (hword : Written source word)
    (h : r.Faces e ("$(".toList ++ (source ++ ')' :: text)))
    (hpost : ∀ fuel' span inner r', r'.Faces e text → inner.Spells (String.ofList word) →
      ∀ stop', Ensures anyFault (readEntities fuel' none
        (.interpolation span Builtin.interpolator inner none :: parts) stop') r' post) :
    Ensures anyFault (readEntities fuel none parts stop) r post := by
  have hgoes : GoesOn none ("$(".toList ++ (source ++ ')' :: text)) :=
    ⟨List.cons_ne_nil _ _, fun _ hmark => (by cases hmark), rfl, rfl, rfl⟩
  have hfound : Builtin.interpolator.name.toList.isPrefixOf
      ("$(".toList ++ (source ++ ')' :: text)) = true := rfl
  cases fuel with
  | zero => exact trivial
  | succ fuel =>
    rw [readEntities]
    refine stands_goesOn h.standsAt hgoes ?_
    simp only [ensures_bind, ensures_position]
    refine (stands_accept_other h.standsAt rfl).mono ?_
    rintro _ _ ⟨rfl, rfl⟩
    rw [if_neg Bool.false_ne_true, ensures_bind]
    refine (ensures_findInterpolator h he).mono ?_
    rintro _ r₀ ⟨rfl, rfl⟩
    simp only [hfound, if_true, ensures_bind]
    have hname : r₀.Faces e (Builtin.interpolator.name.toList ++ (source ++ ')' :: text)) := h
    refine (stands_acceptName hname.standsAt fun _ => trivial).mono ?_
    rintro _ r₁ ⟨-, h₁⟩
    rw [ensures_position, ensures_enter]
    refine ensures_readEntities_written he (fun _ hmark => (Option.some.inj hmark).symm) hword
      (h₁.enter _).toFaces rfl fun fuel₂ stop₂ parts₂ r₂ h₂ hparts₂ => ?_
    -- the closing mark ends what is inside
    cases fuel₂ with
    | zero => exact trivial
    | succ fuel₂ =>
      have hcloses : r₂.Faces e (Builtin.interpolator.closing.toList ++ text) := h₂
      refine (stands_readEntities_closing (fun _ => trivial) hcloses.standsAt).mono ?_
      rintro _ r₃ ⟨rfl, h₃⟩
      rw [ensures_leave]
      refine ensures_checkedAny fun innerSpan => ensures_spanFromAny fun span => ?_
      rw [if_pos rfl]
      refine hpost fuel span ⟨innerSpan, parts₂.reverse, none⟩ _ (h₃.leave _).toFaces ⟨rfl, ?_⟩ _
      rw [hparts₂, String.empty_append]

/-! ### Lists of arguments -/

/-- A word is an argument, up to where the argument ends. -/
theorem ensures_readArgument_written {post : Argument × Bool → Reader → Prop}
    (he : e.context.IsStandard) {source behind : List Char} {word : String}
    (hword : Written source word.toList) (h : r.Faces e (source ++ behind))
    (hend : ∀ fuel' stop' parts' r', r'.Faces e behind →
      Ensures anyFault (readEntities (fuel' + 1) none parts' stop') r' fun read r'' =>
        read.content = parts'.reverse ∧
          ∀ a : Argument, a.Spells word → post (a, read.continues) r'') :
    Ensures anyFault readArgument r post := by
  simp only [readArgument, ensures_bind, ensures_position, ensures_get]
  refine ensures_readEntities_written he (fun _ hmark => by cases hmark) hword h rfl
    fun fuel' stop' parts' r' h' hparts' => ?_
  rw [String.ofList_toList, String.empty_append] at hparts'
  cases fuel' with
  | zero => exact trivial
  | succ fuel' =>
    refine (hend fuel' stop' parts' r' h').mono ?_
    rintro ⟨_, _, continues⟩ r'' ⟨rfl, hpost⟩
    exact ensures_checkedAny fun span => hpost ⟨span, parts'.reverse, none⟩ ⟨rfl, hparts'⟩

theorem ensures_readArgument_separated {post : Argument × Bool → Reader → Prop}
    (he : e.context.IsStandard) {source : List Char} {word : String}
    (hword : Written source word.toList) (h : r.Faces e (source ++ ':' :: text))
    (hpost : ∀ a r', a.Spells word → r'.Faces e text → post (a, true) r') :
    Ensures anyFault readArgument r post := by
  refine ensures_readArgument_written he hword h fun _ _ _ r' h' => ?_
  refine (stands_readEntities_separator h'.standsAt).mono ?_
  rintro _ r'' ⟨rfl, h''⟩
  exact ⟨rfl, fun a ha => hpost a r'' ha h''.toFaces⟩

theorem ensures_readArgument_last {post : Argument × Bool → Reader → Prop}
    (he : e.context.IsStandard) {source : List Char} {word : String}
    (hword : Written source word.toList) {c : Char} (hc : c = ';' ∨ c = ']')
    (h : r.Faces e (source ++ c :: text))
    (hpost : ∀ a, a.Spells word → ∀ r', r'.Faces e (c :: text) → post (a, false) r') :
    Ensures anyFault readArgument r post := by
  refine ensures_readArgument_written he hword h fun _ _ _ r' h' => ?_
  refine (stands_readEntities_headEnd hc h'.standsAt).mono ?_
  rintro _ _ ⟨rfl, rfl⟩
  exact ⟨rfl, fun a ha => hpost a ha _ h'⟩

/-- **Words between colons** are read as arguments that spell them. -/
theorem ensures_readArgumentList_written (he : e.context.IsStandard) {leading : Bool} {c : Char}
    (hc : c = ';' ∨ c = ']') {sources : List (List Char)} {words : List String}
    (hwords : List.Forall₂ (fun source word => Written source word.toList) sources words) :
    ∀ {fuel : Nat} {source : List Char} {word : String} {before : List Argument}
      {done : List String} {r : Reader}, Written source word.toList →
      List.Forall₂ Argument.Spells before.reverse done →
      leading = true ∨ before ≠ [] ∨ word ≠ "" →
      r.Faces e (source ++ (sources.flatMap (':' :: ·) ++ c :: text)) →
      Ensures anyFault (readArgumentList leading fuel before) r fun arguments r' =>
        List.Forall₂ Argument.Spells arguments (done ++ word :: words) ∧
          r'.Faces e (c :: text) := by
  induction hwords with
  | nil =>
    intro fuel source word before done r hword hbefore hkept h
    cases fuel with
    | zero => exact trivial
    | succ fuel =>
      rw [readArgumentList, ensures_bind]
      refine ensures_readArgument_last he hword hc h fun a ha r' h' => ?_
      -- nothing at all is an argument where one was announced
      have hkept' : (before.isEmpty && a.content.isEmpty && !leading) = false := by
        rcases hkept with hleading | hbefore | hword
        · simp [hleading]
        · simp [hbefore]
        · have : a.content ≠ [] := by
            intro hnil
            have hspelling := ha.spelling
            rw [hnil] at hspelling
            exact hword (Option.some.inj hspelling).symm
          simp [this]
      simp only [Bool.false_eq_true, if_false, hkept', ensures_pure, List.reverse_cons]
      exact ⟨List.rel_append hbefore (.cons ha .nil), h'⟩
  | @cons source' word' sources words hword' _ ih =>
    intro fuel source word before done r hword hbefore hkept h
    cases fuel with
    | zero => exact trivial
    | succ fuel =>
      rw [readArgumentList, ensures_bind]
      refine ensures_readArgument_separated he hword (by simpa using h) fun a r' ha h' => ?_
      simp only [if_true]
      have hbefore' : List.Forall₂ Argument.Spells (a :: before).reverse (done ++ [word]) := by
        rw [List.reverse_cons]
        exact List.rel_append hbefore (.cons ha .nil)
      refine (ih hword' hbefore' (.inr (.inl (List.cons_ne_nil _ _))) h').mono ?_
      intro arguments r'' answer
      rwa [List.append_assoc] at answer

/-- A word that is not empty does not start like what stands before it. -/
theorem Written.head {source word : List Char} (h : Written source word) (hne : word ≠ []) :
    ∃ c rest, source = c :: rest ∧ isSpacing c = false ∧ (':' == c) = false := by
  cases h with
  | nil => exact absurd rfl hne
  | @plain c source word hc _ =>
    have hcolon : c ≠ ':' := ne_of_isPlain hc rfl
    exact ⟨c, source, rfl, isSpacing_of_isPlain hc, by simpa using hcolon.symm⟩
  | escaped c _ => exact ⟨'\\', _, rfl, rfl, rfl⟩

/-- **The arguments of a head**, the first of which is not empty. -/
theorem ensures_readArguments_written (he : e.context.IsStandard) {c : Char}
    (hc : c = ';' ∨ c = ']') (gap : List Char) {source : List Char} {word : String}
    {sources : List (List Char)} {words : List String} (hgap : ∀ c ∈ gap, isBlank c = true)
    (hword : Written source word.toList) (hne : word ≠ "")
    (hwords : List.Forall₂ (fun source word => Written source word.toList) sources words)
    (h : r.Faces e (gap ++ (source ++ (sources.flatMap (':' :: ·) ++ c :: text)))) :
    Ensures anyFault readArguments r fun arguments r' =>
      List.Forall₂ Argument.Spells arguments (word :: words) ∧ r'.Faces e (c :: text) := by
  obtain ⟨first, rest, hsource, hspacing, hcolon⟩ := hword.head (by simpa using hne)
  have hmissing : Mark.separator.text.toList.isPrefixOf
      (gap ++ (source ++ (sources.flatMap (':' :: ·) ++ c :: text))) = false := by
    cases gap with
    | nil => simp [Mark.text, List.isPrefixOf, hsource, hcolon]
    | cons x gap =>
      have hx := hgap x List.mem_cons_self
      have hne : (':' == x) = false := by
        simp only [isBlank, Bool.or_eq_true, beq_iff_eq] at hx
        rcases hx with rfl | rfl
        · rfl
        · rfl
      simp [Mark.text, List.isPrefixOf, hne]
  have hdrop : (gap ++ (source ++ (sources.flatMap (':' :: ·) ++ c :: text))).dropWhile isSpacing
      = source ++ (sources.flatMap (':' :: ·) ++ c :: text) := by
    have hgap' : ∀ x ∈ gap, isSpacing x = true := fun x hx => by simp [isSpacing, hgap x hx]
    rw [List.dropWhile_append_of_pos hgap', hsource, List.cons_append,
      List.dropWhile_cons_of_neg (by simp [hspacing])]
  rw [readArguments, ensures_bind]
  refine (stands_accept_other h.standsAt hmissing).mono ?_
  rintro _ _ ⟨rfl, rfl⟩
  simp only [Bool.not_false, if_true, ensures_bind]
  refine (stands_skipWhile_over (p := isSpacing) h.standsAt).mono fun _ r' h' => ?_
  rw [hdrop] at h'
  have hnothing : List.Forall₂ Argument.Spells ([] : List Argument).reverse [] := .nil
  rw [ensures_get]
  exact ensures_readArgumentList_written he hc hwords hword hnothing (.inr (.inr hne)) h'.toFaces

/-- **The interpolation of a word as the only argument of a head.** -/
theorem ensures_readArguments_interpolation (he : e.context.IsStandard) {source : List Char}
    {word : String} (hword : Written source word.toList)
    (h : r.Faces e (" $(".toList ++ (source ++ ')' :: ']' :: text))) :
    Ensures anyFault readArguments r fun arguments r' =>
      (∃ inside part inner, inner.Spells word ∧ arguments
        = [⟨inside, [.interpolation part Builtin.interpolator inner none], none⟩]) ∧
      r'.Faces e (']' :: text) := by
  rw [readArguments, ensures_bind]
  refine (stands_accept_other h.standsAt rfl).mono ?_
  rintro _ _ ⟨rfl, rfl⟩
  simp only [Bool.not_false, if_true, ensures_bind]
  refine (stands_skipWhile_over (p := isSpacing) h.standsAt).mono fun _ r₁ h₁ => ?_
  rw [ensures_get, readArgumentList, ensures_bind]
  simp only [readArgument, ensures_bind, ensures_position, ensures_get]
  refine ensures_readEntities_interpolation he hword h₁.toFaces
    fun fuel part inner r₂ h₂ hinner _ => ?_
  rw [String.ofList_toList] at hinner
  cases fuel with
  | zero => exact trivial
  | succ fuel =>
    refine (stands_readEntities_headEnd (.inr rfl) h₂.standsAt).mono ?_
    rintro _ _ ⟨rfl, rfl⟩
    refine ensures_checkedAny fun inside => ?_
    simp only [Bool.false_eq_true, if_false, List.isEmpty_nil, List.isEmpty_cons, Bool.true_and,
      List.reverse_singleton, Bool.false_and, ensures_pure]
    exact ⟨⟨inside, part, inner, hinner, rfl⟩, h₂⟩

/-- **The arguments of a head behind a colon.** -/
theorem ensures_readArguments_announced (he : e.context.IsStandard) {c : Char}
    (hc : c = ';' ∨ c = ']') {source : List Char} {word : String} {sources : List (List Char)}
    {words : List String} (hword : Written source word.toList)
    (hwords : List.Forall₂ (fun source word => Written source word.toList) sources words)
    (h : r.Faces e (':' :: (source ++ (sources.flatMap (':' :: ·) ++ c :: text)))) :
    Ensures anyFault readArguments r fun arguments r' =>
      List.Forall₂ Argument.Spells arguments (word :: words) ∧ r'.Faces e (c :: text) := by
  rw [readArguments, ensures_bind]
  refine (stands_accept .separator h.standsAt).mono ?_
  rintro _ r' ⟨rfl, h'⟩
  have hnothing : List.Forall₂ Argument.Spells ([] : List Argument).reverse [] := .nil
  simp only [Bool.not_true, Bool.false_eq_true, if_false, ensures_bind, ensures_get]
  exact ensures_readArgumentList_written he hc hwords hword hnothing (.inl rfl) h'.toFaces

end Arguments

/-! ### Heads -/

section Heads

open Parse

variable {e : Engine} {r : Reader} {text : List Char} {kind : ModifierKind}

/-- **The head of a known modifier** is read with its arguments, which are evaluated. -/
theorem ensures_readHead_named {d : Definition} {source : List Char} {ended : Bool}
    {read evaluated : List Argument → Prop}
    (hfound : (e.context.configuration.modifiers kind).findLongest?
      (fun name => name.toList.isPrefixOf (d.name.toList ++ source)) = some d)
    (hargs : ∀ r', r'.Faces e source → Ensures anyFault readArguments r' fun arguments r'' =>
      read arguments ∧ r''.Faces e (headEnding ended ++ text))
    (hvalues : ∀ arguments, read arguments →
      Ensures anyFault (expandArguments arguments) e fun arguments' e' =>
        e' = e ∧ evaluated arguments')
    (h : r.Faces e (kind.opening.text.toList ++ (d.name.toList ++ source))) :
    Ensures anyFault (readHead kind) r fun head r' => r'.Faces e text ∧
      ∃ span arguments, head = ⟨.ofHead d span arguments, ended⟩ ∧ evaluated arguments := by
  -- reading arguments does not move backwards
  have hargs' : ∀ position r', r'.StandsAt e position source →
      Ensures anyFault readArguments r' fun arguments r'' => read arguments ∧
        ∃ stop, position ≤ stop ∧ r''.StandsAt e stop (headEnding ended ++ text) := by
    intro position r' h'
    have hmarked : r'.engine.context.configuration.Marked anyFault :=
      fun _ _ _ _ => ⟨fun _ => trivial, fun _ => trivial⟩
    refine ((hargs r' h'.toFaces).and (ensures_readArguments hmarked)).mono ?_
    rintro arguments r'' ⟨⟨hread, h''⟩, hscans, -⟩
    exact ⟨hread, _, h'.position ▸ hscans.position_le, h''.standsAt⟩
  refine (stands_readHead (fun _ _ _ _ _ => trivial) (fun _ => trivial) hfound hargs' hvalues
    h.standsAt).mono ?_
  rintro head r' ⟨stop, arguments, -, h', hhead, hevaluated⟩
  exact ⟨h'.toFaces, _, arguments, hhead, hevaluated⟩

end Heads

end MacroMarkup
