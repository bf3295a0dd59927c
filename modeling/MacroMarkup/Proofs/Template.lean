import MacroMarkup.Proofs.Asking

/-!
# Templates

A template is a block definition whose body is a paragraph of plain characters and of modifiers
that ask for a parameter.

* `Piece`, `Template`: a template; `Template.source` is how its definition and uses of it are
  written, and `Template.instantiate` is the text that is meant by a use.
* `Yields`: what nodes come to when parameters have values.
* `ensures_readParagraph_pieces`: the paragraph of a body yields, under all values, what is
  meant.
* `Yields.ensures_process`: nodes become what they yield.
-/

namespace MacroMarkup

/-- A text of one plain character or more. -/
def IsWord (word : String) : Prop := word ≠ "" ∧ ∀ c ∈ word.toList, isPlain c = true

instance (word : String) : Decidable (IsWord word) :=
  decidable_of_iff (word ≠ "" ∧ word.toList.all isPlain = true)
    (and_congr_right' List.all_eq_true)

/-- A piece of a body with `k` parameters. -/
inductive Piece (k : Nat) where
  /-- A run of plain characters. -/
  | plain (run : String)
  /-- Asks for a parameter as `[/$x]`. -/
  | reference (i : Fin k)
  /-- Asks for a parameter as `[/print $(x)]`. -/
  | print (i : Fin k)
deriving DecidableEq, Repr

namespace Piece

variable {k : Nat}

def source (parameter : Fin k → String) : Piece k → List Char
  | plain run => run.toList
  | reference i => "[/$".toList ++ ((parameter i).toList ++ "]".toList)
  | print i => "[/print $(".toList ++ ((parameter i).toList ++ ")]".toList)

theorem source_reference (parameter : Fin k → String) (i : Fin k) (text : List Char) :
    (reference i).source parameter ++ text
      = ModifierKind.inline.opening.text.toList ++
        (Builtin.reference.name.toList ++ ((parameter i).toList ++ ']' :: text)) := by
  show "[/$".toList ++ ((parameter i).toList ++ "]".toList) ++ text = _
  rw [List.append_assoc "[/$".toList, List.append_assoc (parameter i).toList]
  rfl

theorem source_print (parameter : Fin k → String) (i : Fin k) (text : List Char) :
    (print i).source parameter ++ text
      = ModifierKind.inline.opening.text.toList ++ (Builtin.print.name.toList ++
        (" $(".toList ++ ((parameter i).toList ++ ')' :: ']' :: text))) := by
  show "[/print $(".toList ++ ((parameter i).toList ++ ")]".toList) ++ text = _
  rw [List.append_assoc "[/print $(".toList, List.append_assoc (parameter i).toList]
  rfl

/-- What a piece stands for when the parameters have values. -/
def instantiate (value : Fin k → String) : Piece k → String
  | plain run => run
  | reference i => value i
  | print i => value i

end Piece

/-- A block definition whose body is a paragraph of plain characters that asks for parameters. -/
structure Template where
  arity : Nat
  parameter : Fin arity → String
  body : List (Piece arity)
  arity_pos : 0 < arity
  parameter_word : ∀ i, IsWord (parameter i)
  parameter_injective : Function.Injective parameter
  body_ne_nil : body ≠ []
  body_words : ∀ run, .plain run ∈ body → IsWord run

namespace Template

def bodySource (t : Template) : List Char := t.body.flatMap (Piece.source t.parameter)

/-- How the definition is written, under the name `p`. -/
def definition (t : Template) : List Char :=
  "[-define-block p".toList ++
    ((List.ofFn t.parameter).flatMap (fun x => ':' :: x.toList) ++ ']' :: t.bodySource)

def escape (text : String) : List Char := text.toList.flatMap fun c => ['\\', c]

def invocation (t : Template) (value : Fin t.arity → String) : List Char :=
  "[.p".toList ++ ((List.ofFn value).flatMap (fun v => ':' :: escape v) ++ ";]".toList)

/-- How uses are written, each behind a blank line. -/
def uses (t : Template) (calls : List (Fin t.arity → String)) : List Char :=
  calls.flatMap fun value => "\n\n".toList ++ t.invocation value

def source (t : Template) (calls : List (Fin t.arity → String)) : String :=
  String.ofList (t.definition ++ t.uses calls)

/-- The text of the body with each parameter replaced by its value. -/
def instantiate (t : Template) (value : Fin t.arity → String) : String :=
  String.join (t.body.map (Piece.instantiate value))

end Template

/-! ### What nodes come to -/

/-- What nodes come to when the parameters have these values. -/
inductive Yields {k : Nat} (parameter value : Fin k → String) : List Node → String → Prop
  | nil : Yields parameter value [] ""
  | text (span : Span) (content : String) {rest : List Node} {s : String}
      (h : Yields parameter value rest s) :
      Yields parameter value (.text span content :: rest) (content ++ s)
  | modifier {m : Modifier} (i : Fin k) {rest : List Node} {s : String}
      (hm : m.Asks (parameter i)) (h : Yields parameter value rest s) :
      Yields parameter value (.modifier m :: rest) (value i ++ s)

namespace Yields

variable {k : Nat} {parameter value : Fin k → String} {nodes : List Node} {s : String}

theorem append {a b : List Node} {s t : String} (ha : Yields parameter value a s)
    (hb : Yields parameter value b t) : Yields parameter value (a ++ b) (s ++ t) := by
  induction ha with
  | nil => rwa [String.empty_append]
  | text span content _ ih =>
    rw [String.append_assoc]
    exact .text span content ih
  | modifier i hm _ ih =>
    rw [String.append_assoc]
    exact .modifier i hm ih

theorem exists_of_concat {span : Span} {content : String}
    (h : Yields parameter value (nodes ++ [.text span content]) s) :
    ∃ before, Yields parameter value nodes before ∧ s = before ++ content := by
  induction nodes generalizing s with
  | nil =>
    cases h with
    | text _ _ h =>
      cases h
      exact ⟨"", .nil, by simp⟩
  | cons node rest ih =>
    cases h with
    | text span content h =>
      obtain ⟨before, hbefore, rfl⟩ := ih h
      exact ⟨content ++ before, .text span content hbefore, (String.append_assoc).symm⟩
    | modifier i hm h =>
      obtain ⟨before, hbefore, rfl⟩ := ih h
      exact ⟨value i ++ before, .modifier i hm hbefore, (String.append_assoc).symm⟩

theorem oneText (span : Span) (content : String) :
    Yields parameter value [.text span content] content := by
  simpa using Yields.text span content (@nil k parameter value)

theorem oneModifier {m : Modifier} (i : Fin k) (hm : m.Asks (parameter i)) :
    Yields parameter value [.modifier m] (value i) := by
  simpa using Yields.modifier i hm (@nil k parameter value)

theorem appendText {before : List Node} (h : Yields parameter value before.reverse s)
    (content : String) (span : Span) :
    Yields parameter value (appendText content span before).reverse (s ++ content) := by
  unfold MacroMarkup.appendText
  split
  · rename_i last inner rest
    rw [List.reverse_cons] at h ⊢
    obtain ⟨text, htext, rfl⟩ := h.exists_of_concat
    rw [String.append_assoc]
    exact htext.append (oneText _ _)
  · rw [List.reverse_cons]
    exact h.append (oneText _ _)

theorem appendModifier {before : List Node} (h : Yields parameter value before.reverse s)
    {m : Modifier} (i : Fin k) (hm : m.Asks (parameter i)) :
    Yields parameter value (Node.modifier m :: before).reverse (s ++ value i) := by
  rw [List.reverse_cons]
  exact h.append (oneModifier i hm)

/-- **Nodes become what they yield** at an immediate visit where the parameters have values, and
leave the engine as it is. -/
theorem ensures_process {levels : Nat} {e : Engine} (h : Yields parameter value nodes s)
    (hnow : e.immediate = true) (hne : ∀ i, parameter i ≠ "")
    (hvalue : ∀ i, e.context.resolve (parameter i) = .ok (.value (value i))) :
    Ensures anyFault (process (levels + 2) nodes) e fun answer e' =>
      e' = e ∧ answer.2 = true ∧ flatText? (stripNodes answer.1) = some s := by
  show Ensures anyFault (processEach (process (levels + 1)) nodes) e _
  induction h with
  | nil => exact ⟨rfl, rfl, by simp [stripNodes, flatText?]⟩
  | text span content _ ih =>
    rw [ensures_processEach_cons]
    refine ih.mono ?_
    rintro ⟨rest, others⟩ _ ⟨rfl, rfl, hrest⟩
    refine ⟨rfl, rfl, ?_⟩
    simp only [stripNodes, stripNode, List.singleton_append, flatText?, hrest, Option.map_some]
  | modifier i hm _ ih =>
    rw [ensures_processEach_cons, ensures_processNode_modifier]
    refine (hm.ensures_expandGenerated (hne i) hnow (hvalue i)).mono ?_
    rintro ⟨m', complete⟩ _ ⟨rfl, rfl, htext⟩
    refine ih.mono ?_
    rintro ⟨rest, others⟩ _ ⟨rfl, rfl, hrest⟩
    refine ⟨rfl, rfl, ?_⟩
    simp only [stripNodes, flatText?_append, htext, hrest, Option.bind_some, Option.map_some]

end Yields

/-! ### Reading a body -/

/-- What is read waits for values of the parameters. -/
structure Engine.Delays {k : Nat} (e : Engine) (parameter : Fin k → String) : Prop where
  later : e.immediate = false
  standard : e.context.IsStandard
  deferred : ∀ i, e.context.resolve (parameter i) = .ok .deferred

section Reading

open Parse

variable {k : Nat} {parameter : Fin k → String} {e : Engine} {r : Reader} {text : List Char}
  {fuel : Nat} {i : Fin k}

/-- A reference to a parameter is read and waits. -/
theorem ensures_readModifier_reference {post : Modifier × Bool → Reader → Prop}
    (he : e.Delays parameter) (hword : IsWord (parameter i))
    (h : r.Faces e ((Piece.reference i).source parameter ++ text))
    (hpost : ∀ m r', m.Asks (parameter i) → r'.Faces e text → post (m, true) r') :
    Ensures anyFault (readModifier fuel .inline) r post := by
  cases fuel with
  | zero => exact trivial
  | succ fuel =>
    have hfound : (e.context.configuration.modifiers .inline).findLongest?
        (fun name => name.toList.isPrefixOf
          (Builtin.reference.name.toList ++ ((parameter i).toList ++ ']' :: text)))
          = some Builtin.reference := by
      show e.context.configuration.inlines.findLongest? _ = _
      rw [he.standard.inlines]
      exact Builtin.findLongest?_reference _
    have hargs : ∀ r', r'.Faces e ((parameter i).toList ++ ']' :: text) →
        Ensures anyFault readArguments r' fun arguments r'' =>
          List.Forall₂ Argument.Spells arguments [parameter i] ∧
            r''.Faces e (headEnding false ++ text) :=
      fun r' h' => ensures_readArguments_written he.standard (.inr rfl) []
        (fun _ hc => by cases hc) (written_plain hword.2) hword.1 .nil h'
    rw [Piece.source_reference] at h
    have hhead := ensures_readHead_named hfound hargs
      (fun arguments hread => ensures_expandArguments_spelled hread e) h
    refine ensures_readModifier_whole skipsBody_reference rfl hhead fun span arguments hvalues => ?_
    obtain ⟨a, rfl, ha⟩ : ∃ a, arguments = [a] ∧ a.value = some (parameter i) := by
      simpa [List.map_eq_singleton_iff] using hvalues
    have hm : (Modifier.ofHead Builtin.reference span [a]).Asks (parameter i) :=
      .reference span span ha
    refine (hm.ensures_expandRead hword.1 he.later (he.deferred i)).mono ?_
    rintro ⟨m, complete⟩ _ ⟨rfl, rfl⟩
    exact fun r' h' => hpost _ r' hm h'

theorem ensures_readModifier_print {post : Modifier × Bool → Reader → Prop}
    (he : e.Delays parameter) (hword : IsWord (parameter i))
    (h : r.Faces e ((Piece.print i).source parameter ++ text))
    (hpost : ∀ m r', m.Asks (parameter i) → r'.Faces e text → post (m, true) r') :
    Ensures anyFault (readModifier fuel .inline) r post := by
  cases fuel with
  | zero => exact trivial
  | succ fuel =>
    have hfound : (e.context.configuration.modifiers .inline).findLongest?
        (fun name => name.toList.isPrefixOf (Builtin.print.name.toList ++
          (" $(".toList ++ ((parameter i).toList ++ ')' :: ']' :: text))))
        = some Builtin.print := by
      show e.context.configuration.inlines.findLongest? _ = _
      rw [he.standard.inlines]
      exact Builtin.findLongest?_print _
    have hargs : ∀ r', r'.Faces e (" $(".toList ++ ((parameter i).toList ++ ')' :: ']' :: text)) →
        Ensures anyFault readArguments r' fun arguments r'' =>
          (∃ inside part inner, inner.Spells (parameter i) ∧ arguments
            = [⟨inside, [.interpolation part Builtin.interpolator inner none], none⟩]) ∧
          r''.Faces e (headEnding false ++ text) :=
      fun r' h' => ensures_readArguments_interpolation he.standard (written_plain hword.2) h'
    have hvalues : ∀ arguments, (∃ inside part inner, inner.Spells (parameter i) ∧ arguments
          = [⟨inside, [.interpolation part Builtin.interpolator inner none], none⟩]) →
        Ensures anyFault (expandArguments arguments) e fun arguments' e' => e' = e ∧
          ∃ inside part inner, inner.value = some (parameter i) ∧ arguments'
            = [⟨inside, [.interpolation part Builtin.interpolator inner none], none⟩] := by
      rintro _ ⟨inside, part, inner, hinner, rfl⟩
      rw [expandArguments, ensures_bind, expandArgument, ensures_bind, expandEntities, ensures_bind]
      refine ensures_expandInterpolation (expandArgument_spelled hinner e) (he.deferred i)
        (fun h => by cases h) (fun _ h => by cases h) fun _ => ?_
      simp only [ensures_pure, ensures_bind, expandArguments]
      exact ⟨trivial, inside, part, _, rfl, rfl⟩
    rw [Piece.source_print] at h
    have hhead := ensures_readHead_named hfound hargs hvalues h
    refine ensures_readModifier_whole skipsBody_print rfl hhead ?_
    rintro span _ ⟨inside, part, inner, hinner, rfl⟩
    have hm : (Modifier.ofHead Builtin.print span
        [⟨inside, [.interpolation part Builtin.interpolator inner none], none⟩]).Asks
          (parameter i) := .print span span inside part hinner
    refine (hm.ensures_expandRead hword.1 he.later (he.deferred i)).mono ?_
    rintro ⟨m, complete⟩ _ ⟨rfl, rfl⟩
    exact fun r' h' => hpost _ r' hm h'

theorem ensures_readParagraph_plain {post : List Node → Reader → Prop} {before : List Node}
    {c : Char} (hc : isPlain c = true) (h : r.Faces e (c :: text))
    (hpost : ∀ fuel' span r', r'.Faces e text →
      Ensures anyFault (readParagraph fuel' (appendText c.toString span before)) r' post) :
    Ensures anyFault (readParagraph fuel before) r post := by
  have hsigns : c ∉ ['[', '\\', '\n'] := by
    simp only [List.mem_cons, List.not_mem_nil, or_false, not_or]
    exact ⟨ne_of_isPlain hc rfl, ne_of_isPlain hc rfl, ne_of_isPlain hc rfl⟩
  refine ensures_readParagraph_fueled h.rest fun more => ?_
  exact stands_readParagraph_character hsigns h.standsAt fun r' h' => hpost _ _ r' h'.toFaces

theorem ensures_readParagraph_run {post : List Node → Reader → Prop} {run : List Char}
    (hrun : ∀ c ∈ run, isPlain c = true) : ∀ {fuel : Nat} {before : List Node} {r : Reader}
      {s : (Fin k → String) → String}, r.Faces e (run ++ text) →
      (∀ value, Yields parameter value before.reverse (s value)) →
      (∀ fuel' nodes r', r'.Faces e text →
        (∀ value, Yields parameter value nodes.reverse (s value ++ String.ofList run)) →
        Ensures anyFault (readParagraph fuel' nodes) r' post) →
      Ensures anyFault (readParagraph fuel before) r post := by
  induction run with
  | nil =>
    intro fuel before r s h hbefore hpost
    exact hpost fuel before r h fun value => by simpa using hbefore value
  | cons c rest ih =>
    intro fuel before r s h hbefore hpost
    refine ensures_readParagraph_plain (hrun c List.mem_cons_self) h fun fuel' span r' h' => ?_
    refine ih (fun x hx => hrun x (List.mem_cons_of_mem _ hx)) h'
      (fun value => (hbefore value).appendText c.toString span)
      fun fuel'' nodes r'' h'' hnodes => ?_
    refine hpost fuel'' nodes r'' h'' fun value => ?_
    have hyields := hnodes value
    rw [String.append_assoc] at hyields
    simpa [String.ofList_cons] using hyields

theorem ensures_readParagraph_modifier {post : List Node → Reader → Prop} {before : List Node}
    {source : List Char} (h : r.Faces e ('[' :: '/' :: source))
    (hread : ∀ fuel' (post' : Modifier × Bool → Reader → Prop),
      (∀ m r', m.Asks (parameter i) → r'.Faces e text → post' (m, true) r') →
      Ensures anyFault (readModifier fuel' .inline) r post')
    (hpost : ∀ fuel' m r', m.Asks (parameter i) → r'.Faces e text →
      Ensures anyFault (readParagraph fuel' (.modifier m :: before)) r' post) :
    Ensures anyFault (readParagraph fuel before) r post := by
  refine ensures_readParagraph_fueled h.rest fun more => ensures_readParagraph_more h.rest ?_
  refine stands_readInline_modifier h.standsAt (hread _ _ fun m r' hm h' => ?_)
  rw [if_pos rfl]
  exact hpost _ m r' hm h'

/-- **The pieces of a body** are read as nodes that yield, under all values, what is meant. -/
theorem ensures_readParagraph_pieces {post : List Node → Reader → Prop}
    (he : e.Delays parameter) (hword : ∀ i, IsWord (parameter i)) {pieces : List (Piece k)}
    (hpieces : ∀ run, .plain run ∈ pieces → IsWord run) : ∀ {fuel : Nat} {before : List Node}
      {r : Reader} {s : (Fin k → String) → String},
      r.Faces e (pieces.flatMap (Piece.source parameter) ++ text) →
      (∀ value, Yields parameter value before.reverse (s value)) →
      (∀ fuel' nodes r', r'.Faces e text →
        (∀ value, Yields parameter value nodes.reverse
          (s value ++ String.join (pieces.map (Piece.instantiate value)))) →
        Ensures anyFault (readParagraph fuel' nodes) r' post) →
      Ensures anyFault (readParagraph fuel before) r post := by
  induction pieces with
  | nil =>
    intro fuel before r s h hbefore hpost
    exact hpost fuel before r h fun value => by simpa using hbefore value
  | cons piece rest ih =>
    intro fuel before r s h hbefore hpost
    have hrest : ∀ run, .plain run ∈ rest → IsWord run :=
      fun run hrun => hpieces run (List.mem_cons_of_mem _ hrun)
    rw [List.flatMap_cons, List.append_assoc] at h
    -- behind a piece that yields what it stands for
    have hgo : ∀ fuel' nodes r',
        r'.Faces e (rest.flatMap (Piece.source parameter) ++ text) →
        (∀ value, Yields parameter value nodes.reverse (s value ++ piece.instantiate value)) →
        Ensures anyFault (readParagraph fuel' nodes) r' post := by
      intro fuel' nodes r' h' hnodes
      refine ih hrest h' hnodes fun fuel'' nodes' r'' h'' hnodes' => ?_
      refine hpost fuel'' nodes' r'' h'' fun value => ?_
      rw [List.map_cons, String.join_cons, ← String.append_assoc]
      exact hnodes' value
    cases piece with
    | plain run =>
      refine ensures_readParagraph_run (hpieces run List.mem_cons_self).2 h hbefore
        fun fuel' nodes r' h' hnodes => hgo fuel' nodes r' h' fun value => ?_
      simpa [Piece.instantiate] using hnodes value
    | reference i =>
      refine ensures_readParagraph_modifier h
        (fun fuel' post' hpost' => ensures_readModifier_reference he (hword i) h hpost')
        fun fuel' m r' hm h' => hgo fuel' _ r' h' fun value => (hbefore value).appendModifier i hm
    | print i =>
      refine ensures_readParagraph_modifier h
        (fun fuel' post' hpost' => ensures_readModifier_print he (hword i) h hpost')
        fun fuel' m r' hm h' => hgo fuel' _ r' h' fun value => (hbefore value).appendModifier i hm

/-- What a paragraph ends before: the end of the source, or a blank line and a block. -/
inductive EndsParagraph : List Char → List Char → Prop
  | source : EndsParagraph [] []
  | block (rest : List Char) : EndsParagraph ('\n' :: '\n' :: '[' :: rest) ('[' :: rest)

theorem ensures_readParagraph_end {post : List Node → Reader → Prop} {before : List Node}
    {rest : List Char} (hend : EndsParagraph text rest) (h : r.Faces e text)
    (hpost : ∀ r', r'.Faces e rest → post before.reverse r') :
    Ensures anyFault (readParagraph fuel before) r post := by
  cases hend with
  | source =>
    cases fuel with
    | zero => exact trivial
    | succ fuel =>
      refine (ensures_readParagraph_done h.rest).mono ?_
      rintro _ _ ⟨rfl, rfl⟩
      exact hpost _ h
  | block rest =>
    refine ensures_readParagraph_fueled h.rest fun more => ensures_readParagraph_more h.rest ?_
    refine stands_readInline h.standsAt (by decide) (by decide) ?_
    have hline : r.StandsAt e r.cursor.position ('\n' :: ([] ++ '\n' :: '[' :: rest)) := h.standsAt
    refine stands_readCharacter_line hline (List.forall_mem_nil _) (fun c hc => ?_)
      (fun hnil => by cases hnil) fun _ r₁ h₁ => ?_
    · rw [← Option.some.inj hc]
      decide
    -- a blank line
    rw [ensures_bind]
    refine (stands_accept .newline h₁).mono ?_
    rintro _ r₂ ⟨rfl, h₂⟩
    rw [if_pos rfl, ensures_bind]
    exact (stands_skipLines_silent h₂ (Nat.le_refl _)).mono fun _ r₃ h₃ => hpost r₃ h₃.toFaces

/-- Where a body starts there is no block and no group. -/
theorem Piece.source_start (parameter : Fin k → String) {pieces : List (Piece k)}
    (hne : pieces ≠ []) (hpieces : ∀ run, .plain run ∈ pieces → IsWord run) :
    ∃ c rest, pieces.flatMap (Piece.source parameter) = c :: rest ∧
      (isPlain c = true ∨ c = '[' ∧ ∃ rest', rest = '/' :: rest') := by
  cases pieces with
  | nil => exact absurd rfl hne
  | cons piece others =>
    rw [List.flatMap_cons]
    cases piece with
    | plain run =>
      obtain ⟨hrun, hplain⟩ := hpieces run List.mem_cons_self
      obtain ⟨c, rest, hcs⟩ := List.exists_cons_of_ne_nil (by simpa using hrun : run.toList ≠ [])
      refine ⟨c, rest ++ others.flatMap (Piece.source parameter), ?_, .inl ?_⟩
      · show run.toList ++ _ = _
        rw [hcs]
        rfl
      · exact hplain c (hcs ▸ List.mem_cons_self)
    | reference i =>
      rw [Piece.source_reference]
      exact ⟨'[', _, rfl, .inr ⟨rfl, _, rfl⟩⟩
    | print i =>
      rw [Piece.source_print]
      exact ⟨'[', _, rfl, .inr ⟨rfl, _, rfl⟩⟩

/-- **The paragraph of a body** is read as nodes that yield what is meant. -/
theorem ensures_readBlock_pieces {post : List Node → Reader → Prop} (he : e.Delays parameter)
    (hword : ∀ i, IsWord (parameter i)) {pieces : List (Piece k)} (hne : pieces ≠ [])
    (hpieces : ∀ run, .plain run ∈ pieces → IsWord run) {rest : List Char}
    (hend : EndsParagraph text rest)
    (h : r.Faces e (pieces.flatMap (Piece.source parameter) ++ text))
    (hpost : ∀ span nodes r', r'.Faces e rest → (∀ value, Yields parameter value nodes
      (String.join (pieces.map (Piece.instantiate value)))) → post [.paragraph span nodes] r') :
    Ensures anyFault (readBlock fuel) r post := by
  obtain ⟨c, others, hsource, hstart⟩ := Piece.source_start parameter hne hpieces
  have hother : ∀ mark ∈ [Mark.blockOpen, .systemOpen, .groupOpen],
      mark.text.toList.isPrefixOf (pieces.flatMap (Piece.source parameter) ++ text) = false := by
    rw [hsource]
    rcases hstart with hc | ⟨rfl, others', rfl⟩
    · exact fun mark _ => Mark.not_isPrefixOf_plain hc mark _
    · simp only [List.forall_mem_cons]
      exact ⟨rfl, rfl, rfl, List.forall_mem_nil _⟩
  cases fuel with
  | zero => exact trivial
  | succ fuel =>
    refine stands_readBlock_paragraph h.standsAt hother fun r₁ h₁ => ?_
    refine ensures_readParagraph_pieces he hword hpieces h₁.toFaces (fun value => .nil)
      fun fuel' nodes r₂ h₂ hnodes => ?_
    refine ensures_readParagraph_end hend h₂ fun r₃ h₃ => ensures_spanFromAny fun span => ?_
    exact hpost span nodes.reverse r₃ h₃ fun value => by simpa using hnodes value

end Reading

end MacroMarkup
