import MacroMarkup.Proofs.Confinement
import MacroMarkup.Proofs.EscapedText
import MacroMarkup.Proofs.Fresh
import MacroMarkup.Proofs.Spelling

/-!
# Lists of arguments

Whatever the values of some arguments are, they can be written in the head of a modifier so that
they are read back: with a backslash before each character that means something in an argument,
and with colons between them.

* `writeArguments`: how a list of values is written.
* `Registry.findLongest?_of_unextended`: a name is the longest that is next if no visible name
  goes on with the text behind it.
* `stands_readEntities_value`: the loop over the characters of an argument, by induction on its
  value; nothing in it ends the argument or starts an interpolation.
* `stands_readArgumentList_values`: the loop over the arguments, by induction on their values.
* `parse_argument_list`: **lists of arguments are read as their values.**
-/

namespace MacroMarkup

/-! ### Writing -/

/-- The characters that mean something inside an argument. -/
def isArgumentSign (c : Char) : Bool := c = '\\' || c = ':' || c = ';' || c = ']' || c = '$'

def writeArgument (value : String) : String :=
  String.ofList (escapeText isArgumentSign value.toList)

def writeArguments (values : List String) : String :=
  String.intercalate Mark.separator.text (values.map writeArgument)

theorem toList_writeArgument (value : String) :
    (writeArgument value).toList = escapeText isArgumentSign value.toList := String.toList_ofList

theorem toList_writeArguments_singleton (value : String) :
    (writeArguments [value]).toList = escapeText isArgumentSign value.toList := by
  simp [writeArguments, toList_writeArgument]

theorem toList_writeArguments_cons (value next : String) (rest : List String) :
    (writeArguments (value :: next :: rest)).toList
      = escapeText isArgumentSign value.toList
        ++ ':' :: (writeArguments (next :: rest)).toList := by
  have hmark : Mark.separator.text.toList = [':'] := rfl
  simp [writeArguments, String.intercalate_cons_cons, toList_writeArgument, hmark]

/-- Behind each argument but the last one stands a colon. -/
theorem length_le_writeArguments (value : String) (rest : List String) :
    rest.length ≤ (writeArguments (value :: rest)).toList.length := by
  induction rest generalizing value with
  | nil => exact Nat.zero_le _
  | cons next rest ih =>
    rw [toList_writeArguments_cons, List.length_append]
    simp only [List.length_cons]
    have hrest := ih next
    omega

/-! ### Names -/

/-- **A name is the longest that is next** if no visible name goes on with the text behind it. -/
theorem Registry.findLongest?_of_unextended {α : Type} [Named α] {r : Registry α}
    (h : r.Indexed) {x : α} {c : Char} (hx : r.get? (Named.name x) = some x)
    (hextended : ∀ name y, r.get? name = some y →
      ¬ (Named.name x).toList ++ [c] <+: name.toList) (text : List Char) :
    r.findLongest? (fun name => name.toList.isPrefixOf ((Named.name x).toList ++ c :: text))
      = some x := by
  have hnext : (Named.name x).toList.isPrefixOf ((Named.name x).toList ++ c :: text) = true :=
    List.isPrefixOf_iff_prefix.mpr (List.prefix_append _ _)
  obtain ⟨hnone, hsome⟩ := findLongest?_spec h
    fun name => name.toList.isPrefixOf ((Named.name x).toList ++ c :: text)
  cases hfound : r.findLongest? fun name =>
      name.toList.isPrefixOf ((Named.name x).toList ++ c :: text) with
  | none => exact absurd hnext (Bool.eq_false_iff.mp (hnone hfound _ x hx))
  | some y =>
    obtain ⟨hvisible, hpasses, hlongest⟩ := hsome y hfound
    -- the name that was found is at least as long, and goes on with the text behind it
    have hlength : (Named.name x).toList.length ≤ (Named.name y).toList.length :=
      hlongest _ x hx hnext
    obtain ⟨more, hmore⟩ := List.prefix_of_prefix_length_le (List.prefix_append _ _)
      (List.isPrefixOf_iff_prefix.mp hpasses) hlength
    cases more with
    | nil =>
      rw [List.append_nil] at hmore
      have hsame : r.get? (Named.name x) = some y := (String.toList_injective hmore) ▸ hvisible
      exact hsame.symm.trans hx
    | cons c' more =>
      refine absurd ?_ (hextended _ y hvisible)
      have hbehind : (Named.name x).toList ++ c' :: more <+: (Named.name x).toList ++ c :: text :=
        hmore ▸ List.isPrefixOf_iff_prefix.mp hpasses
      obtain ⟨rfl, -⟩ := List.cons_prefix_cons.mp
        ((List.prefix_append_right_inj _).mp hbehind)
      exact ⟨more, by simpa using hmore⟩

/-! ### Reading -/

section Reading

open Parse

variable {e : Engine} {r : Reader} {position start stop : Nat} {text : List Char}
  {parts : List Entity} {content : String}

abbrev Context.InterpolatesStandard (cx : Context) : Prop :=
  cx.configuration.interpolators.All (· = Builtin.interpolator)

/-- No interpolation starts with another character than that of the language. -/
theorem stands_findInterpolator_none {c : Char} (he : e.context.InterpolatesStandard)
    (h : r.StandsAt e position (c :: text)) (hc : c ≠ '$') :
    Ensures noFault findInterpolator? r fun found r' => found = none ∧ r' = r := by
  rw [findInterpolator?, ensures_bind, ensures_configuration, h.engine]
  have hmark : Builtin.interpolator.name ≠ "" := by decide
  refine (ensures_findLongestM? he fun i hi hempty => absurd (hi ▸ hempty) hmark).mono ?_
  rintro found _ ⟨rfl, hfound⟩
  cases found with
  | none => exact ⟨rfl, rfl⟩
  | some i =>
    obtain ⟨rfl, hnext⟩ := hfound i rfl
    have hother : Builtin.interpolator.name.toList.isPrefixOf (c :: text) = false := by
      have hne : ('$' == c) = false := beq_eq_false_iff_ne.mpr hc.symm
      show List.isPrefixOf ['$', '('] (c :: text) = false
      rw [List.isPrefixOf, hne, Bool.false_and]
    rw [h.peek] at hnext
    exact absurd hnext (Bool.eq_false_iff.mp hother)

theorem stands_readEntities_other {fuel : Nat} {c : Char} {post : ArgumentText → Reader → Prop}
    (he : e.context.InterpolatesStandard) (hc : isArgumentSign c = false)
    (h : r.StandsAt e position (c :: text))
    (hread : ∀ r', r'.StandsAt e (position + 1) text → Ensures noFault (readEntities fuel none
      (appendEntityText c.toString ⟨position, position + 1⟩ parts) (position + 1)) r' post) :
    Ensures noFault (readEntities (fuel + 1) none parts stop) r post := by
  obtain ⟨hescape, hseparator, hend, hclose, hinterpolator⟩ :
      c ≠ '\\' ∧ c ≠ ':' ∧ c ≠ ';' ∧ c ≠ ']' ∧ c ≠ '$' := by
    simpa [isArgumentSign, and_assoc] using hc
  have hgoes : GoesOn none (c :: text) :=
    ⟨List.cons_ne_nil _ _, fun _ hmark => (by cases hmark),
      not_isPrefixOf_of_head rfl hseparator text, not_isPrefixOf_of_head rfl hend text,
      not_isPrefixOf_of_head rfl hclose text⟩
  exact stands_readEntities_character h hgoes hescape
    (stands_findInterpolator_none he h hinterpolator) hread

/-- **The loop over the characters of an argument**: what follows it is read behind parts that
spell its value. -/
theorem stands_readEntities_value {post : ArgumentText → Reader → Prop}
    (he : e.context.InterpolatesStandard) {behind : List Char} (value : List Char) :
    ∀ {fuel : Nat} {r : Reader} {position stop : Nat} {parts : List Entity} {content : String},
    r.StandsAt e position (escapeText isArgumentSign value ++ behind) →
    spelling? parts.reverse = some content → start ≤ stop → stop ≤ position →
    value.length + 1 ≤ fuel →
    (∀ fuel r position stop parts, Reader.StandsAt r e position behind →
      spelling? parts.reverse = some (content ++ String.ofList value) → start ≤ stop →
      stop ≤ position → Ensures noFault (readEntities (fuel + 1) none parts stop) r post) →
    Ensures noFault (readEntities fuel none parts stop) r post := by
  induction value with
  | nil =>
    intro fuel r position stop parts content h hparts hle hbehind hfuel hend
    obtain ⟨fuel, rfl⟩ : ∃ more, fuel = more + 1 := ⟨fuel - 1, by omega⟩
    exact hend fuel r position stop parts h (by simpa using hparts) hle hbehind
  | cons c rest ih =>
    intro fuel r position stop parts content h hparts hle hbehind hfuel hend
    obtain ⟨fuel, rfl⟩ : ∃ more, fuel = more + 1 := ⟨fuel - 1, by omega⟩
    have hcontent : content ++ String.ofList (c :: rest)
        = content ++ c.toString ++ String.ofList rest := by
      rw [String.append_assoc, toString_append_ofList]
    simp only [List.length_cons] at hfuel
    rw [hcontent] at hend
    cases hsign : isArgumentSign c with
    | true =>
      rw [escapeText_special hsign] at h
      refine stands_readEntities_escape h (goesOn_escape (fun _ hmark => by cases hmark) _)
        fun r₁ h₁ => ?_
      have hspelled := (spelling?_escaped c.toString ⟨position, position + 2⟩ parts).trans
        (congrArg _ hparts)
      exact ih h₁ hspelled (by omega) (Nat.le_refl _) (by omega) hend
    | false =>
      rw [escapeText_other hsign] at h
      refine stands_readEntities_other he hsign h fun r₁ h₁ => ?_
      have hspelled := (spelling?_appendEntityText c.toString ⟨position, position + 1⟩ parts).trans
        (congrArg _ hparts)
      exact ih h₁ hspelled (by omega) (Nat.le_refl _) (by omega) hend

/-- **An argument that was written** spells its value, up to where the argument ends. -/
theorem stands_readArgument_value {value : String} {behind : List Char}
    {post : Argument × Bool → Reader → Prop} (he : e.context.InterpolatesStandard)
    (h : r.StandsAt e position (escapeText isArgumentSign value.toList ++ behind))
    (hend : ∀ fuel r' behindText stop parts, Reader.StandsAt r' e behindText behind →
      position ≤ behindText →
      Ensures noFault (readEntities (fuel + 1) none parts stop) r' fun read r'' =>
        read.content = parts.reverse ∧ read.stop = stop ∧
          ∀ a : Argument, a.Spells value → post (a, read.continues) r'') :
    Ensures noFault readArgument r post := by
  have hlength := length_le_escapeText isArgumentSign value.toList
  simp only [readArgument, ensures_bind, ensures_position, ensures_get, h.rest, h.position]
  refine stands_readEntities_value he value.toList h rfl (Nat.le_refl position)
    (Nat.le_refl _) ?_ fun fuel r' behindText stop parts h' hparts hle hstop => ?_
  · rw [List.length_append]
    omega
  refine (hend fuel r' behindText stop parts h' (Nat.le_trans hle hstop)).mono ?_
  rintro ⟨_, _, continues⟩ r'' ⟨rfl, rfl, hpost⟩
  refine ensures_checked hle (hpost _ ⟨rfl, ?_⟩)
  simpa using hparts

/-- **The loop over the arguments**: each spells its value. -/
theorem stands_readArgumentList_values (he : e.context.InterpolatesStandard)
    (rest : List String) : ∀ {value : String} {fuel : Nat} {r : Reader} {position : Nat}
    {before : List Argument} {spelled : List String},
    r.StandsAt e position ((writeArguments (value :: rest)).toList ++ ';' :: text) →
    List.Forall₂ Argument.Spells before.reverse spelled → rest.length + 1 ≤ fuel →
    Ensures noFault (readArgumentList true fuel before) r fun arguments r' =>
      List.Forall₂ Argument.Spells arguments (spelled ++ value :: rest) ∧
        ∃ stop, position ≤ stop ∧ r'.StandsAt e stop (';' :: text) := by
  -- an argument behind those before it
  have snoc : ∀ {before : List Argument} {spelled : List String} {a : Argument} {value : String},
      List.Forall₂ Argument.Spells before.reverse spelled → a.Spells value →
      List.Forall₂ Argument.Spells (a :: before).reverse (spelled ++ [value]) := by
    intro before spelled a value hbefore ha
    rw [List.reverse_cons]
    exact List.rel_append hbefore (.cons ha .nil)
  induction rest with
  | nil =>
    intro value fuel r position before spelled h hbefore hfuel
    obtain ⟨fuel, rfl⟩ : ∃ more, fuel = more + 1 := ⟨fuel - 1, by omega⟩
    rw [toList_writeArguments_singleton] at h
    rw [readArgumentList, ensures_bind]
    refine stands_readArgument_value he h fun _ r' stop _ _ h' hle => ?_
    refine (stands_readEntities_headEnd (.inl rfl) h').mono ?_
    rintro _ _ ⟨rfl, rfl⟩
    refine ⟨rfl, rfl, fun a ha => ?_⟩
    simp only [Bool.false_eq_true, if_false, Bool.not_true, Bool.and_false, ensures_pure]
    exact ⟨snoc hbefore ha, stop, hle, h'⟩
  | cons next rest ih =>
    intro value fuel r position before spelled h hbefore hfuel
    obtain ⟨fuel, rfl⟩ : ∃ more, fuel = more + 1 := ⟨fuel - 1, by omega⟩
    rw [toList_writeArguments_cons, List.append_assoc, List.cons_append] at h
    rw [readArgumentList, ensures_bind]
    refine stands_readArgument_value he h fun _ r' stop _ _ h' hle => ?_
    refine (stands_readEntities_separator h').mono ?_
    rintro _ r₁ ⟨rfl, h₁⟩
    refine ⟨rfl, rfl, fun a ha => ?_⟩
    show Ensures noFault (readArgumentList true fuel (a :: before)) r₁ _
    simp only [List.length_cons] at hfuel
    refine (ih h₁ (snoc hbefore ha) (by omega)).mono ?_
    rintro arguments r₂ ⟨harguments, stop', hle', h₂⟩
    refine ⟨?_, stop', by omega, h₂⟩
    rwa [List.append_assoc] at harguments

theorem stands_readArguments_values {value : String} {rest : List String}
    (he : e.context.InterpolatesStandard)
    (h : r.StandsAt e position (':' :: ((writeArguments (value :: rest)).toList ++ ';' :: text))) :
    Ensures noFault readArguments r fun arguments r' =>
      List.Forall₂ Argument.Spells arguments (value :: rest) ∧
        ∃ stop, position ≤ stop ∧ r'.StandsAt e stop (';' :: text) := by
  have hlength := length_le_writeArguments value rest
  rw [readArguments, ensures_bind]
  refine (stands_accept .separator h).mono ?_
  rintro _ r₁ ⟨rfl, h₁⟩
  rw [Bool.not_true, if_neg Bool.false_ne_true]
  have h₁ : r₁.StandsAt e (position + 1)
      ((writeArguments (value :: rest)).toList ++ ';' :: text) := h₁
  simp only [ensures_bind, ensures_get, h₁.rest]
  refine (stands_readArgumentList_values he rest h₁ .nil ?_).mono ?_
  · rw [List.length_append]
    omega
  rintro arguments r₂ ⟨harguments, stop, hle, h₂⟩
  exact ⟨harguments, stop, Nat.le_of_add_right_le hle, h₂⟩

theorem expandRead_plain (walk : Walk) {d : Definition} (hplain : d.behaviour = .plain)
    (span head : Span) (arguments : List Argument) (hnow : e.delayDepth = 0) :
    let m : Modifier := ⟨span, head, d, arguments, [], none⟩
    expandRead walk m d.behaviour.lifecycle.idle e = .ok ((m, true), e) := by
  obtain ⟨context, emitted, referring, delayDepth, refusals, losses, anticipations⟩ := e
  obtain ⟨stamp, name, kind, slot, delaysContent, alwaysExpands, behaviour⟩ := d
  obtain rfl : delayDepth = 0 := hnow
  obtain rfl : behaviour = .plain := hplain
  rfl

/-- **A plain modifier whose head says that there is no body** stays as it is, with its
evaluated arguments. -/
theorem stands_readModifier_ended (fuel : Nat) {kind : ModifierKind} {d : Definition}
    {source : List Char} {read evaluated : List Argument → Prop} (hnow : e.delayDepth = 0)
    (hnamed : (e.context.configuration.modifiers kind).All fun x => Named.name x ≠ "")
    (hname : d.name ≠ "") (hplain : d.behaviour = .plain)
    (hfound : (e.context.configuration.modifiers kind).findLongest?
      (fun name => name.toList.isPrefixOf (d.name.toList ++ source)) = some d)
    (hargs : ∀ position r', Reader.StandsAt r' e position source →
      Ensures noFault readArguments r' fun arguments r'' => read arguments ∧
        ∃ stop, position ≤ stop ∧ r''.StandsAt e stop (headEnding true ++ text))
    (hvalues : ∀ arguments, read arguments →
      Ensures noFault (expandArguments arguments) e fun arguments' e' =>
        e' = e ∧ evaluated arguments')
    (h : r.StandsAt e position (kind.opening.text.toList ++ (d.name.toList ++ source))) :
    Ensures noFault (readModifier (fuel + 2) kind) r fun answer r' =>
      answer.2 = true ∧ answer.1.definition = d ∧ evaluated answer.1.arguments ∧
        ∃ stop, position ≤ stop ∧ r'.StandsAt e stop text := by
  have hskips : d.behaviour.lifecycle.SkipsBody := by
    rw [hplain]
    exact ⟨fun _ _ => rfl, fun _ => rfl⟩
  refine stands_readModifier hskips ?_
  refine (stands_readHead hnamed hname hfound hargs hvalues h).mono ?_
  rintro _ r₂ ⟨stop, arguments, hle, h₂, rfl, harguments⟩
  refine ⟨_, _, _, rfl, ?_⟩
  -- the head says that there is no body
  have hwhole : Head.isWhole ⟨.ofHead d ⟨position, stop⟩ arguments, true⟩ = true :=
    Bool.or_true _
  rw [readBody, hwhole, if_pos rfl, ensures_pure, wholeSpan, hwhole, if_pos rfl, ensures_pure,
    Reader.behindBody_inBody, h₂.engine]
  refine (ensures_of_eq (expandRead_plain _ hplain _ _ arguments hnow)).mpr ?_
  exact ⟨rfl, rfl, harguments, stop, hle, ⟨h₂.rest, rfl, h₂.ungrouped⟩, h₂.position⟩

/-- **A plain modifier with the arguments that were written** stays as it is. -/
theorem stands_readBlock_arguments (fuel : Nat) {d : Definition} {value : String}
    {rest : List String} (hnow : e.delayDepth = 0) (he : e.context.InterpolatesStandard)
    (hnamed : (e.context.configuration.modifiers .block).All fun x => Named.name x ≠ "")
    (hname : d.name ≠ "") (hplain : d.behaviour = .plain)
    (hfound : ∀ text, (e.context.configuration.modifiers .block).findLongest?
      (fun name => name.toList.isPrefixOf (d.name.toList ++ ':' :: text)) = some d)
    (h : r.StandsAt e position ("[.".toList ++ (d.name.toList ++
      ':' :: ((writeArguments (value :: rest)).toList ++ [';', ']'])))) :
    Ensures noFault (readBlock (fuel + 3)) r fun nodes r' =>
      r'.cursor.rest = [] ∧ r'.engine = e ∧ ∃ m, nodes = [.modifier m] ∧ m.definition = d ∧
        m.arguments.map Argument.value = (value :: rest).map some := by
  refine stands_readBlock_modifier .block (by decide) h fun r₁ h₁ => ?_
  have hargs : ∀ position r', Reader.StandsAt r' e position
        (':' :: ((writeArguments (value :: rest)).toList ++ [';', ']'])) →
      Ensures noFault readArguments r' fun arguments r'' =>
        List.Forall₂ Argument.Spells arguments (value :: rest) ∧
          ∃ stop, position ≤ stop ∧ r''.StandsAt e stop (headEnding true ++ []) :=
    fun position r' h' => stands_readArguments_values he h'
  have hvalues : ∀ arguments, List.Forall₂ Argument.Spells arguments (value :: rest) →
      Ensures noFault (expandArguments arguments) e fun arguments' e' =>
        e' = e ∧ arguments'.map Argument.value = (value :: rest).map some :=
    fun arguments hread => ensures_expandArguments_spelled hread e
  have hhead : r₁.StandsAt e position (ModifierKind.block.opening.text.toList ++ _) := h₁
  refine (stands_readModifier_ended fuel hnow hnamed hname hplain (hfound _) hargs hvalues
    hhead).mono ?_
  rintro ⟨m, _⟩ r₂ ⟨-, hdefinition, harguments, stop, -, h₂⟩
  exact ⟨h₂.rest, h₂.engine, m, rfl, hdefinition, harguments⟩

end Reading

/-- **Lists of arguments are read as their values.**  Let a plain block modifier be registered, and
let no registered name start with its name and a colon, or be empty, as the reader must not look for
an empty text.  Then its head with any values, each written with a backslash before each backslash,
colon, semicolon, closing bracket and dollar sign, is read without messages as that modifier, and
its arguments have just these values. -/
theorem parse_argument_list (cx : Context) (d : Definition) (values : List String)
    (hvalues : values ≠ []) (hindexed : cx.configuration.blocks.Indexed)
    (hnamed : cx.configuration.blocks.All fun x => Named.name x ≠ "")
    (hd : cx.configuration.blocks.get? d.name = some d) (hplain : d.behaviour = .plain)
    (hextended : ∀ name x, cx.configuration.blocks.get? name = some x →
      ¬ (d.name ++ ":").toList <+: name.toList)
    (hinterpolators : cx.configuration.interpolators.All (· = Builtin.interpolator)) :
    ∃ doc m, cx.parse ("[." ++ d.name ++ ":" ++ writeArguments values ++ ";]") = .ok doc ∧
      doc.messages = [] ∧ doc.content = [.modifier m] ∧ m.definition = d ∧
      m.arguments.map Argument.value = values.map some := by
  obtain ⟨value, rest, rfl⟩ := List.exists_cons_of_ne_nil hvalues
  have hname : d.name ≠ "" := hnamed.of_get? hd
  have hsource : ("[." ++ d.name ++ ":" ++ writeArguments (value :: rest) ++ ";]").toList
      = "[.".toList ++ (d.name.toList ++
        ':' :: ((writeArguments (value :: rest)).toList ++ [';', ']'])) := by
    simp [String.toList_append]
  have hstarts : ∀ c, ("[." ++ d.name ++ ":" ++ writeArguments (value :: rest) ++
      ";]").toList.head? = some c → isSpacing c = false := by
    intro c hc
    rw [hsource] at hc
    rw [← Option.some.inj hc]
    decide
  have hfound : ∀ text, cx.configuration.blocks.findLongest?
      (fun name => name.toList.isPrefixOf (d.name.toList ++ ':' :: text)) = some d :=
    Registry.findLongest?_of_unextended hindexed hd fun name x hx => by
      have hlonger := hextended name x hx
      rwa [String.toList_append] at hlonger
  obtain ⟨doc, e, hdoc, hmessages, rfl, m, hcontent, hm⟩ := parse_of_block
    (fun nodes e => e = .start cx ∧ ∃ m, nodes = [.modifier m] ∧ m.definition = d ∧
      m.arguments.map Argument.value = (value :: rest).map some)
    (by rw [hsource]; exact List.cons_ne_nil _ _) hstarts fun r h => by
      rw [hsource] at h
      exact stands_readBlock_arguments _ rfl hinterpolators hnamed hname hplain hfound h
  exact ⟨doc, m, hdoc, hmessages, hcontent, hm⟩

theorem Registries.Indexed.registerAll (ds : List Definition) : ∀ {c : Configuration},
    c.registries.Indexed → (ds.foldl Configuration.set c).registries.Indexed := by
  induction ds with
  | nil => exact fun h => h
  | cons d rest ih => exact fun h => ih h.register

theorem Configuration.registries_setInterpolator (c : Configuration) (i : Interpolator) :
    (c.setInterpolator i).registries = c.registries := rfl

theorem Configuration.registries_addInitializer (c : Configuration) (x : Initializer) :
    (c.addInitializer x).registries = c.registries := by
  unfold addInitializer
  split
  · rfl
  · rfl

theorem Builtin.indexed_configuration : configuration.registries.Indexed := by
  have hempty : Configuration.empty.registries.Indexed := by
    intro kind
    cases kind <;> exact Registry.indexed_empty
  rw [configuration, Configuration.registries_addInitializer,
    Configuration.registries_setInterpolator]
  exact hempty.registerAll definitions

/-- An empty argument, one with a line break, one with blanks before it, and one with all that
means something. -/
theorem parse_argument_list_note :
    ∃ cx d doc m, Context.start (Builtin.configuration.set (.plain "note" .block .normal)) .empty
        = .ok cx ∧ d.name = "note" ∧ d.behaviour = .plain ∧
      cx.configuration.blocks.get? d.name = some d ∧
      cx.parse "[.note::\n:  a:[.note\\:\\$(x)\\;\\]\\\\;]" = .ok doc ∧ doc.messages = [] ∧
      doc.content = [.modifier m] ∧ m.definition = d ∧
      m.arguments.map Argument.value
        = [some "", some "\n", some "  a", some "[.note:$(x);]\\"] := by
  obtain ⟨cx, hcx, hconfiguration⟩ : ∃ cx,
      Context.start (Builtin.configuration.set (.plain "note" .block .normal)) .empty = .ok cx ∧
      cx.configuration = Builtin.configuration.set (.plain "note" .block .normal) := ⟨_, rfl, rfl⟩
  obtain ⟨d, hd, hname, hplain⟩ : ∃ d, cx.configuration.blocks.get? "note" = some d ∧
      d.name = "note" ∧ d.behaviour = .plain := by
    rw [hconfiguration]
    exact ⟨_, rfl, rfl, rfl⟩
  -- what every registered name is like
  have hall : cx.configuration.All fun x =>
      x.name ≠ "" ∧ ¬ ("note" ++ ":").toList <+: x.name.toList := by
    have hnames : ∀ x ∈ Builtin.definitions,
        x.name ≠ "" ∧ ¬ ("note" ++ ":").toList <+: x.name.toList := by decide
    rw [hconfiguration]
    have hnote : "note" ≠ "" ∧ ¬ ("note" ++ ":").toList <+: "note".toList := by decide
    exact (Builtin.all_configuration fun x hx _ => hnames x hx).set fun _ => hnote
  have hindexed : cx.configuration.blocks.Indexed := by
    have hset : (Builtin.configuration.set (.plain "note" .block .normal)).registries.Indexed :=
      Builtin.indexed_configuration.register
    rw [hconfiguration]
    exact hset .block
  have hextended : ∀ name x, cx.configuration.blocks.get? name = some x →
      ¬ (d.name ++ ":").toList <+: name.toList := by
    intro name x hx
    rw [hname, ← Registry.name_of_get? hx]
    exact (hall.blocks.of_get? hx).2
  have hinterpolators : cx.configuration.interpolators.All (· = Builtin.interpolator) := by
    rw [hconfiguration]
    exact Registry.All.set (Registry.all_empty) rfl
  obtain ⟨doc, m, hdoc, hrest⟩ := parse_argument_list cx d ["", "\n", "  a", "[.note:$(x);]\\"]
    (by decide) hindexed (hall.blocks.mono fun _ hx => hx.1) (hname ▸ hd) hplain hextended
    hinterpolators
  rw [hname] at hdoc
  exact ⟨cx, d, doc, m, hcx, hname, hplain, hname ▸ hd, hdoc, hrest⟩

end MacroMarkup
