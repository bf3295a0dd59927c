import MacroMarkup.Proofs.ArgumentList
import MacroMarkup.Settings

/-!
# Names from settings

A name that settings may list is found again in a document: no visible name goes on with the
semicolon behind it, so it is the longest that is next, whatever else is registered.

* `Configuration.Legible`: no registered name is empty or has a semicolon in it, and the indexes of
  the registries agree.  `Legible.set`, `Builtin.legible_configuration`.
* `parse_ended_block`, `parse_ended_inline`: in such a configuration, the head of a plain modifier
  that says that there is no body.
* `Settings.lastSlot?`: the slot type that a name is listed with last.
* `Settings.register_keeps`: what one registration keeps, a list of them keeps.
  `Settings.get?_register_of_listed`: the last entry of a name stays, by induction on the list.
* `Settings.apply_ne_none_iff`: settings are refused just if some name cannot be used.
* `settings_names_are_usable`: **every accepted name is usable.**
-/

namespace MacroMarkup

/-! ### Legible configurations -/

/-- The name stands before a semicolon without running into it. -/
def Definition.EndsBeforeSemicolon (d : Definition) : Prop :=
  d.name ≠ "" ∧ ';' ∉ d.name.toList

/-- A registered name is found where it stands before a semicolon. -/
structure Configuration.Legible (c : Configuration) : Prop where
  /-- The two indexes of each registry agree. -/
  indexed : c.registries.Indexed
  /-- No registered name is empty or has a semicolon in it. -/
  names : c.All Definition.EndsBeforeSemicolon

namespace Configuration

variable {c : Configuration}

theorem Legible.set (h : c.Legible) {d : Definition} (hd : d.EndsBeforeSemicolon) :
    (c.set d).Legible := ⟨h.indexed.register, h.names.set fun _ => hd⟩

theorem Legible.derive (h : c.Legible) : c.derive.Legible where
  indexed kind := by
    cases kind with
    | block => exact (h.indexed .block).derive
    | inline => exact (h.indexed .inline).derive
  names := ⟨h.names.blocks.derive, h.names.inlines.derive, h.names.systems.derive,
    h.names.interpolators.derive⟩

/-- How deep generated content may nest has nothing to do with names. -/
theorem Legible.limit (h : c.Legible) (limit : Nat) :
    ({ c with depthLimit := limit } : Configuration).Legible :=
  ⟨h.indexed, h.names.blocks, h.names.inlines, h.names.systems, h.names.interpolators⟩

theorem Legible.registry_indexed (h : c.Legible) (kind : MacroKind) :
    (c.modifiers kind.modifierKind).Indexed := by
  cases kind with
  | block => exact h.indexed .block
  | inline => exact h.indexed .inline

theorem Legible.registry_names (h : c.Legible) (kind : MacroKind) :
    (c.modifiers kind.modifierKind).All Definition.EndsBeforeSemicolon := by
  cases kind with
  | block => exact h.names.blocks
  | inline => exact h.names.inlines

/-- A registered name is the longest that is next where a semicolon stands behind it. -/
theorem Legible.findLongest? (h : c.Legible) {kind : MacroKind} {d : Definition}
    (hd : (c.modifiers kind.modifierKind).get? d.name = some d) (text : List Char) :
    (c.modifiers kind.modifierKind).findLongest?
      (fun name => name.toList.isPrefixOf (d.name.toList ++ ';' :: text)) = some d := by
  refine Registry.findLongest?_of_unextended (h.registry_indexed kind) hd ?_ text
  intro name x hx hextended
  have hends := ((h.registry_names kind).of_get? hx).2
  have hsame : x.name = name := Registry.name_of_get? hx
  rw [hsame] at hends
  exact hends (hextended.subset (List.mem_append_right _ List.mem_cons_self))

end Configuration

theorem Builtin.legible_configuration : Builtin.configuration.Legible where
  indexed := Builtin.indexed_configuration
  names := by
    have hnames : ∀ d ∈ Builtin.definitions, d.name ≠ "" ∧ ';' ∉ d.name.toList := by decide
    exact Builtin.all_configuration fun d hd _ => hnames d hd

/-! ### Heads without a body -/

section Reading

open Parse

variable {e : Engine} {r : Reader} {position : Nat} {text : List Char} {d : Definition}

/-- A plain modifier of which nothing but the name is given. -/
theorem stands_readModifier_bare (kind : MacroKind) (fuel : Nat) (hnow : e.delayDepth = 0)
    (hc : e.context.configuration.Legible) (hplain : d.behaviour = .plain)
    (hd : (e.context.configuration.modifiers kind.modifierKind).get? d.name = some d)
    (h : r.StandsAt e position (kind.modifierKind.opening.text.toList
      ++ (d.name.toList ++ ';' :: ']' :: text))) :
    Ensures noFault (readModifier (fuel + 2) kind.modifierKind) r fun answer r' =>
      answer.2 = true ∧ answer.1.definition = d ∧ answer.1.arguments = [] ∧
        ∃ stop, position ≤ stop ∧ r'.StandsAt e stop text := by
  have hnames := hc.registry_names kind
  have hargs : ∀ position r', Reader.StandsAt r' e position (';' :: ']' :: text) →
      Ensures noFault readArguments r' fun arguments r'' => arguments = [] ∧
        ∃ stop, position ≤ stop ∧ r''.StandsAt e stop (headEnding true ++ text) := by
    intro position r' h'
    refine (stands_readArguments_none (.inl rfl) h').mono ?_
    rintro arguments r'' ⟨hnone, h''⟩
    exact ⟨hnone, position, Nat.le_refl _, h''⟩
  have hvalues : ∀ arguments : List Argument, arguments = [] →
      Ensures noFault (expandArguments arguments) e fun arguments' e' =>
        e' = e ∧ arguments' = [] := by
    rintro _ rfl
    exact ⟨rfl, rfl⟩
  exact stands_readModifier_ended fuel hnow (hnames.mono fun _ hx => hx.1) (hnames.of_get? hd).1
    hplain (hc.findLongest? hd _) hargs hvalues h

theorem stands_readBlock_bareInline (fuel : Nat) (hnow : e.delayDepth = 0)
    (hc : e.context.configuration.Legible) (hplain : d.behaviour = .plain)
    (hd : e.context.configuration.inlines.get? d.name = some d)
    (h : r.StandsAt e position ('[' :: '/' :: (d.name.toList ++ [';', ']']))) :
    Ensures noFault (readBlock (fuel + 5)) r fun nodes r' =>
      r'.cursor.rest = [] ∧ r'.engine = e ∧ ∃ span m, nodes = [.paragraph span [.modifier m]] ∧
        m.definition = d ∧ m.arguments = [] := by
  have hother : ∀ mark ∈ [Mark.blockOpen, .systemOpen, .groupOpen],
      mark.text.toList.isPrefixOf ('[' :: '/' :: (d.name.toList ++ [';', ']'])) = false := by
    simp only [List.forall_mem_cons]
    exact ⟨rfl, rfl, rfl, List.forall_mem_nil _⟩
  refine stands_readBlock_paragraph h hother fun r₁ h₁ => ?_
  refine ensures_readParagraph_more h₁.rest (stands_readInline_modifier h₁ ?_)
  refine (stands_readModifier_bare .inline fuel hnow hc hplain hd h₁).mono ?_
  rintro ⟨m, _⟩ r₂ ⟨rfl, hdefinition, harguments, stop, hle, h₂⟩
  -- nothing is left, so the paragraph ends
  rw [if_pos rfl]
  refine (ensures_readParagraph_done h₂.rest).mono ?_
  rintro _ _ ⟨rfl, rfl⟩
  refine (stands_spanFrom h₂ hle).mono ?_
  rintro span _ ⟨rfl, rfl⟩
  exact ⟨h₂.rest, h₂.engine, _, m, rfl, hdefinition, harguments⟩

end Reading

/-- **A block modifier that is named and ended** is read as it is. -/
theorem parse_ended_block {cx : Context} {d : Definition} (hc : cx.configuration.Legible)
    (hplain : d.behaviour = .plain) (hd : cx.configuration.blocks.get? d.name = some d) :
    ∃ doc m, cx.parse ("[." ++ d.name ++ ";]") = .ok doc ∧ doc.messages = [] ∧
      doc.content = [.modifier m] ∧ m.definition = d ∧ m.arguments = [] := by
  have hsource : ("[." ++ d.name ++ ";]").toList = '[' :: '.' :: (d.name.toList ++ [';', ']']) := by
    simp [String.toList_append]
  obtain ⟨doc, e, hdoc, hmessages, rfl, m, hm⟩ := parse_of_block
    (fun nodes e => e = .start cx ∧ ∃ m, nodes = [.modifier m] ∧ m.definition = d ∧
      m.arguments = [])
    (by rw [hsource]; exact List.cons_ne_nil _ _)
    (by rw [hsource]; rintro c ⟨⟩; rfl) fun r h => by
      rw [hsource] at h
      refine stands_readBlock_modifier .block (by decide) h fun r₁ h₁ => ?_
      have hd₁ : ((Engine.start cx).context.configuration.modifiers
        MacroKind.block.modifierKind).get? d.name = some d := hd
      refine (stands_readModifier_bare .block _ rfl hc hplain hd₁ h₁).mono ?_
      rintro ⟨m, _⟩ r₂ ⟨-, hdefinition, harguments, stop, -, h₂⟩
      exact ⟨h₂.rest, h₂.engine, m, rfl, hdefinition, harguments⟩
  exact ⟨doc, m, hdoc, hmessages, hm⟩

/-- **An inline modifier that is named and ended** is read as it is, in a paragraph of its own. -/
theorem parse_ended_inline {cx : Context} {d : Definition} (hc : cx.configuration.Legible)
    (hplain : d.behaviour = .plain) (hd : cx.configuration.inlines.get? d.name = some d) :
    ∃ doc span m, cx.parse ("[/" ++ d.name ++ ";]") = .ok doc ∧ doc.messages = [] ∧
      doc.content = [.paragraph span [.modifier m]] ∧ m.definition = d ∧ m.arguments = [] := by
  have hsource : ("[/" ++ d.name ++ ";]").toList = '[' :: '/' :: (d.name.toList ++ [';', ']']) := by
    simp [String.toList_append]
  obtain ⟨doc, e, hdoc, hmessages, rfl, span, m, hm⟩ := parse_of_block
    (fun nodes e => e = .start cx ∧ ∃ span m, nodes = [.paragraph span [.modifier m]] ∧
      m.definition = d ∧ m.arguments = [])
    (by rw [hsource]; exact List.cons_ne_nil _ _)
    (by rw [hsource]; rintro c ⟨⟩; rfl) fun r h => by
      rw [hsource] at h
      exact stands_readBlock_bareInline _ rfl hc hplain hd h
  exact ⟨doc, span, m, hdoc, hmessages, hm⟩

/-! ### Registering -/

namespace Settings

variable {c : Configuration} {kind : ModifierKind} {entries : List ModifierSetting} {name : String}

/-- The slot type that a name is listed with last. -/
def lastSlot? (name : String) (entries : List ModifierSetting) : Option SlotType :=
  (entries.reverse.find? fun entry => entry.name == name).map ModifierSetting.slot

theorem lastSlot?_cons (entry : ModifierSetting) : lastSlot? name (entry :: entries)
    = (lastSlot? name entries).or (if entry.name = name then some entry.slot else none) := by
  unfold lastSlot?
  rw [List.reverse_cons, List.find?_append, Option.map_or, List.find?_singleton]
  by_cases hname : entry.name = name
  · rw [if_pos hname, if_pos (beq_iff_eq.mpr hname)]
    rfl
  · rw [if_neg hname, if_neg (mt beq_iff_eq.mp hname)]
    rfl

theorem lastSlot?_of_unlisted (h : ∀ entry ∈ entries, entry.name ≠ name) :
    lastSlot? name entries = none := by
  rw [lastSlot?, Option.map_eq_none_iff, List.find?_eq_none]
  intro entry hentry
  rw [beq_iff_eq]
  exact h entry (List.mem_reverse.mp hentry)

theorem isReserved_iff {ch : Char} : isReserved ch = true ↔
    isWhiteSpace ch = true ∨ ch ∈ ['[', ']', ':', ';', '\\'] := by
  simp [isReserved, or_assoc]

/-- **The names that cannot be used.** -/
theorem nameError?_ne_none_iff : nameError? name ≠ none ↔ name = "" ∨
    ∃ ch ∈ name.toList, isWhiteSpace ch = true ∨ ch ∈ ['[', ']', ':', ';', '\\'] := by
  have hempty : ¬ name.isEmpty = false ↔ name = "" := by
    rw [Bool.not_eq_false, String.isEmpty_iff]
  have hsigns : (¬ ∀ ch ∈ name.toList, isReserved ch = false) ↔
      ∃ ch ∈ name.toList, isReserved ch = true := by
    simp only [not_forall, Bool.not_eq_false, exists_prop]
  rw [Ne, nameError?_eq_none_iff, not_and_or, hempty, hsigns]
  simp only [isReserved_iff]

theorem nameError?_ends (h : nameError? name = none) : name ≠ "" ∧ ';' ∉ name.toList := by
  obtain ⟨hne, hreserved⟩ := nameError?_eq_none_iff.mp h
  refine ⟨fun hempty => ?_, fun hmem => ?_⟩
  · rw [hempty] at hne
    cases hne
  · have hsign := hreserved ';' hmem
    cases hsign

theorem register_cons_of_usable {entry : ModifierSetting} (h : nameError? entry.name = none) :
    register kind c (entry :: entries)
      = register kind (c.set (.plain entry.name kind entry.slot)) entries := by
  rw [register, h]

theorem register_eq_none_iff : ∀ {c : Configuration}, (register kind c entries).1 = none ↔
    ∀ entry ∈ entries, nameError? entry.name = none := by
  induction entries with
  | nil => exact fun {c} => iff_of_true rfl (List.forall_mem_nil _)
  | cons entry rest ih =>
    intro c
    rw [List.forall_mem_cons]
    cases h : nameError? entry.name with
    | none =>
      rw [register_cons_of_usable h, ih]
      exact (and_iff_right rfl).symm
    | some reason =>
      rw [register, h]
      exact iff_of_false nofun fun hnone => nomatch hnone.1

/-- **What one registration keeps, a list of them keeps**, up to the first name that cannot be
used. -/
theorem register_keeps {P : Configuration → Prop} : ∀ {c : Configuration},
    (∀ c, ∀ entry ∈ entries, nameError? entry.name = none → P c →
      P (c.set (.plain entry.name kind entry.slot))) → P c → P (register kind c entries).2 := by
  induction entries with
  | nil => exact fun _ h => h
  | cons entry rest ih =>
    intro c hset h
    cases hname : nameError? entry.name with
    | none =>
      rw [register_cons_of_usable hname]
      exact ih (fun c other hother => hset c other (List.mem_cons_of_mem _ hother))
        (hset c entry List.mem_cons_self hname h)
    | some reason =>
      rw [register, hname]
      exact h

theorem legible_register (h : c.Legible) : (register kind c entries).2.Legible :=
  register_keeps (fun _ _ _ hname hc => hc.set (nameError?_ends hname)) h

theorem initializers_register :
    (register kind c entries).2.initializers = c.initializers := by
  refine register_keeps (P := fun c' => c'.initializers = c.initializers) ?_ rfl
  intro c' entry _ _ hc
  rw [← hc]
  cases kind <;> rfl

theorem get?_register_of_unlisted {kind' : ModifierKind}
    (h : ∀ entry ∈ entries, ¬ (kind = kind' ∧ entry.name = name)) :
    ((register kind c entries).2.modifiers kind').get? name = (c.modifiers kind').get? name := by
  refine register_keeps
    (P := fun c' => (c'.modifiers kind').get? name = (c.modifiers kind').get? name) ?_ rfl
  intro c' entry hentry _ hc
  rw [Configuration.get?_set]
  exact (if_neg (h entry hentry)).trans hc

/-- What a list of settings makes of a name: a plain modifier of the kind, with the slot type that
the name is listed with last. -/
structure Lists (entries : List ModifierSetting) (kind : ModifierKind) (name : String)
    (d : Definition) : Prop where
  called : d.name = name
  kind : d.kind = kind
  slot : lastSlot? name entries = some d.slot
  plain : d.behaviour = .plain

/-- **A name that is listed** is registered as it is listed, by induction on the list. -/
theorem get?_register_of_listed : ∀ {c : Configuration}, (register kind c entries).1 = none →
    (∃ entry ∈ entries, entry.name = name) → ∃ d,
      ((register kind c entries).2.modifiers kind).get? name = some d ∧
        Lists entries kind name d := by
  induction entries with
  | nil => exact fun _ ⟨entry, hentry, _⟩ => absurd hentry List.not_mem_nil
  | cons entry rest ih =>
    intro c h hlisted
    have husable := (register_eq_none_iff.mp h) entry List.mem_cons_self
    rw [register_cons_of_usable husable] at h ⊢
    by_cases hrest : ∃ other ∈ rest, other.name = name
    · obtain ⟨d, hd, hlists⟩ := ih h hrest
      refine ⟨d, hd, hlists.called, hlists.kind, ?_, hlists.plain⟩
      rw [lastSlot?_cons, hlists.slot, Option.some_or]
    · -- the first entry is the only one
      have hother : ∀ other ∈ rest, other.name ≠ name :=
        fun other hother hname => hrest ⟨other, hother, hname⟩
      obtain ⟨found, hmem, hname⟩ := hlisted
      have hfirst : found = entry :=
        (List.mem_cons.mp hmem).resolve_right fun hmem => hother found hmem hname
      rw [hfirst] at hname
      refine ⟨{ Definition.plain entry.name kind entry.slot with stamp := c.nextStamp }, ?_, hname,
        rfl, ?_, rfl⟩
      · rw [get?_register_of_unlisted fun other hmem hboth => hother other hmem hboth.2,
          Configuration.get?_set]
        exact if_pos ⟨rfl, hname⟩
      · rw [lastSlot?_cons, lastSlot?_of_unlisted hother, if_pos hname, Option.none_or]
        rfl

/-! ### Applying -/

theorem exists_apply_eq (s : Settings) (c : Configuration) : ∃ limit, s.apply c
    = match register .block { c with depthLimit := limit } s.blocks with
      | (some e, c) => (some e, c)
      | (none, c) => register .inline c s.inlines := by
  unfold apply
  cases s.depthLimit with
  | none => exact ⟨c.depthLimit, rfl⟩
  | some limit => exact ⟨limit, rfl⟩

/-- Settings that are applied have both lists registered, the inline modifiers behind the
blocks. -/
theorem exists_register_of_apply {s : Settings} {c' : Configuration} (h : s.apply c = (none, c')) :
    ∃ limit c₁, (register .block { c with depthLimit := limit } s.blocks).1 = none ∧
      c₁ = (register .block { c with depthLimit := limit } s.blocks).2 ∧
      (register .inline c₁ s.inlines).1 = none ∧ c' = (register .inline c₁ s.inlines).2 := by
  obtain ⟨limit, happly⟩ := exists_apply_eq s c
  rw [happly] at h
  split at h
  · cases h
  · next c₁ hblocks => exact ⟨limit, c₁, by rw [hblocks], by rw [hblocks], by rw [h], by rw [h]⟩

/-- **Settings are applied just if each name can be used.** -/
theorem apply_eq_none_iff {s : Settings} : (s.apply c).1 = none ↔
    ∀ entry ∈ s.blocks ++ s.inlines, nameError? entry.name = none := by
  obtain ⟨limit, happly⟩ := exists_apply_eq s c
  have hfirst : (register .block { c with depthLimit := limit } s.blocks).1 = none ↔
      ∀ entry ∈ s.blocks, nameError? entry.name = none := register_eq_none_iff
  rw [happly, List.forall_mem_append, ← hfirst]
  split
  · next e c₁ hblocks =>
    rw [hblocks]
    exact iff_of_false nofun fun hnone => nomatch hnone.1
  · next c₁ hblocks =>
    rw [hblocks, register_eq_none_iff]
    exact (and_iff_right rfl).symm

theorem legible_apply {s : Settings} {c' : Configuration} (hc : c.Legible)
    (h : s.apply c = (none, c')) : c'.Legible := by
  obtain ⟨limit, _, -, rfl, -, rfl⟩ := exists_register_of_apply h
  exact legible_register (legible_register (hc.limit limit))

theorem initializers_apply {s : Settings} {c' : Configuration} (h : s.apply c = (none, c')) :
    c'.initializers = c.initializers := by
  obtain ⟨limit, _, -, rfl, -, rfl⟩ := exists_register_of_apply h
  exact initializers_register.trans initializers_register

/-- A block modifier of the settings is registered; the inline ones do not touch it. -/
theorem get?_apply_block {s : Settings} {c' : Configuration} (h : s.apply c = (none, c'))
    {entry : ModifierSetting} (hentry : entry ∈ s.blocks) :
    ∃ d, c'.blocks.get? entry.name = some d ∧ Lists s.blocks .block entry.name d := by
  obtain ⟨limit, _, hblocks, rfl, -, rfl⟩ := exists_register_of_apply h
  obtain ⟨d, hd, hlists⟩ := get?_register_of_listed hblocks ⟨entry, hentry, rfl⟩
  have hother : ∀ other ∈ s.inlines,
      ¬ (ModifierKind.inline = .block ∧ other.name = entry.name) :=
    fun _ _ hboth => nomatch hboth.1
  exact ⟨d, (get?_register_of_unlisted hother).trans hd, hlists⟩

theorem get?_apply_inline {s : Settings} {c' : Configuration} (h : s.apply c = (none, c'))
    {entry : ModifierSetting} (hentry : entry ∈ s.inlines) :
    ∃ d, c'.inlines.get? entry.name = some d ∧ Lists s.inlines .inline entry.name d := by
  obtain ⟨limit, _, -, -, hinlines, rfl⟩ := exists_register_of_apply h
  exact get?_register_of_listed hinlines ⟨entry, hentry, rfl⟩

/-- **Settings are refused just if some name cannot be used.** -/
theorem apply_ne_none_iff {s : Settings} : (s.apply c).1 ≠ none ↔
    ∃ entry ∈ s.blocks ++ s.inlines, entry.name = "" ∨
      ∃ ch ∈ entry.name.toList, isWhiteSpace ch = true ∨ ch ∈ ['[', ']', ':', ';', '\\'] := by
  rw [Ne, apply_eq_none_iff]
  simp only [not_forall, exists_prop, ← nameError?_ne_none_iff, Ne]

end Settings

/-- **Every accepted name is usable.**  Settings are refused just if some name is empty or has white
space, a bracket, a colon, a semicolon or a backslash in it.  Under the configuration that settings
leave behind, a source that is just the head of a listed modifier, with a semicolon behind its name,
is read without messages as a modifier of that name and kind without arguments, with the slot type
that the name is listed with last. -/
theorem settings_names_are_usable (s : Settings) :
    ((s.apply Builtin.configuration.derive).1 ≠ none ↔
      ∃ entry ∈ s.blocks ++ s.inlines, entry.name = "" ∨
        ∃ ch ∈ entry.name.toList, isWhiteSpace ch = true ∨ ch ∈ ['[', ']', ':', ';', '\\'])
    ∧ ∀ c, s.apply Builtin.configuration.derive = (none, c) →
      (∀ bindings, ∃ cx, Context.start c bindings = .ok cx ∧ cx.configuration = c) ∧
      ∀ cx : Context, cx.configuration = c →
        (∀ entry ∈ s.blocks, ∃ doc m, cx.parse ("[." ++ entry.name ++ ";]") = .ok doc ∧
          doc.messages = [] ∧ doc.content = [.modifier m] ∧ m.arguments = [] ∧
          Settings.Lists s.blocks .block entry.name m.definition)
        ∧ ∀ entry ∈ s.inlines, ∃ doc span m, cx.parse ("[/" ++ entry.name ++ ";]") = .ok doc ∧
          doc.messages = [] ∧ doc.content = [.paragraph span [.modifier m]] ∧ m.arguments = [] ∧
          Settings.Lists s.inlines .inline entry.name m.definition := by
  refine ⟨Settings.apply_ne_none_iff, fun c h => ⟨fun bindings => ?_, ?_⟩⟩
  · have hinitializers : c.initializers = [.macros] := Settings.initializers_apply h
    rw [Context.start, hinitializers]
    exact ⟨_, rfl, rfl⟩
  · rintro cx rfl
    have hlegible := Settings.legible_apply Builtin.legible_configuration.derive h
    refine ⟨fun entry hentry => ?_, fun entry hentry => ?_⟩
    · obtain ⟨d, hd, hlists⟩ := Settings.get?_apply_block h hentry
      rw [← hlists.called] at hd
      obtain ⟨doc, m, hdoc, hmessages, hcontent, hm, harguments⟩ :=
        parse_ended_block hlegible hlists.plain hd
      rw [hlists.called] at hdoc
      exact ⟨doc, m, hdoc, hmessages, hcontent, harguments, hm ▸ hlists⟩
    · obtain ⟨d, hd, hlists⟩ := Settings.get?_apply_inline h hentry
      rw [← hlists.called] at hd
      obtain ⟨doc, span, m, hdoc, hmessages, hcontent, hm, harguments⟩ :=
        parse_ended_inline hlegible hlists.plain hd
      rw [hlists.called] at hdoc
      exact ⟨doc, span, m, hdoc, hmessages, hcontent, harguments, hm ▸ hlists⟩

/-- Names that start with each other, one of them listed twice, one that the language has already,
and an inline name that looks like the start of an interpolation. -/
def Settings.overlapping : Settings where
  depthLimit := some 0
  bindings := .empty
  blocks := [⟨"no", .normal⟩, ⟨"note", .none⟩, ⟨"raw", .none⟩, ⟨"no", .preformatted⟩]
  inlines := [⟨"$(no", .normal⟩]

theorem settings_names_are_usable_overlapping : ∃ c cx doc m,
    Settings.overlapping.apply Builtin.configuration.derive = (none, c) ∧
    Context.start c .empty = .ok cx ∧ cx.parse "[.no;]" = .ok doc ∧ doc.messages = [] ∧
    doc.content = [.modifier m] ∧ m.arguments = [] ∧ m.definition.name = "no" ∧
    m.definition.slot = .preformatted := by
  obtain ⟨c, hc⟩ : ∃ c, Settings.overlapping.apply Builtin.configuration.derive = (none, c) :=
    ⟨_, rfl⟩
  obtain ⟨hstarts, husable⟩ := (settings_names_are_usable Settings.overlapping).2 c hc
  obtain ⟨cx, hcx, hconfiguration⟩ := hstarts .empty
  obtain ⟨doc, m, hdoc, hmessages, hcontent, harguments, hlists⟩ :=
    (husable cx hconfiguration).1 ⟨"no", .normal⟩ List.mem_cons_self
  have hslot : Settings.lastSlot? "no" Settings.overlapping.blocks = some .preformatted := rfl
  exact ⟨c, cx, doc, m, hc, hcx, hdoc, hmessages, hcontent, harguments, hlists.called,
    (Option.some.inj (hslot.symm.trans hlists.slot)).symm⟩

end MacroMarkup
