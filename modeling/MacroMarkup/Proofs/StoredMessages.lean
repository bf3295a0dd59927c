import MacroMarkup.Diagnostic.MessageJson

/-!
# Messages that are stored and read back

A message that is written to JSON and read back is the same message, however long its chain and
its lists of fixes are.  What is read fits the widths of its fields, so that whatever was read can
be written and read again.

* `Fix.Sized`, `Message.Sized`: the numbers fit their widths, along the whole chain.
* `Fix.ofJson?_toJson`, `Message.ofJson?_toJson`: reading what was written, by induction on the
  chain.
* `Fix.sized_of_ofJson?`, `Message.sized_of_nullableOfJson?`: what is read fits, by the recursion of
  the reader.
* `Message.member?_fixes`, `Message.member?_referredFrom`: the members that may be left out.
* `messages_survive_json`: **messages survive being stored.**
-/

namespace MacroMarkup

theorem Json.lt_of_natBelow? {value : Json} {limit n : Nat} (h : value.natBelow? limit = some n) :
    n < limit := by
  unfold natBelow? at h
  split at h
  · split at h
    · rename_i hlt
      exact Option.some.inj h ▸ hlt
    · cases h
  · cases h

/-! ### Fixes -/

namespace Fix

def Sized : Fix → Prop
  | insert _ position _ => position < offsetLimit
  | remove _ position length => position < offsetLimit ∧ length < offsetLimit

theorem ofJson?_toJson {fix : Fix} (h : fix.Sized) : ofJson? fix.toJson = some fix := by
  cases fix with
  | insert info position text =>
    have hposition := Json.natBelow?_nat h
    simp [toJson, ofJson?, Dict.lookup, ofFields?, Json.string?, hposition]
  | remove info position length =>
    have hposition := Json.natBelow?_nat h.1
    have hlength := Json.natBelow?_nat h.2
    simp [toJson, ofJson?, Dict.lookup, ofFields?, Json.string?, hposition, hlength]

theorem listOfJson?_toJson {fixes : List Fix} (h : ∀ fix ∈ fixes, fix.Sized) :
    listOfJson? (.arr (fixes.map toJson)) = some fixes := by
  rw [listOfJson?]
  induction fixes with
  | nil => rfl
  | cons fix rest ih =>
    obtain ⟨hfix, hrest⟩ := List.forall_mem_cons.mp h
    rw [List.map_cons, List.mapM_cons, ofJson?_toJson hfix, ih hrest]
    rfl

theorem sized_of_ofFields? {kind info position last : Json} {fix : Fix}
    (h : ofFields? kind info position last = some fix) : fix.Sized := by
  obtain ⟨text, -, h⟩ := Option.bind_eq_some_iff.mp h
  obtain ⟨place, hplace, h⟩ := Option.bind_eq_some_iff.mp h
  split at h
  · obtain ⟨content, -, h⟩ := Option.bind_eq_some_iff.mp h
    cases h
    exact Json.lt_of_natBelow? hplace
  · obtain ⟨length, hlength, h⟩ := Option.bind_eq_some_iff.mp h
    cases h
    exact ⟨Json.lt_of_natBelow? hplace, Json.lt_of_natBelow? hlength⟩
  · cases h

theorem sized_of_ofJson? {value : Json} {fix : Fix} (h : ofJson? value = some fix) :
    fix.Sized := by
  unfold ofJson? at h
  split at h
  · obtain ⟨kind, -, h⟩ := Option.bind_eq_some_iff.mp h
    obtain ⟨info, -, h⟩ := Option.bind_eq_some_iff.mp h
    obtain ⟨position, -, h⟩ := Option.bind_eq_some_iff.mp h
    split at h
    · obtain ⟨last, -, h⟩ := Option.bind_eq_some_iff.mp h
      exact sized_of_ofFields? h
    · obtain ⟨last, -, h⟩ := Option.bind_eq_some_iff.mp h
      exact sized_of_ofFields? h
    · cases h
  · exact sized_of_ofFields? h
  · cases h

theorem sized_of_listOfJson? {value : Json} {fixes : List Fix}
    (h : listOfJson? value = some fixes) : ∀ fix ∈ fixes, fix.Sized := by
  unfold listOfJson? at h
  split at h
  · rename_i items
    induction items generalizing fixes with
    | nil =>
      cases h
      exact List.forall_mem_nil _
    | cons item rest ih =>
      rw [List.mapM_cons] at h
      obtain ⟨fix, hfix, h⟩ := Option.bind_eq_some_iff.mp h
      obtain ⟨others, hothers, h⟩ := Option.bind_eq_some_iff.mp h
      cases h
      exact List.forall_mem_cons.mpr ⟨sized_of_ofJson? hfix, ih hothers⟩
  · cases h

end Fix

/-! ### Messages -/

namespace Message

/-- The offsets of the message and of its fixes fit 64 bits, and its code fits 32 bits. -/
structure Narrow (m : Message) : Prop where
  position : m.position < offsetLimit
  length : m.length < offsetLimit
  code : m.code < codeLimit
  fixes : ∀ fix ∈ m.fixes, fix.Sized

/-- The numbers of the message and of all messages that it repeats fit their widths. -/
def Sized (m : Message) : Prop := ∀ link ∈ m :: m.trail, link.Narrow

/-- The keys of the members that a message is read from. -/
def keys : List String :=
  ["severity", "position", "length", "code", "info", "fixes", "referred_from"]

variable {m : Message}

theorem referredOf?_eq (members : List (String × Json)) :
    referredOf? members = match Dict.lookup "referred_from" members with
      | some value => nullableOfJson? value
      | none => some none := by
  induction members with
  | nil => rw [referredOf?, Dict.lookup]
  | cons member rest ih =>
    obtain ⟨key, value⟩ := member
    rw [referredOf?, Dict.lookup, ih]
    split
    · rfl
    · rfl

/-- The fixes among the members of an object; a missing list is empty. -/
def fixesOf? (members : List (String × Json)) : Option (List Fix) :=
  match Dict.lookup "fixes" members with
  | some value => Fix.listOfJson? value
  | none => some []

/-- An object is read by its members: the repeated message and the fixes first. -/
theorem nullableOfJson?_obj (members : List (String × Json)) :
    nullableOfJson? (.obj members) = (do
      let referredFrom ← referredOf? members
      let fixes ← fixesOf? members
      some <$> ofFields? (← Dict.lookup "severity" members) (← Dict.lookup "position" members)
        (← Dict.lookup "length" members) (← Dict.lookup "code" members)
        (← Dict.lookup "info" members) fixes referredFrom) := by
  rw [nullableOfJson?, fixesOf?]
  cases Dict.lookup "fixes" members with
  | some value => rfl
  | none => rfl

/-- **What an object is read as depends on what stands under the keys of a message**, not on the
order of the members or on other keys. -/
theorem ofJson?_congr {members members' : List (String × Json)}
    (h : ∀ key ∈ keys, Dict.lookup key members = Dict.lookup key members') :
    ofJson? (.obj members) = ofJson? (.obj members') := by
  simp only [keys, List.forall_mem_cons] at h
  obtain ⟨hseverity, hposition, hlength, hcode, hinfo, hfixes, hreferred, -⟩ := h
  simp only [ofJson?, nullableOfJson?_obj, referredOf?_eq, fixesOf?, hseverity, hposition, hlength,
    hcode, hinfo, hfixes, hreferred]

/-! ### What is written -/

/-- The members of an object are those that a message is written with. -/
structure Spells (members : List (String × Json)) (m : Message) : Prop where
  severity : Dict.lookup "severity" members = some (.str m.severity.key)
  position : Dict.lookup "position" members = some (.nat m.position)
  length : Dict.lookup "length" members = some (.nat m.length)
  code : Dict.lookup "code" members = some (.nat m.code)
  info : Dict.lookup "info" members = some (.str m.info)
  /-- An empty list of fixes is left out. -/
  fixes : Dict.lookup "fixes" members
    = if m.fixes.isEmpty then none else some (.arr (m.fixes.map Fix.toJson))
  /-- A missing message is left out. -/
  referredFrom : Dict.lookup "referred_from" members = m.referredFrom.map toJson

/-- **A message is written as an object** with its members. -/
theorem exists_toJson (m : Message) : ∃ members, m.toJson = .obj members ∧ Spells members m := by
  obtain ⟨severity, position, length, code, info, fixes, referredFrom⟩ := m
  cases referredFrom with
  | none =>
    refine ⟨_, rfl, ?_⟩
    cases fixes with
    | nil => constructor <;> rfl
    | cons fix rest => constructor <;> rfl
  | some inner =>
    refine ⟨_, rfl, ?_⟩
    cases fixes with
    | nil => constructor <;> rfl
    | cons fix rest => constructor <;> rfl

theorem member?_fixes (m : Message) : m.toJson.member? "fixes"
    = if m.fixes.isEmpty then none else some (.arr (m.fixes.map Fix.toJson)) := by
  obtain ⟨members, hmembers, hspells⟩ := exists_toJson m
  rw [hmembers]
  exact hspells.fixes

theorem member?_referredFrom (m : Message) :
    m.toJson.member? "referred_from" = m.referredFrom.map toJson := by
  obtain ⟨members, hmembers, hspells⟩ := exists_toJson m
  rw [hmembers]
  exact hspells.referredFrom

theorem member?_fixes_eq_none_iff (m : Message) :
    m.toJson.member? "fixes" = none ↔ m.fixes = [] := by
  rw [member?_fixes, ← List.isEmpty_iff]
  split
  · next hempty => exact iff_of_true rfl hempty
  · next hsome => exact iff_of_false (fun h => by cases h) hsome

/-! ### Reading what was written -/

theorem ofFields?_of_narrow (h : m.Narrow) :
    ofFields? (.str m.severity.key) (.nat m.position) (.nat m.length) (.nat m.code) (.str m.info)
      m.fixes m.referredFrom = some m := by
  simp only [ofFields?, Severity.ofJson?, Severity.ofKey?_key, Json.natBelow?_nat h.position,
    Json.natBelow?_nat h.length, Json.natBelow?_nat h.code, Json.string?]
  cases m
  rfl

/-- A message is read from its members if the message that it repeats is. -/
theorem nullableOfJson?_of_spells {members : List (String × Json)} (h : Spells members m)
    (hm : m.Narrow)
    (hinner : ∀ inner, m.referredFrom = some inner →
      nullableOfJson? inner.toJson = some (some inner)) :
    nullableOfJson? (.obj members) = some (some m) := by
  have hreferred : referredOf? members = some m.referredFrom := by
    rw [referredOf?_eq, h.referredFrom]
    cases hcase : m.referredFrom with
    | none => rfl
    | some inner => exact hinner inner hcase
  have hfixes : fixesOf? members = some m.fixes := by
    rw [fixesOf?, h.fixes]
    cases hcase : m.fixes with
    | nil => rfl
    | cons fix rest =>
      have hlist := Fix.listOfJson?_toJson hm.fixes
      rwa [hcase] at hlist
  rw [nullableOfJson?_obj, hreferred, hfixes, h.severity, h.position, h.length, h.code, h.info]
  show some <$> ofFields? _ _ _ _ _ m.fixes m.referredFrom = _
  rw [ofFields?_of_narrow hm]
  rfl

/-- **Reading what was written**, by induction on the chain. -/
theorem nullableOfJson?_toJson : ∀ {m : Message}, m.Sized →
    nullableOfJson? m.toJson = some (some m)
  | ⟨severity, position, length, code, info, fixes, none⟩, h => by
    obtain ⟨members, hmembers, hspells⟩ :=
      exists_toJson ⟨severity, position, length, code, info, fixes, none⟩
    rw [hmembers]
    exact nullableOfJson?_of_spells hspells (h _ List.mem_cons_self) fun inner hinner => by
      cases hinner
  | ⟨severity, position, length, code, info, fixes, some inner⟩, h => by
    obtain ⟨members, hmembers, hspells⟩ :=
      exists_toJson ⟨severity, position, length, code, info, fixes, some inner⟩
    have hrest : inner.Sized := fun link hlink => h link (List.mem_cons_of_mem _ hlink)
    rw [hmembers]
    refine nullableOfJson?_of_spells hspells (h _ List.mem_cons_self) fun other hother => ?_
    cases hother
    exact nullableOfJson?_toJson hrest

theorem ofJson?_toJson (h : m.Sized) : ofJson? m.toJson = some m := by
  rw [ofJson?, nullableOfJson?_toJson h]
  rfl

/-! ### What is read -/

theorem sized_of_parts (h : m.Narrow) (hinner : ∀ inner, m.referredFrom = some inner →
    inner.Sized) : m.Sized := by
  obtain ⟨severity, position, length, code, info, fixes, referredFrom⟩ := m
  refine List.forall_mem_cons.mpr ⟨h, ?_⟩
  cases referredFrom with
  | none => exact List.forall_mem_nil _
  | some inner => exact hinner inner rfl

theorem sized_of_ofFields? {severity position length code info : Json} {fixes : List Fix}
    {referredFrom : Option Message}
    (h : ofFields? severity position length code info fixes referredFrom = some m)
    (hfixes : ∀ fix ∈ fixes, fix.Sized)
    (hinner : ∀ inner, referredFrom = some inner → inner.Sized) : m.Sized := by
  obtain ⟨grade, -, h⟩ := Option.bind_eq_some_iff.mp h
  obtain ⟨place, hplace, h⟩ := Option.bind_eq_some_iff.mp h
  obtain ⟨extent, hextent, h⟩ := Option.bind_eq_some_iff.mp h
  obtain ⟨number, hnumber, h⟩ := Option.bind_eq_some_iff.mp h
  obtain ⟨text, -, h⟩ := Option.bind_eq_some_iff.mp h
  cases h
  exact sized_of_parts ⟨Json.lt_of_natBelow? hplace, Json.lt_of_natBelow? hextent,
    Json.lt_of_natBelow? hnumber, hfixes⟩ hinner

theorem sized_of_fixesOf? {members : List (String × Json)} {fixes : List Fix}
    (h : fixesOf? members = some fixes) : ∀ fix ∈ fixes, fix.Sized := by
  unfold fixesOf? at h
  split at h
  · exact Fix.sized_of_listOfJson? h
  · cases h
    exact List.forall_mem_nil _

mutual

/-- **What is read fits**, by the recursion of the reader. -/
theorem sized_of_nullableOfJson? : ∀ (value : Json) {m : Message},
    nullableOfJson? value = some (some m) → m.Sized
  | .null, m, h => by cases h
  | .bool value, m, h => by cases h
  | .int value, m, h => by cases h
  | .decimal mantissa places, m, h => by cases h
  | .str value, m, h => by cases h
  | .arr items, m, h => by
    unfold nullableOfJson? at h
    split at h
    · cases h
    · rename_i heq
      cases heq
    · obtain ⟨read, hread, hsame⟩ := Option.map_eq_some_iff.mp h
      cases hsame
      exact sized_of_ofFields? hread (List.forall_mem_nil _) fun inner hinner => by cases hinner
    · obtain ⟨fixes, hfixes, h⟩ := Option.bind_eq_some_iff.mp h
      obtain ⟨read, hread, hsame⟩ := Option.map_eq_some_iff.mp h
      cases hsame
      exact sized_of_ofFields? hread (Fix.sized_of_listOfJson? hfixes) fun inner hinner => by
        cases hinner
    · rename_i inner heq
      obtain ⟨fixes, hfixes, h⟩ := Option.bind_eq_some_iff.mp h
      obtain ⟨referredFrom, hreferred, h⟩ := Option.bind_eq_some_iff.mp h
      obtain ⟨read, hread, hsame⟩ := Option.map_eq_some_iff.mp h
      cases hsame
      cases heq
      exact sized_of_ofFields? hread (Fix.sized_of_listOfJson? hfixes) fun other hother =>
        sized_of_nullableOfJson? inner (hother ▸ hreferred)
    · cases h
  | .obj members, m, h => by
    rw [nullableOfJson?_obj] at h
    obtain ⟨referredFrom, hreferred, h⟩ := Option.bind_eq_some_iff.mp h
    obtain ⟨fixes, hfixes, h⟩ := Option.bind_eq_some_iff.mp h
    obtain ⟨severity, -, h⟩ := Option.bind_eq_some_iff.mp h
    obtain ⟨position, -, h⟩ := Option.bind_eq_some_iff.mp h
    obtain ⟨length, -, h⟩ := Option.bind_eq_some_iff.mp h
    obtain ⟨code, -, h⟩ := Option.bind_eq_some_iff.mp h
    obtain ⟨info, -, h⟩ := Option.bind_eq_some_iff.mp h
    obtain ⟨read, hread, hsame⟩ := Option.map_eq_some_iff.mp h
    cases hsame
    refine sized_of_ofFields? hread (sized_of_fixesOf? hfixes) fun inner hinner => ?_
    exact sized_of_referredOf? members (hinner ▸ hreferred)

theorem sized_of_referredOf? : ∀ (members : List (String × Json)) {m : Message},
    referredOf? members = some (some m) → m.Sized
  | [], m, h => by cases h
  | (key, value) :: rest, m, h => by
    rw [referredOf?] at h
    split at h
    · exact sized_of_nullableOfJson? value h
    · exact sized_of_referredOf? rest h

end

theorem sized_of_ofJson? {value : Json} (h : ofJson? value = some m) : m.Sized :=
  sized_of_nullableOfJson? value (Option.join_eq_some_iff.mp h)

end Message

/-! ### Round trip -/

/-- **Messages survive being stored.**  A message whose numbers fit their widths is read back as
it was written, and so is whatever was read, from members in any order and beside any others.  The
list of fixes is left out when it is empty and the repeated message when there is none, at each
message of the chain. -/
theorem messages_survive_json :
    (∀ m : Message, m.Sized → Message.ofJson? m.toJson = some m)
      ∧ (∀ (value : Json) (m : Message), Message.ofJson? value = some m →
        Message.ofJson? m.toJson = some m)
      ∧ (∀ members members' : List (String × Json),
        (∀ key ∈ Message.keys, Dict.lookup key members = Dict.lookup key members') →
          Message.ofJson? (.obj members) = Message.ofJson? (.obj members'))
      ∧ ∀ m : Message, (m.toJson.member? "fixes" = none ↔ m.fixes = [])
        ∧ m.toJson.member? "referred_from" = m.referredFrom.map Message.toJson := by
  refine ⟨fun m h => Message.ofJson?_toJson h, fun value m h => ?_,
    fun members members' h => Message.ofJson?_congr h,
    fun m => ⟨Message.member?_fixes_eq_none_iff m, Message.member?_referredFrom m⟩⟩
  exact Message.ofJson?_toJson (Message.sized_of_ofJson? h)

/-- An error with a fix that repeats a warning. -/
def Message.chained : Message :=
  ⟨.error, 0, 5, 2, "unknown modifier 'x'", [.insert "escape" 0 "\\"],
    some ⟨.warning, 20, 1, 5, "undefined: x", [], none⟩⟩

theorem messages_survive_json_chained :
    Message.chained.Sized ∧ Message.ofJson? Message.chained.toJson = some Message.chained := by
  have hinner : (⟨.warning, 20, 1, 5, "undefined: x", [], none⟩ : Message).Narrow :=
    ⟨by decide, by decide, by decide, List.forall_mem_nil _⟩
  have houter : Message.chained.Narrow :=
    ⟨by decide, by decide, by decide, List.forall_mem_singleton.mpr (by decide : 0 < offsetLimit)⟩
  have hsized : Message.chained.Sized :=
    List.forall_mem_cons.mpr ⟨houter, List.forall_mem_singleton.mpr hinner⟩
  exact ⟨hsized, messages_survive_json.1 _ hsized⟩

end MacroMarkup
