import MacroMarkup.Proofs.Visible

/-!
# What a look-up finds

Putting an entry into a registry changes what one name stands for and nothing else, wherever
the entry is sorted in.  The two indexes of a layer hold the same entries, so that the longest
name that passes a test is found as every other one.

* `Registry.get?_set`, `Layer.get?_erase`: what a look-up finds behind a change.
* `Registry.mem_names_iff`, `Registry.mem_definitions`: the names and the definitions that are
  visible are those that are found.
* `Layer.Indexed`, `Registry.Indexed`: the two indexes of each layer agree; every change keeps
  this.
* `Registry.findLongest?_spec`: the longest visible name that passes a test, or none does;
  `Registry.get?_of_findLongest?` says that it is what it stands for.
* `Registries.get?_mergeInto`: what is found in a registry into which a module was merged.
* `Configuration.get?_set`: the same for a definition that is registered under its kind.
-/

namespace MacroMarkup

namespace Layer

variable {α : Type} [Named α]

theorem find?_bindIn (x : α) (name : String) (xs : List α) :
    (bindIn x xs).find? (fun y => Named.name y == name)
      = if Named.name x = name then some x else xs.find? fun y => Named.name y == name := by
  induction xs with
  | nil => by_cases h : Named.name x = name <;> simp [bindIn, h]
  | cons y ys ih =>
    unfold bindIn
    split
    · rename_i hsame
      by_cases h : Named.name x = name <;> simp [hsame, h]
    · rename_i hother
      by_cases h : Named.name y = name
      · have hx : Named.name x ≠ name := fun hx => hother (h.trans hx.symm)
        simp [h, hx]
      · simp only [List.find?_cons, beq_eq_false_iff_ne.mpr h, ih]

theorem get?_insert (x : α) (layer : Layer α) (name : String) :
    get? (insert x layer) name = if Named.name x = name then some x else get? layer name :=
  find?_bindIn x name layer.byName

theorem get?_set (layer : Layer α) (x : α) (name : String) :
    get? (set layer x) name = if Named.name x = name then some x else get? layer name := by
  unfold set
  split
  · exact get?_insert x _ name
  · exact get?_insert x layer name

theorem get?_erase (layer : Layer α) (name other : String) :
    get? (erase layer name) other
      = if name = other then none else get? layer other := by
  rw [get?, erase, without, List.find?_filter]
  by_cases hname : name = other
  · subst hname
    rw [if_pos rfl]
    exact List.find?_eq_none.mpr fun x _ => by simp
  · rw [if_neg hname, get?]
    congr 1
    funext x
    by_cases hx : Named.name x = other
    · simp [hx, Ne.symm hname]
    · simp [hx]

end Layer

/-- Behind a change the name of the entry stands for it, and all other names for what they
stood for. -/
theorem Registry.get?_set {α : Type} [Named α] (r : Registry α) (x : α) (name : String) :
    (r.set x).get? name = if Named.name x = name then some x else r.get? name := by
  simp only [get?, set, layers, lookup, Layer.get?_set]
  split <;> rfl

namespace Registry

variable {α : Type} [Named α] {r : Registry α}

theorem name_of_get? {name : String} {x : α} (h : r.get? name = some x) : Named.name x = name := by
  have hlookup : ∀ layers : List (Layer α), lookup name layers = some x → Named.name x = name := by
    intro layers
    induction layers with
    | nil => exact fun h => by cases h
    | cons layer rest ih =>
      intro h
      rw [lookup] at h
      cases hlayer : Layer.get? layer name with
      | some y =>
        rw [hlayer] at h
        cases h
        simpa using List.find?_some hlayer
      | none =>
        rw [hlayer] at h
        exact ih h
  exact hlookup r.layers h

theorem mem_foldl_insertName {name : String} : ∀ (layers : List (Layer α)) (sorted : List String),
    name ∈ layers.foldl (fun sorted layer =>
      layer.byName.foldl (fun sorted x => insertName (Named.name x) sorted) sorted) sorted
      ↔ name ∈ sorted ∨ ∃ layer ∈ layers, ∃ x ∈ layer.byName, Named.name x = name := by
  have hentries : ∀ (entries : List α) (sorted : List String),
      name ∈ entries.foldl (fun sorted x => insertName (Named.name x) sorted) sorted
        ↔ name ∈ sorted ∨ ∃ x ∈ entries, Named.name x = name := by
    intro entries
    induction entries with
    | nil => simp
    | cons x rest ih =>
      intro sorted
      simp only [List.foldl_cons, ih, mem_insertName, List.mem_cons, exists_eq_or_imp]
      rw [or_assoc, or_left_comm, @eq_comm _ name]
  intro layers
  induction layers with
  | nil => simp
  | cons layer rest ih =>
    intro sorted
    simp only [List.foldl_cons, ih, hentries, List.mem_cons, exists_eq_or_imp, or_assoc]

theorem lookup_eq_none_iff {name : String} : ∀ {layers : List (Layer α)},
    lookup name layers = none ↔ ∀ layer ∈ layers, ∀ x ∈ layer.byName, Named.name x ≠ name := by
  intro layers
  induction layers with
  | nil => simp [lookup]
  | cons layer rest ih =>
    rw [lookup, Option.or_eq_none_iff, ih, List.forall_mem_cons]
    simp [Layer.get?]

/-- **The names are those that are found.** -/
theorem mem_names_iff {name : String} : name ∈ r.names ↔ r.has name = true := by
  rw [names, mem_foldl_insertName, has, get?, Option.isSome_iff_ne_none, ne_eq,
    lookup_eq_none_iff]
  simp

theorem mem_names_of_get? {name : String} {x : α} (h : r.get? name = some x) : name ∈ r.names :=
  mem_names_iff.mpr (by rw [has, h]; rfl)

/-- **The visible entries are those that are found by their names.** -/
theorem mem_definitions {x : α} : x ∈ r.definitions ↔ r.get? (Named.name x) = some x := by
  rw [definitions, List.mem_filterMap]
  constructor
  · rintro ⟨name, -, h⟩
    rwa [name_of_get? h]
  · exact fun h => ⟨Named.name x, mem_names_of_get? h, h⟩

end Registry

/-! ### The two indexes of a layer -/

namespace Layer

variable {α : Type} [Named α] {layer : Layer α}

/-- The two indexes hold the same entries, each name once, and the second one has them by
falling length of the names. -/
structure Indexed (layer : Layer α) : Prop where
  perm : layer.byLength.Perm layer.byName
  nodup : (layer.byName.map Named.name).Nodup
  falling : layer.byLength.Pairwise fun x y => nameLength y ≤ nameLength x

theorem indexed_empty : (empty : Layer α).Indexed := ⟨.refl _, .nil, .nil⟩

theorem without_of_missing {name : String} {xs : List α} (h : ∀ y ∈ xs, Named.name y ≠ name) :
    without name xs = xs :=
  List.filter_eq_self.mpr fun y hy => bne_iff_ne.mpr (h y hy)

theorem not_mem_names_without (name : String) (xs : List α) :
    name ∉ (without name xs).map Named.name := by
  intro h
  obtain ⟨y, hy, hname⟩ := List.mem_map.mp h
  exact bne_iff_ne.mp (List.mem_filter.mp hy).2 hname

theorem nodup_without {xs : List α} (h : (xs.map Named.name).Nodup) (name : String) :
    ((without name xs).map Named.name).Nodup :=
  h.sublist (List.filter_sublist.map _)

theorem bindIn_perm (x : α) {xs : List α} (h : (xs.map Named.name).Nodup) :
    (bindIn x xs).Perm (x :: without (Named.name x) xs) := by
  induction xs with
  | nil => exact .refl _
  | cons y ys ih =>
    obtain ⟨hy, hys⟩ := List.nodup_cons.mp h
    unfold bindIn
    split
    · rename_i hname
      have hrest : without (Named.name x) (y :: ys) = ys := by
        have hmissing : ∀ z ∈ ys, Named.name z ≠ Named.name x := by
          intro z hz heq
          exact hy (hname ▸ heq ▸ List.mem_map_of_mem hz)
        rw [without, List.filter_cons_of_neg (by simpa using hname)]
        exact without_of_missing hmissing
      rw [hrest]
    · rename_i hname
      have hrest : without (Named.name x) (y :: ys) = y :: without (Named.name x) ys :=
        List.filter_cons_of_pos (bne_iff_ne.mpr hname)
      rw [hrest]
      exact ((ih hys).cons y).trans (.swap x y _)

theorem sortIn_perm (x : α) (xs : List α) : (sortIn x xs).Perm (x :: xs) := by
  induction xs with
  | nil => exact .refl _
  | cons y ys ih =>
    unfold sortIn
    split
    · exact (ih.cons y).trans (.swap x y ys)
    · exact .refl _

theorem falling_sortIn (x : α) {xs : List α}
    (h : xs.Pairwise fun x y => nameLength y ≤ nameLength x) :
    (sortIn x xs).Pairwise fun x y => nameLength y ≤ nameLength x := by
  induction xs with
  | nil => exact List.pairwise_singleton _ x
  | cons y ys ih =>
    obtain ⟨hy, hys⟩ := List.pairwise_cons.mp h
    unfold sortIn
    split
    · rename_i hlonger
      refine List.pairwise_cons.mpr ⟨fun z hz => ?_, ih hys⟩
      rcases mem_sortIn.mp hz with rfl | hz
      · exact hlonger
      · exact hy z hz
    · rename_i hlonger
      refine List.pairwise_cons.mpr ⟨fun z hz => ?_, h⟩
      rcases List.mem_cons.mp hz with rfl | hz
      · omega
      · have := hy z hz
        omega

namespace Indexed

theorem put (h : layer.Indexed) (x : α) :
    Indexed ⟨bindIn x layer.byName, sortIn x (without (Named.name x) layer.byLength)⟩ where
  perm := by
    have hsame : (without (Named.name x) layer.byLength).Perm
        (without (Named.name x) layer.byName) := h.perm.filter _
    exact (sortIn_perm x _).trans ((hsame.cons x).trans (bindIn_perm x h.nodup).symm)
  nodup := by
    rw [((bindIn_perm x h.nodup).map Named.name).nodup_iff, List.map_cons, List.nodup_cons]
    exact ⟨not_mem_names_without _ _, nodup_without h.nodup _⟩
  falling := falling_sortIn x (h.falling.filter _)

theorem insert (h : layer.Indexed) {x : α} (hx : has layer (Named.name x) = false) :
    (Layer.insert x layer).Indexed := by
  have hmissing : ∀ y ∈ layer.byLength, Named.name y ≠ Named.name x := by
    simpa [has, get?, h.perm.mem_iff] using hx
  have hput := h.put x
  rwa [without_of_missing hmissing] at hput

theorem set (h : layer.Indexed) (x : α) : (Layer.set layer x).Indexed := by
  unfold Layer.set
  split
  · exact h.put x
  · rename_i hx
    exact h.insert (Bool.eq_false_iff.mpr hx)

theorem erase (h : layer.Indexed) (name : String) : (Layer.erase layer name).Indexed where
  perm := h.perm.filter _
  nodup := nodup_without h.nodup name
  falling := h.falling.filter _

/-- An entry is found by its name if and only if it is one of those that are tried by length. -/
theorem get?_eq_some_iff (h : layer.Indexed) {name : String} {x : α} :
    get? layer name = some x ↔ x ∈ layer.byLength ∧ Named.name x = name := by
  rw [h.perm.mem_iff]
  constructor
  · exact fun hx => ⟨List.mem_of_find?_eq_some hx, by simpa using List.find?_some hx⟩
  · rintro ⟨hx, rfl⟩
    have hnodup := h.nodup
    unfold get?
    generalize layer.byName = entries at hx hnodup
    induction entries with
    | nil => cases hx
    | cons y ys ih =>
      obtain ⟨hy, hys⟩ := List.nodup_cons.mp hnodup
      rcases List.mem_cons.mp hx with rfl | hx
      · simp
      · have hother : Named.name y ≠ Named.name x := fun heq => hy (heq ▸ List.mem_map_of_mem hx)
        rw [List.find?_cons, beq_eq_false_iff_ne.mpr hother]
        exact ih hx hys

theorem longest (h : layer.Indexed) {test : String → Bool} {x : α}
    (hx : layer.byLength.find? (fun y => test (Named.name y)) = some x) {y : α}
    (hy : y ∈ layer.byLength) (htest : test (Named.name y) = true) :
    nameLength y ≤ nameLength x := by
  obtain ⟨-, before, after, hsplit, hbefore⟩ := List.find?_eq_some_iff_append.mp hx
  have hfalling := h.falling
  rw [hsplit] at hy hfalling
  rcases List.mem_append.mp hy with hy | hy
  · have hfails := hbefore y hy
    simp [htest] at hfails
  · obtain ⟨-, hrest, -⟩ := List.pairwise_append.mp hfalling
    rcases List.mem_cons.mp hy with rfl | hy
    · exact Nat.le_refl _
    · exact (List.pairwise_cons.mp hrest).1 y hy

end Indexed

end Layer

/-! ### The longest name -/

namespace Registry

variable {α : Type} [Named α] {r : Registry α}

def Indexed (r : Registry α) : Prop := ∀ layer ∈ r.layers, Layer.Indexed layer

theorem Indexed.withTop (h : r.Indexed) {top : Layer α} (htop : top.Indexed) :
    Indexed { r with top := top } := by
  intro layer hl
  rcases List.mem_cons.mp hl with rfl | hl
  · exact htop
  · exact h layer (List.mem_cons_of_mem _ hl)

theorem Indexed.top (h : r.Indexed) : r.top.Indexed := h r.top List.mem_cons_self

theorem Indexed.set (h : r.Indexed) (x : α) : (r.set x).Indexed := h.withTop (h.top.set x)

theorem Indexed.derive (h : r.Indexed) : r.derive.Indexed := by
  intro layer hl
  rcases List.mem_cons.mp hl with rfl | hl
  · exact Layer.indexed_empty
  · exact h layer hl

theorem indexed_empty : (empty : Registry α).Indexed := by
  intro layer hl
  rw [List.mem_singleton.mp hl]
  exact Layer.indexed_empty

/-- The longest name in some layers that passes a test without effects. -/
def findLongestIn? (test : String → Bool) (layers : List (Layer α)) : Option α :=
  Id.run (findLongestInM? (fun name => pure (test name)) layers)

theorem findLongestIn?_cons (test : String → Bool) (layer : Layer α) (rest : List (Layer α)) :
    findLongestIn? test (layer :: rest) =
      longer (layer.byLength.find? fun x => test (Named.name x)) (findLongestIn? test rest) := by
  have hfind : ∀ entries : List α,
      Id.run (entries.findM? fun x => (pure (test (Named.name x)) : Id Bool))
        = entries.find? fun x => test (Named.name x) := by
    intro entries
    induction entries with
    | nil => rfl
    | cons x xs ih =>
      rw [List.find?_cons, ← ih]
      cases h : test (Named.name x) <;> simp [List.findM?, h]
  rw [← hfind]
  rfl

/-- What is visible in a layer or in those below it. -/
theorem lookup_cons_eq_some_iff {name : String} {x : α} {layer : Layer α}
    {rest : List (Layer α)} (h : layer.Indexed) :
    lookup name (layer :: rest) = some x ↔ (x ∈ layer.byLength ∧ Named.name x = name) ∨
      ((∀ y ∈ layer.byLength, Named.name y ≠ name) ∧ lookup name rest = some x) := by
  have hnone : Layer.get? layer name = none ↔ ∀ y ∈ layer.byLength, Named.name y ≠ name := by
    simp [Layer.get?, h.perm.mem_iff]
  rw [lookup, Option.or_eq_some_iff, h.get?_eq_some_iff, hnone]

/-- The longest name in some layers that passes a test: no visible one is longer. -/
structure IsLongest (test : String → Bool) (layers : List (Layer α)) (x : α) : Prop where
  visible : lookup (Named.name x) layers = some x
  passes : test (Named.name x) = true
  longest : ∀ name y, lookup name layers = some y → test name = true →
    name.toList.length ≤ Layer.nameLength x

/-- The longest name that passes in a layer and those below it is that of the layer or that of
those below, whichever is longer. -/
theorem isLongest_longer {test : String → Bool} {layer : Layer α} {rest : List (Layer α)}
    (h : layer.Indexed) (hnone : findLongestIn? test rest = none →
      ∀ name y, lookup name rest = some y → test name = false)
    (hsome : ∀ x, findLongestIn? test rest = some x → IsLongest test rest x) {x : α}
    (hx : findLongestIn? test (layer :: rest) = some x) : IsLongest test (layer :: rest) x := by
  rw [findLongestIn?_cons] at hx
  -- an entry of a lower layer is the answer only if this layer has no such name
  have hlower : ∀ y, findLongestIn? test rest = some y →
      (∀ z ∈ layer.byLength, test (Named.name z) = true →
        Layer.nameLength z < Layer.nameLength y) → IsLongest test (layer :: rest) y := by
    intro y hy hshorter
    obtain ⟨hvisible, hpasses, hlongest⟩ := hsome y hy
    refine ⟨(lookup_cons_eq_some_iff h).mpr (.inr ⟨fun z hz heq => ?_, hvisible⟩), hpasses,
      fun name z hz htest => ?_⟩
    · have hlt := hshorter z hz (heq ▸ hpasses)
      rw [Layer.nameLength, heq] at hlt
      exact Nat.lt_irrefl _ hlt
    · rcases (lookup_cons_eq_some_iff h).mp hz with ⟨hmem, rfl⟩ | ⟨-, hbelow⟩
      · exact Nat.le_of_lt (hshorter z hmem htest)
      · exact hlongest name z hbelow htest
  cases hupper : layer.byLength.find? fun x => test (Named.name x) with
  | none =>
    rw [hupper] at hx
    refine hlower x hx fun z hz htest => ?_
    exact absurd htest (List.find?_eq_none.mp hupper z hz)
  | some z =>
    rw [hupper] at hx
    -- an entry of this layer is the answer only if none below is longer
    have hthis : (∀ name y, lookup name rest = some y → test name = true →
        name.toList.length ≤ Layer.nameLength z) → IsLongest test (layer :: rest) z := by
      intro hlonger
      refine ⟨(lookup_cons_eq_some_iff h).mpr (.inl ⟨List.mem_of_find?_eq_some hupper, rfl⟩),
        by simpa using List.find?_some hupper, fun name y hy htest => ?_⟩
      rcases (lookup_cons_eq_some_iff h).mp hy with ⟨hmem, rfl⟩ | ⟨-, hbelow⟩
      · exact h.longest hupper hmem htest
      · exact hlonger name y hbelow htest
    cases hy : findLongestIn? test rest with
    | none =>
      rw [hy] at hx
      cases hx
      refine hthis fun name y hy' htest => ?_
      rw [hnone hy name y hy'] at htest
      cases htest
    | some y =>
      rw [hy, longer] at hx
      split at hx
      · rename_i hshorter
        cases hx
        refine hlower x hy fun w hw htest => ?_
        exact Nat.lt_of_le_of_lt (h.longest hupper hw htest) hshorter
      · rename_i hshorter
        cases hx
        refine hthis fun name w hw htest => ?_
        exact Nat.le_trans ((hsome y hy).longest name w hw htest) (Nat.not_lt.mp hshorter)

/-- **The longest name that passes a test**, in layers whose indexes agree: it is visible, and
nothing is found if and only if no visible name passes. -/
theorem findLongestIn?_spec {test : String → Bool} : ∀ {layers : List (Layer α)},
    (∀ layer ∈ layers, Layer.Indexed layer) →
    (findLongestIn? test layers = none →
      ∀ name y, lookup name layers = some y → test name = false) ∧
    ∀ x, findLongestIn? test layers = some x → IsLongest test layers x := by
  intro layers
  induction layers with
  | nil =>
    intro _
    refine ⟨fun _ name y hy => ?_, fun x hx => ?_⟩
    · cases hy
    · cases hx
  | cons layer rest ih =>
    intro h
    have hlayer := h layer List.mem_cons_self
    obtain ⟨hnone, hsome⟩ := ih fun l hl => h l (List.mem_cons_of_mem _ hl)
    refine ⟨fun hmissing name y hy => ?_, fun x hx => isLongest_longer hlayer hnone hsome hx⟩
    rw [findLongestIn?_cons] at hmissing
    cases hupper : layer.byLength.find? fun x => test (Named.name x) with
    | some z =>
      rw [hupper] at hmissing
      cases hrest : findLongestIn? test rest with
      | none =>
        rw [hrest] at hmissing
        cases hmissing
      | some w =>
        rw [hrest, longer] at hmissing
        split at hmissing <;> cases hmissing
    | none =>
      rw [hupper] at hmissing
      rcases (lookup_cons_eq_some_iff hlayer).mp hy with ⟨hmem, rfl⟩ | ⟨-, hbelow⟩
      · exact Bool.eq_false_iff.mpr (List.find?_eq_none.mp hupper y hmem)
      · exact hnone hmissing name y hbelow

theorem findLongest?_spec (h : r.Indexed) (test : String → Bool) :
    (r.findLongest? test = none → ∀ name y, r.get? name = some y → test name = false) ∧
    ∀ x, r.findLongest? test = some x → IsLongest test r.layers x := findLongestIn?_spec h

/-- **The longest name that passes a test is what it stands for**, if the indexes agree. -/
theorem get?_of_findLongest? {test : String → Bool} {x : α} (h : r.Indexed)
    (hx : r.findLongest? test = some x) : r.get? (Named.name x) = some x :=
  ((findLongest?_spec h test).2 x hx).visible

end Registry

/-! ### Modules that are merged into registries -/

namespace Registries

variable {replace : Bool}

/-- Behind a merge a name stands for what it stood for, or for a definition of the module. -/
theorem get?_mergeInto (name : String) : ∀ (ds : List Definition) (r : Registry Definition),
    (mergeInto replace r ds).1.get? name = r.get? name ∨
      ∃ d ∈ ds, d.name = name ∧ (mergeInto replace r ds).1.get? name = some d := by
  intro ds
  induction ds with
  | nil => exact fun r => .inl rfl
  | cons d rest ih =>
    have hkept : ∀ r, (mergeInto replace r rest).1.get? name = r.get? name ∨
        ∃ d' ∈ d :: rest, d'.name = name ∧ (mergeInto replace r rest).1.get? name = some d' :=
      fun r => (ih r).imp_right fun ⟨d', hd', h⟩ => ⟨d', List.mem_cons_of_mem _ hd', h⟩
    -- the definition is registered first, and may be hidden by a later one of the module
    have hset : ∀ r : Registry Definition,
        (mergeInto replace (r.set d) rest).1.get? name = r.get? name ∨
        ∃ d' ∈ d :: rest, d'.name = name ∧
          (mergeInto replace (r.set d) rest).1.get? name = some d' := by
      intro r
      rcases hkept (r.set d) with h | h
      · rw [Registry.get?_set] at h
        by_cases hname : d.name = name
        · exact .inr ⟨d, List.mem_cons_self, hname, h.trans (if_pos hname)⟩
        · exact .inl (h.trans (if_neg hname))
      · exact .inr h
    intro r
    rw [mergeInto]
    split
    · exact hset r
    · split
      · exact hkept r
      · cases replace with
        | false => exact hkept r
        | true => exact hset r

theorem get?_mergeInto_of_some {name : String} {x : Definition} : ∀ (ds : List Definition)
    {r : Registry Definition}, r.get? name = some x →
      (mergeInto false r ds).1.get? name = some x := by
  intro ds
  induction ds with
  | nil => exact fun h => h
  | cons d rest ih =>
    intro r h
    rw [mergeInto]
    split
    · rename_i hnone
      refine ih ?_
      rw [Registry.get?_set, if_neg, h]
      intro hname
      have hname : d.name = name := hname
      rw [hname, h] at hnone
      cases hnone
    · split
      · exact ih h
      · exact ih h

/-- A definition of the module that is merged is found by its name then, unless the name is
answered as taken. -/
theorem found_or_clashes {d : Definition} : ∀ {ds : List Definition} (r : Registry Definition),
    d ∈ ds → (∃ x, (mergeInto false r ds).1.get? d.name = some x ∧ x.stamp = d.stamp) ∨
      d.name ∈ (mergeInto false r ds).2 := by
  intro ds
  induction ds with
  | nil => exact fun r h => by cases h
  | cons d' rest ih =>
    intro r h
    rw [mergeInto]
    rcases List.mem_cons.mp h with rfl | h
    · split
      · refine .inl ⟨d, get?_mergeInto_of_some rest ?_, rfl⟩
        rw [Registry.get?_set]
        exact if_pos rfl
      · rename_i existing hexisting
        split
        · rename_i hstamp
          exact .inl ⟨existing, get?_mergeInto_of_some rest hexisting, hstamp⟩
        · exact .inr List.mem_cons_self
    · split
      · exact ih _ h
      · split
        · exact ih _ h
        · exact (ih _ h).imp_right fun hclash => List.mem_cons_of_mem _ hclash

end Registries

theorem Configuration.get?_set (c : Configuration) (d : Definition) (kind : ModifierKind)
    (name : String) :
    ((c.set d).modifiers kind).get? name =
      if d.kind = kind ∧ d.name = name then some { d with stamp := c.nextStamp }
      else (c.modifiers kind).get? name := by
  have hset : ∀ registry : Registry Definition,
      (registry.set { d with stamp := c.nextStamp }).get? name =
        if d.name = name then some { d with stamp := c.nextStamp } else registry.get? name :=
    fun registry => Registry.get?_set registry _ name
  obtain ⟨stamp, dname, dkind, slot, delaysContent, alwaysExpands, behaviour⟩ := d
  cases dkind <;> cases kind <;>
    simp [Configuration.set, stamped, modifiers, setModifiers, hset]

end MacroMarkup
