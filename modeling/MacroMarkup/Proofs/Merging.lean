import Mathlib.Data.List.Sort
import MacroMarkup.Proofs.Overlay
import MacroMarkup.Proofs.Reopening

/-!
# Merging back what was recorded

What a module records are the definitions that are visible behind its body and were not
before.  Merged into the registries before, with replacement, they give every name the
definition that it has behind the body, and what is reported on the way are the names that
stood for something else.

* `Registries.registration`: the registration that a name goes back to; two names stand for
  the same definition if they go back to the same one.
* `DistinctNames`: a list in which each name is defined once, as in all that is recorded
  (`distinctNames_added`).
* `registration_mergeInto`: what a name goes back to behind a merge;
  `mergeInto_eq_of_visible`: nothing happens if everything is visible already.
* `clashes_mergeInto`: the names that a merge reports.
* `merge_again`: **a second merge of what was recorded does nothing**; `get?_merge_of_has`: **a
  merge without replacement keeps every visible name.**
* `merging_back_reproduces`: **merging back reproduces the registries**, a second merge does
  nothing, and one without replacement hides nothing.
-/

namespace MacroMarkup

/-- The registration that a name goes back to. -/
def Registry.registration (r : Registry Definition) (name : String) : Option Nat :=
  (r.get? name).map Definition.stamp

def Registries.registration (r : Registries) (kind : MacroKind) (name : String) : Option Nat :=
  (r.of kind).registration name

def DistinctNames (ds : List Definition) : Prop := (ds.map Definition.name).Nodup

namespace Registry

variable {r : Registry Definition} {name : String}

theorem registration_eq_none_iff : r.registration name = none ↔ name ∉ r.names := by
  rw [mem_names_iff, has, registration, Option.map_eq_none_iff, Option.isSome_iff_ne_none,
    not_not]

theorem registration_set (d : Definition) :
    (r.set d).registration name = if d.name = name then some d.stamp else r.registration name := by
  rw [registration, get?_set]
  by_cases hname : d.name = name
  · exact (congrArg (Option.map _) (if_pos hname)).trans (if_pos hname).symm
  · exact (congrArg (Option.map _) (if_neg hname)).trans (if_neg hname).symm

theorem mem_definitions_of_get? {d : Definition} (h : r.get? name = some d) :
    d ∈ r.definitions := by
  rw [mem_definitions, name_of_get? h]
  exact h

theorem definitions_names : r.definitions.map Definition.name = r.names := by
  have hnames : ∀ names : List String, (∀ name ∈ names, name ∈ r.names) →
      (names.filterMap r.get?).map Definition.name = names := by
    intro names hvisible
    induction names with
    | nil => rfl
    | cons name rest ih =>
      obtain ⟨hname, hrest⟩ := List.forall_mem_cons.mp hvisible
      rw [mem_names_iff, has, Option.isSome_iff_exists] at hname
      obtain ⟨d, hd⟩ := hname
      have hdname : d.name = name := name_of_get? hd
      rw [List.filterMap_cons_some hd, List.map_cons, ih hrest, hdname]
  exact hnames r.names fun _ h => h

theorem distinctNames_definitions : DistinctNames r.definitions := by
  rw [DistinctNames, definitions_names]
  have hne : ∀ a b : String, a < b → a ≠ b := by
    rintro a _ hlt rfl
    exact String.lt_irrefl a hlt
  exact r.pairwise_names.imp (hne _ _)

end Registry

namespace Registries

variable {replace : Bool} {r now earlier : Registry Definition} {d : Definition}
  {ds : List Definition} {name : String}

/-! ### What is recorded -/

theorem mem_added_iff : d ∈ added now earlier ↔
    now.get? d.name = some d ∧ earlier.registration d.name ≠ some d.stamp := by
  rw [added, List.mem_filter, Registry.mem_definitions]
  refine and_congr Iff.rfl ?_
  rw [Registry.registration]
  cases earlier.get? d.name with
  | none => simp
  | some old => simp

theorem distinctNames_added : DistinctNames (added now earlier) :=
  Registry.distinctNames_definitions.sublist (List.filter_sublist.map _)

/-! ### What a merge does -/

theorem get?_mergeInto_of_forall_ne (h : ∀ d ∈ ds, d.name ≠ name) :
    (mergeInto replace r ds).1.get? name = r.get? name := by
  rcases get?_mergeInto name ds r with hkept | ⟨d, hd, hname, -⟩
  · exact hkept
  · exact absurd hname (h d hd)

/-- Behind a merge with replacement the name of each definition goes back to it. -/
theorem registration_mergeInto (h : DistinctNames ds) (hd : d ∈ ds) :
    (mergeInto true r ds).1.registration d.name = some d.stamp := by
  induction ds generalizing r with
  | nil => cases hd
  | cons first rest ih =>
    obtain ⟨hfirst, hrest⟩ := List.nodup_cons.mp h
    have hother : ∀ d ∈ rest, d.name ≠ first.name := by
      intro d hd heq
      exact hfirst (heq ▸ List.mem_map_of_mem hd)
    rcases List.mem_cons.mp hd with rfl | hd
    · -- the merge of the others does not touch its name
      have hkept : ∀ r : Registry Definition, r.registration d.name = some d.stamp →
          (mergeInto true r rest).1.registration d.name = some d.stamp := by
        intro r hr
        rwa [Registry.registration, get?_mergeInto_of_forall_ne hother]
      have hset : (r.set d).registration d.name = some d.stamp := by
        rw [Registry.registration_set, if_pos rfl]
      rw [mergeInto]
      split
      · exact hkept _ hset
      · rename_i existing hexisting
        split
        · rename_i hsame
          refine hkept r ?_
          rw [Registry.registration, hexisting, Option.map_some, hsame]
        · exact hkept _ hset
    · rw [mergeInto]
      split
      · exact ih hrest hd
      · split
        · exact ih hrest hd
        · exact ih hrest hd

/-- Definitions that are all visible leave everything as it is, and none of their names is
reported. -/
theorem mergeInto_eq_of_visible (h : ∀ d ∈ ds, r.registration d.name = some d.stamp) :
    mergeInto replace r ds = (r, []) := by
  induction ds with
  | nil => rfl
  | cons d rest ih =>
    obtain ⟨hd, hrest⟩ := List.forall_mem_cons.mp h
    obtain ⟨existing, hexisting, hsame⟩ := Option.map_eq_some_iff.mp hd
    rw [mergeInto, hexisting]
    simp only [hsame, if_true]
    exact ih hrest

/-- **A second merge with replacement does nothing.** -/
theorem mergeInto_again (h : DistinctNames ds) :
    mergeInto true (mergeInto true r ds).1 ds = ((mergeInto true r ds).1, []) :=
  mergeInto_eq_of_visible fun _ hd => registration_mergeInto h hd

/-- The names that a merge reports are those that are visible and go back to another
registration, in the order of the list. -/
theorem clashes_mergeInto (h : DistinctNames ds) :
    (mergeInto replace r ds).2 = (ds.filter fun d =>
      r.has d.name && decide (r.registration d.name ≠ some d.stamp)).map Definition.name := by
  induction ds generalizing r with
  | nil => rfl
  | cons d rest ih =>
    obtain ⟨hd, hrest⟩ := List.nodup_cons.mp h
    -- what is registered under the first name does not matter for the others
    have hset : ∀ e ∈ rest, (r.set d).get? e.name = r.get? e.name := by
      intro e he
      have hne : d.name ≠ e.name := fun heq => hd (heq ▸ List.mem_map_of_mem he)
      rw [Registry.get?_set]
      exact if_neg hne
    have hfilter : (rest.filter fun e =>
        (r.set d).has e.name && decide ((r.set d).registration e.name ≠ some e.stamp))
          = rest.filter fun e => r.has e.name && decide (r.registration e.name ≠ some e.stamp) := by
      refine List.filter_congr fun e he => ?_
      rw [Registry.has, Registry.registration, hset e he, Registry.has, Registry.registration]
    rw [mergeInto]
    cases hexisting : r.get? d.name with
    | none =>
      rw [List.filter_cons_of_neg (by simp [Registry.has, hexisting]), ← hfilter]
      exact ih hrest
    | some existing =>
      by_cases hsame : existing.stamp = d.stamp
      · rw [List.filter_cons_of_neg (by simp [Registry.registration, hexisting, hsame])]
        simp only [hsame, if_true]
        exact ih hrest
      · rw [List.filter_cons_of_pos
          (by simp [Registry.has, Registry.registration, hexisting, hsame])]
        simp only [hsame, if_false, List.map_cons]
        cases replace with
        | false => exact congrArg (d.name :: ·) (ih hrest)
        | true => exact congrArg (d.name :: ·) ((ih hrest).trans (congrArg _ hfilter))

/-! ### Merging back -/

section MergingBack

variable (hvisible : ∀ name ∈ earlier.names, name ∈ now.names)
include hvisible

/-- **Merging back gives every name what it stands for now.** -/
theorem registration_merge_added (name : String) :
    (mergeInto true earlier (added now earlier)).1.registration name = now.registration name := by
  by_cases hadded : ∃ d ∈ added now earlier, d.name = name
  · obtain ⟨d, hd, rfl⟩ := hadded
    rw [registration_mergeInto distinctNames_added hd, Registry.registration,
      (mem_added_iff.mp hd).1, Option.map_some]
  · have hother : ∀ d ∈ added now earlier, d.name ≠ name := by
      intro d hd hname
      exact hadded ⟨d, hd, hname⟩
    rw [Registry.registration, get?_mergeInto_of_forall_ne hother]
    show earlier.registration name = _
    cases hnow : now.get? name with
    | none =>
      have hnow' : now.registration name = none := by rw [Registry.registration, hnow]; rfl
      rw [hnow', Registry.registration_eq_none_iff]
      exact fun hname => Registry.registration_eq_none_iff.mp hnow' (hvisible name hname)
    | some d =>
      have hname : d.name = name := Registry.name_of_get? hnow
      by_contra hdiffers
      refine hother d (mem_added_iff.mpr ⟨hname ▸ hnow, ?_⟩) hname
      rw [hname]
      intro hsame
      refine hdiffers (hsame.trans ?_)
      rw [Registry.registration, hnow, Option.map_some]

/-- **What is reported on the way** are the names that stood for another definition. -/
theorem clashes_merge_added :
    (mergeInto true earlier (added now earlier)).2 =
      earlier.names.filter fun name =>
        decide (earlier.registration name ≠ now.registration name) := by
  rw [clashes_mergeInto distinctNames_added]
  have hrises : ((added now earlier).map Definition.name).Pairwise (· < ·) := by
    have hnames := now.pairwise_names
    rw [← Registry.definitions_names] at hnames
    exact hnames.sublist (List.filter_sublist.map _)
  refine (hrises.sublist (List.filter_sublist.map _)).eq_of_mem_iff
    (earlier.pairwise_names.sublist List.filter_sublist) fun name => ?_
  simp only [List.mem_map, List.mem_filter, mem_added_iff, Bool.and_eq_true, decide_eq_true_eq]
  constructor
  · rintro ⟨d, ⟨⟨hnow, hnew⟩, hhas, -⟩, rfl⟩
    refine ⟨Registry.mem_names_iff.mpr hhas, ?_⟩
    rwa [Registry.registration.eq_1 now, hnow, Option.map_some]
  · rintro ⟨hname, hdiffers⟩
    obtain ⟨d, hd⟩ := Option.isSome_iff_exists.mp (Registry.mem_names_iff.mp (hvisible name hname))
    have hdname : d.name = name := Registry.name_of_get? hd
    have hnew : earlier.registration d.name ≠ some d.stamp := by
      rw [hdname]
      rwa [Registry.registration.eq_1 now, hd, Option.map_some] at hdiffers
    exact ⟨d, ⟨⟨hdname ▸ hd, hnew⟩, hdname ▸ Registry.mem_names_iff.mp hname, hnew⟩, hdname⟩

/-- **Merging back gives every name the definition itself**, where a registration goes with one
definition only. -/
theorem get?_merge_added (hidentify : ∀ x ∈ earlier.definitions, ∀ y ∈ now.definitions,
    x.stamp = y.stamp → x = y) (name : String) :
    (mergeInto true earlier (added now earlier)).1.get? name = now.get? name := by
  have hsame := registration_merge_added hvisible name
  rcases get?_mergeInto name (added now earlier) earlier with hkept | ⟨d, hd, hname, hfound⟩
  · rw [Registry.registration, Registry.registration, hkept] at hsame
    rw [hkept]
    cases hearlier : earlier.get? name with
    | none =>
      rw [hearlier] at hsame
      exact (Option.map_eq_none_iff.mp hsame.symm).symm
    | some x =>
      rw [hearlier] at hsame
      obtain ⟨y, hy, hstamp⟩ := Option.map_eq_some_iff.mp hsame.symm
      rw [hy, hidentify x (Registry.mem_definitions_of_get? hearlier) y
        (Registry.mem_definitions_of_get? hy) hstamp.symm]
  · rw [hfound, ← hname]
    exact (mem_added_iff.mp hd).1.symm

end MergingBack

/-- The names of a kind that are visible before and go back to another registration now. -/
def rebound (earlier now : Registries) (kind : MacroKind) : List String :=
  (earlier.of kind).names.filter fun name =>
    decide (earlier.registration kind name ≠ now.registration kind name)

theorem rebound_rises (earlier now : Registries) (kind : MacroKind) :
    (rebound earlier now kind).Pairwise (· < ·) :=
  (earlier.of kind).pairwise_names.sublist List.filter_sublist

/-- The report of a merge: the heads of the blocks, then those of the inline modifiers. -/
theorem clashes_merge (replace : Bool) (r : Registries) (record : ModuleRecord) :
    (r.merge replace record).2 =
      (mergeInto replace (r.of .block) (record.of .block)).2.map MacroKind.block.headOf ++
        (mergeInto replace (r.of .inline) (record.of .inline)).2.map MacroKind.inline.headOf := rfl

theorem merge_eq_of_mergeInto {replace : Bool} {r : Registries} {record : ModuleRecord}
    (h : ∀ kind, mergeInto replace (r.of kind) (record.of kind) = (r.of kind, [])) :
    r.merge replace record = (r, []) := by
  have hblocks : mergeInto replace r.blocks record.blocks = (r.blocks, []) := h .block
  have hinlines : mergeInto replace r.inlines record.inlines = (r.inlines, []) := h .inline
  rw [merge, hblocks, hinlines]
  rfl

/-- **A second merge of what was recorded does nothing**, if both replace. -/
theorem merge_again (before later r : Registries) :
    let first := (r.merge true (later.addedSince before)).1
    first.merge true (later.addedSince before) = (first, []) := by
  intro first
  refine merge_eq_of_mergeInto fun kind => ?_
  have hfirst : first.of kind
      = (mergeInto true (r.of kind) ((later.addedSince before).of kind)).1 :=
    of_merge
  rw [hfirst]
  apply mergeInto_again
  rw [of_addedSince]
  exact distinctNames_added

/-- **A merge without replacement keeps every visible name.** -/
theorem get?_merge_of_has (record : ModuleRecord) (r : Registries) {kind : MacroKind}
    {name : String} (hname : (r.of kind).has name = true) :
    ((r.merge false record).1.of kind).get? name = (r.of kind).get? name := by
  obtain ⟨d, hd⟩ := Option.isSome_iff_exists.mp hname
  rw [of_merge, hd]
  exact get?_mergeInto_of_some (record.of kind) hd

/-- **Merging back reproduces the registries.**  If what was visible before still is, then
merging what was recorded into the registries before gives every name the registration that it
has now, and the definition itself where registrations tell definitions apart.  The report names
what stood for something else, the blocks first and each kind in the order of the names.  Behind
a merge with replacement a second one of what was recorded does nothing and reports nothing, and
a merge without replacement never changes what a visible name stands for. -/
theorem merging_back_reproduces (earlier now : Registries)
    (hvisible : ∀ kind, ∀ name ∈ (earlier.of kind).names, name ∈ (now.of kind).names) :
    let merged := earlier.merge true (now.addedSince earlier)
    (∀ kind name, merged.1.registration kind name = now.registration kind name) ∧
    ((∀ kind, ∀ x ∈ (earlier.of kind).definitions, ∀ y ∈ (now.of kind).definitions,
        x.stamp = y.stamp → x = y) →
      ∀ kind name, (merged.1.of kind).get? name = (now.of kind).get? name) ∧
    (merged.2 = (rebound earlier now .block).map MacroKind.block.headOf ++
        (rebound earlier now .inline).map MacroKind.inline.headOf ∧
      ∀ kind, (rebound earlier now kind).Pairwise (· < ·)) ∧
    (∀ before later r : Registries,
      let first := (r.merge true (later.addedSince before)).1
      first.merge true (later.addedSince before) = (first, [])) ∧
    ∀ (record : ModuleRecord) (r : Registries) (kind : MacroKind) (name : String),
      (r.of kind).has name = true →
      ((r.merge false record).1.of kind).get? name = (r.of kind).get? name := by
  intro merged
  have hof : ∀ kind, merged.1.of kind
      = (mergeInto true (earlier.of kind) (added (now.of kind) (earlier.of kind))).1 := by
    intro kind
    rw [of_merge, of_addedSince]
  have hregistration : ∀ kind name,
      merged.1.registration kind name = now.registration kind name := by
    intro kind name
    rw [registration, hof, registration_merge_added (hvisible kind), registration]
  have hdefinition : (∀ kind, ∀ x ∈ (earlier.of kind).definitions,
      ∀ y ∈ (now.of kind).definitions, x.stamp = y.stamp → x = y) →
      ∀ kind name, (merged.1.of kind).get? name = (now.of kind).get? name := by
    intro hidentify kind name
    rw [hof, get?_merge_added (hvisible kind) (hidentify kind)]
  have hclashes : merged.2 = (rebound earlier now .block).map MacroKind.block.headOf ++
      (rebound earlier now .inline).map MacroKind.inline.headOf := by
    have hrebound : ∀ kind, (mergeInto true (earlier.of kind)
        ((now.addedSince earlier).of kind)).2 = rebound earlier now kind := by
      intro kind
      rw [of_addedSince]
      exact clashes_merge_added (hvisible kind)
    rw [← hrebound .block, ← hrebound .inline]
    exact clashes_merge true earlier (now.addedSince earlier)
  exact ⟨hregistration, hdefinition, ⟨hclashes, rebound_rises earlier now⟩, merge_again,
    fun record r _ _ hname => get?_merge_of_has record r hname⟩

/-- A block is defined anew in a layer above, another one is new there, and an inline modifier
is defined anew in its place. -/
theorem merging_back_reproduces_layered :
    let named (stamp : Nat) (name : String) : Definition :=
      { Definition.plain name .block .normal with stamp := stamp }
    let earlier : Registries :=
      ⟨(Registry.empty.set (named 1 "a")).set (named 2 "b"), Registry.empty.set (named 3 "i")⟩
    let now : Registries :=
      ⟨(earlier.blocks.derive.set (named 4 "b")).set (named 5 "c"),
        earlier.inlines.set (named 6 "i")⟩
    let merged := earlier.merge true (now.addedSince earlier)
    (∀ kind, ∀ name ∈ (earlier.of kind).names, name ∈ (now.of kind).names) ∧
      (∀ kind, ∀ x ∈ (earlier.of kind).definitions, ∀ y ∈ (now.of kind).definitions,
        x.stamp = y.stamp → x = y) ∧
      (∀ kind name, (merged.1.of kind).get? name = (now.of kind).get? name) ∧
      merged.2 = ["[.b]", "[/i]"] := by
  intro named earlier now merged
  have hvisible : ∀ kind, ∀ name ∈ (earlier.of kind).names, name ∈ (now.of kind).names := by
    intro kind
    cases kind with
    | block => decide +kernel
    | inline => decide +kernel
  have hidentify : ∀ kind, ∀ x ∈ (earlier.of kind).definitions, ∀ y ∈ (now.of kind).definitions,
      x.stamp = y.stamp → x = y := by
    intro kind
    cases kind with
    | block =>
      have hearlier : (earlier.of .block).definitions = [named 1 "a", named 2 "b"] := by cbv
      have hnow : (now.of .block).definitions = [named 1 "a", named 4 "b", named 5 "c"] := by
        cbv
      simp [hearlier, hnow, named]
    | inline =>
      have hearlier : (earlier.of .inline).definitions = [named 3 "i"] := by cbv
      have hnow : (now.of .inline).definitions = [named 6 "i"] := by cbv
      simp [hearlier, hnow, named]
  have h := merging_back_reproduces earlier now hvisible
  refine ⟨hvisible, hidentify, h.2.1 hidentify, ?_⟩
  rw [h.2.2.1.1]
  decide +kernel

end Registries

end MacroMarkup
