import Mathlib.Data.Finmap
import MacroMarkup.Macro.Builtin
import MacroMarkup.Proofs.Shelf

/-!
# Registries are stacks of finite maps

An `Overlay` is what a registry stands for: finite maps from names, one laid over the other,
without an order of entries and without a second index.  Registries and overlays that are made
and changed by the same operations answer the same.

* `Overlay`: its operations, in the terms of finite maps.
* `Layer.Denotes`, `Registry.Denotes`: what a registry stands for.
* `Registry.firstTaken?_eq`: the name that is refused is that of the first clash.
* `Registry.pairwise_names`: the names rise.
* `Registry.AnswersAs`: all questions about a registry are answered as about an overlay.
* `registries_answer_as_overlays`: this holds after every sequence of operations.
-/

namespace MacroMarkup

/-- Finite maps from names, one laid over the other. -/
structure Overlay (α : Type) where
  /-- The map that changes touch. -/
  top : Finmap fun _ : String => α
  /-- The maps that the top one is laid over, nearest first. -/
  below : List (Finmap fun _ : String => α)

namespace Overlay

variable {α : Type}

def maps (o : Overlay α) : List (Finmap fun _ : String => α) := o.top :: o.below

def get? (o : Overlay α) (name : String) : Option α := o.maps.findSome? (·.lookup name)

def empty : Overlay α := ⟨∅, []⟩

/-- A new empty map on top; what was there stays as it is. -/
def derive (o : Overlay α) : Overlay α := ⟨∅, o.maps⟩

def erase (o : Overlay α) (name : String) : Except NameError (α × Overlay α) :=
  match o.top.lookup name with
  | none => .error (.notFound name)
  | some x => .ok (x, { o with top := o.top.erase name })

variable [Named α]

def set (o : Overlay α) (x : α) : Overlay α :=
  { o with top := o.top.insert (Named.name x) x }

/-- An overlay of one map; of entries with the same name the last one stays. -/
def ofList (xs : List α) : Overlay α := xs.foldl set empty

/-- The first entry of a list that the top map has or that repeats an earlier one. -/
def clash? (o : Overlay α) (xs : List α) : Option α :=
  (xs.zipIdx.find? fun (x, i) => (o.top.lookup (Named.name x)).isSome ||
    ((xs.take i).map Named.name).contains (Named.name x)).map Prod.fst

/-- Binds the names of new entries one by one, unless there is a clash. -/
def add (o : Overlay α) (xs : List α) : Except NameError (Overlay α) :=
  match o.clash? xs with
  | some x => .error (.duplicateName (Named.name x))
  | none => .ok (xs.foldl set o)

def shelving : Shelving α (Overlay α) := ⟨.empty, .ofList, derive, add, set, erase⟩

end Overlay

/-! ### What a registry stands for -/

section Denotes

variable {α : Type} [Named α] {layer : Layer α} {map : Finmap fun _ : String => α}

/-- The layer finds what the map binds. -/
def Layer.Denotes (layer : Layer α) (map : Finmap fun _ : String => α) : Prop :=
  ∀ name, Layer.get? layer name = map.lookup name

theorem Layer.Denotes.empty : (Layer.empty : Layer α).Denotes ∅ := fun _ => rfl

theorem Layer.Denotes.set (h : layer.Denotes map) (x : α) :
    (Layer.set layer x).Denotes (map.insert (Named.name x) x) := by
  intro name
  rw [Layer.get?_set]
  by_cases hname : Named.name x = name
  · rw [if_pos hname, ← hname, Finmap.lookup_insert]
  · rw [if_neg hname, Finmap.lookup_insert_of_ne _ (Ne.symm hname), h name]

theorem Layer.Denotes.erase (h : layer.Denotes map) (name : String) :
    (Layer.erase layer name).Denotes (map.erase name) := by
  intro other
  rw [Layer.get?_erase]
  by_cases hname : name = other
  · rw [if_pos hname, ← hname, Finmap.lookup_erase]
  · rw [if_neg hname, Finmap.lookup_erase_ne (Ne.symm hname), h other]

theorem Layer.Denotes.keys (h : layer.Denotes map) :
    map.keys = (layer.byName.map Named.name).toFinset := by
  ext name
  rw [Finmap.mem_keys, ← Finmap.lookup_isSome, ← h name, List.mem_toFinset, List.mem_map,
    Layer.get?, List.find?_isSome]
  simp

end Denotes

namespace Registry

variable {α : Type} [Named α] {r : Registry α} {o : Overlay α}

/-- The registry finds what the overlay binds, layer by layer, and both indexes of each layer
agree. -/
structure Denotes (r : Registry α) (o : Overlay α) : Prop where
  indexed : r.Indexed
  maps : r.layers.Forall₂ Layer.Denotes o.maps

namespace Denotes

theorem top (h : r.Denotes o) : r.top.Denotes o.top := (List.forall₂_cons.mp h.maps).1

theorem withTop (h : r.Denotes o) {top : Layer α} {map : Finmap fun _ : String => α}
    (hindexed : top.Indexed) (htop : top.Denotes map) :
    Denotes { r with top := top } { o with top := map } :=
  ⟨h.indexed.withTop hindexed, .cons htop (List.forall₂_cons.mp h.maps).2⟩

theorem empty : Denotes (.empty : Registry α) .empty :=
  ⟨indexed_empty, .cons Layer.Denotes.empty .nil⟩

theorem derive (h : r.Denotes o) : r.derive.Denotes o.derive :=
  ⟨h.indexed.derive, .cons Layer.Denotes.empty h.maps⟩

theorem set (h : r.Denotes o) (x : α) : (r.set x).Denotes (o.set x) :=
  h.withTop (h.indexed.top.set x) (h.top.set x)

theorem foldl_set (xs : List α) : ∀ {r : Registry α} {o : Overlay α}, r.Denotes o →
    (xs.foldl Registry.set r).Denotes (xs.foldl Overlay.set o) := by
  induction xs with
  | nil => exact fun h => h
  | cons x rest ih => exact fun h => ih (h.set x)

theorem get? (h : r.Denotes o) (name : String) : r.get? name = o.get? name := by
  rw [Registry.get?, Overlay.get?]
  have hmaps := h.maps
  generalize r.layers = layers, o.maps = maps at hmaps
  induction hmaps with
  | nil => rfl
  | @cons layer map layers maps hlayer _ ih =>
    rw [lookup, hlayer name, ih, List.findSome?_cons]
    cases map.lookup name with
    | none => rfl
    | some x => rfl

end Denotes

/-! ### The first name that is taken -/

/-- The name that is refused is that of the first entry that the layer has or that repeats an
earlier one. -/
theorem firstTaken?_eq (layer : Layer α) (rest : List α) : ∀ before : List α,
    firstTaken? layer (before.reverse.map Named.name) rest
      = ((rest.zipIdx before.length).find? fun (x, i) => Layer.has layer (Named.name x) ||
          (((before ++ rest).take i).map Named.name).contains (Named.name x)).map
        fun p => Named.name p.1 := by
  induction rest with
  | nil => exact fun _ => rfl
  | cons x rest ih =>
    intro before
    have hearlier : (before.reverse.map Named.name).contains (Named.name x)
        = (((before ++ x :: rest).take before.length).map Named.name).contains (Named.name x) := by
      rw [List.take_left, List.map_reverse, List.contains_eq_any_beq, List.contains_eq_any_beq,
        List.any_reverse]
    have hrest := ih (before ++ [x])
    rw [List.reverse_append, List.append_assoc, List.length_append] at hrest
    rw [firstTaken?, hearlier, List.zipIdx_cons]
    by_cases htaken : (Layer.has layer (Named.name x) ||
        (((before ++ x :: rest).take before.length).map Named.name).contains (Named.name x)) = true
    · rw [if_pos htaken, List.find?_cons_of_pos]
      · rfl
      · exact htaken
    · rw [if_neg htaken, List.find?_cons_of_neg]
      · exact hrest
      · exact htaken

/-- A list of entries clashes with an overlay where a name is taken. -/
theorem Denotes.clash? (h : r.Denotes o) (xs : List α) :
    (o.clash? xs).map Named.name = firstTaken? r.top [] xs := by
  have htop : ∀ name, Layer.has r.top name = (o.top.lookup name).isSome :=
    fun name => congrArg Option.isSome (h.top name)
  have hfirst := firstTaken?_eq r.top xs []
  simp only [htop] at hfirst
  rw [Overlay.clash?, Option.map_map]
  exact hfirst.symm

/-- Every operation takes a registry and what it stands for to such again. -/
theorem shelving_simulates :
    (shelving : Shelving α (Registry α)).Simulates Overlay.shelving Denotes where
  empty := .empty
  ofList xs := Denotes.empty.foldl_set xs
  derive h := h.derive
  change := by
    intro r o c h
    cases c with
    | add xs =>
      have hclash := h.clash? xs
      show Shelving.Corresponds Denotes ((r.add xs).map _) ((o.add xs).map _)
      rw [add_eq, Overlay.add, ← hclash]
      cases o.clash? xs with
      | some x => exact .refused (.duplicateName (Named.name x))
      | none => exact .changed none (h.foldl_set xs)
    | set x => exact .changed none (h.set x)
    | erase name =>
      show Shelving.Corresponds Denotes ((r.erase name).map _) ((o.erase name).map _)
      rw [Registry.erase, Overlay.erase, h.top name]
      cases o.top.lookup name with
      | none => exact .refused (.notFound name)
      | some x =>
        exact .changed (some x) (h.withTop (h.indexed.top.erase name) (h.top.erase name))

/-! ### Questions -/

theorem pairwise_insertName (name : String) {ns : List String} (h : ns.Pairwise (· < ·)) :
    (insertName name ns).Pairwise (· < ·) := by
  induction ns with
  | nil => exact List.pairwise_singleton _ name
  | cons n ns ih =>
    obtain ⟨hn, hns⟩ := List.pairwise_cons.mp h
    unfold insertName
    split
    · exact h
    · rename_i hne
      split
      · rename_i hlt
        refine List.pairwise_cons.mpr ⟨fun a ha => ?_, h⟩
        rcases List.mem_cons.mp ha with rfl | ha
        · exact hlt
        · exact String.lt_trans hlt (hn a ha)
      · rename_i hge
        refine List.pairwise_cons.mpr ⟨fun a ha => ?_, ih hns⟩
        rcases mem_insertName.mp ha with rfl | ha
        · by_contra hlt
          exact hne (String.le_antisymm (String.not_lt.mp hlt) (String.not_lt.mp hge))
        · exact hn a ha

/-- **The names rise.** -/
theorem pairwise_names (r : Registry α) : r.names.Pairwise (· < ·) := by
  have hentries : ∀ (entries : List α) (sorted : List String), sorted.Pairwise (· < ·) →
      (entries.foldl (fun sorted x => insertName (Named.name x) sorted) sorted).Pairwise
        (· < ·) := by
    intro entries
    induction entries with
    | nil => exact fun _ h => h
    | cons x rest ih => exact fun sorted h => ih _ (pairwise_insertName (Named.name x) h)
  have hlayers : ∀ (layers : List (Layer α)) (sorted : List String), sorted.Pairwise (· < ·) →
      (layers.foldl (fun sorted layer => layer.byName.foldl
        (fun sorted x => insertName (Named.name x) sorted) sorted) sorted).Pairwise (· < ·) := by
    intro layers
    induction layers with
    | nil => exact fun _ h => h
    | cons layer rest ih => exact fun sorted h => ih _ (hentries layer.byName sorted h)
  exact hlayers r.layers [] .nil

/-- All questions about the registry are answered as about the overlay: what a name stands for
is its topmost binding, the names are those that are bound, once and rising, the definitions
are their bindings in this order, and the local size is that of the top map. -/
structure AnswersAs (r : Registry α) (o : Overlay α) : Prop where
  get? : ∀ name, r.get? name = o.get? name
  has : ∀ name, r.has name = (o.get? name).isSome
  mem_names : ∀ name, name ∈ r.names ↔ (o.get? name).isSome = true
  names_rise : r.names.Pairwise (· < ·)
  definitions : r.definitions = r.names.filterMap o.get?
  localSize : r.localSize = o.top.keys.card

theorem Denotes.answersAs (h : r.Denotes o) : r.AnswersAs o where
  get? := h.get?
  has name := congrArg Option.isSome (h.get? name)
  mem_names name := by rw [mem_names_iff, Registry.has, h.get? name]
  names_rise := r.pairwise_names
  definitions := by rw [Registry.definitions, funext h.get?]
  localSize := by
    rw [h.top.keys, List.toFinset_card_of_nodup h.indexed.top.nodup, List.length_map]
    rfl

/-- **Registries are stacks of finite maps.**  After every sequence of operations the registries
and the overlays that were made and changed by it have given the same answers, refusals
included, and each registry answers all questions as its overlay does.  An operation that is
refused changes nothing, and no operation changes another registry than the one it is about. -/
theorem registries_answer_as_overlays (ops : List (Operation α)) :
    let registries := shelving.run ops []
    let overlays := (Overlay.shelving : Shelving α (Overlay α)).run ops []
    registries.1 = overlays.1 ∧ registries.2.Forall₂ AnswersAs overlays.2 ∧
      ∀ op : Operation α,
        (∀ refusal, (shelving.step registries.2 op).1 = .error refusal →
          (shelving.step registries.2 op).2 = registries.2) ∧
        ∀ j, j < registries.2.length → op.target? ≠ some j →
          (shelving.step registries.2 op).2[j]? = registries.2[j]? := by
  intro registries overlays
  obtain ⟨hanswers, hdenotes⟩ := shelving_simulates.run ops (R := Denotes (α := α)) .nil
  refine ⟨hanswers, hdenotes.imp fun r o h => h.answersAs, fun op => ⟨?_, ?_⟩⟩
  · exact fun refusal h => shelving.step_refused h
  · exact fun j hj hop => shelving.getElem?_step hj hop

/-- A registry over another one: an entry that the upper one has is refused there, and what is
taken out of the upper one stays in the lower one. -/
theorem registries_answer_as_overlays_derived :
    let ops : List (Operation Interpolator) :=
      [.collect [⟨"$", ")", true⟩], .derive 0, .change 1 (.set ⟨"$", "]", true⟩)]
    let shelf := (Registry.shelving.run ops []).2
    let refused := shelving.step shelf (.change 1 (.add [Builtin.interpolator, ⟨"$", ")", true⟩]))
    let erased := shelving.step shelf (.change 1 (.erase "$"))
    refused.1 = .error (.duplicateName "$") ∧ refused.2 = shelf ∧
      erased.1 = .ok (some ⟨"$", "]", true⟩) ∧ erased.2[0]? = shelf[0]? := by
  intro ops shelf refused erased
  obtain ⟨-, -, hsteps⟩ := registries_answer_as_overlays ops
  have hrefused : refused.1 = .error (.duplicateName "$") := rfl
  have hunchanged : refused.2 = shelf := (hsteps _).1 _ hrefused
  have hother : erased.2[0]? = shelf[0]? := (hsteps _).2 0 (by decide) (by decide)
  exact ⟨hrefused, hunchanged, rfl, hother⟩

end Registry

end MacroMarkup
