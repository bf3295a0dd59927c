import Mathlib.Data.List.Forall2
import MacroMarkup.Macro.Builtin
import MacroMarkup.Proofs.Lookup

/-!
# A shelf of registries

Registries are made one after another, from nothing, from a list or from one another, and each
is changed while the others stand beside it.  What holds after every sequence of such
operations is proved for one operation and carried along the sequence.

* `Operation`, `Change`: what can be done with the things on a shelf.
* `Shelving`: how one kind of things is made and changed; `Registry.shelving` is that of
  registries.
* `Shelving.step`, `Shelving.run`: one operation and a sequence of them, with their answers.
* `Shelving.getElem?_step`: an operation leaves all things alone but the one it changes.
* `Shelving.Simulates`: two kinds of things that are related by every operation; then
  `Simulates.run` relates them after every sequence.
* `longest_prefix_found`: in every registry that comes to stand on a shelf the longest name that
  a text begins with is found.
-/

namespace MacroMarkup

inductive Change (α : Type) where
  | add (xs : List α)
  | set (x : α)
  | erase (name : String)

/-- An operation on the things on a shelf; `i` is the place of the one that is meant.  What is
made is put at the end. -/
inductive Operation (α : Type) where
  | new
  | collect (xs : List α)
  | derive (i : Nat)
  | clone (i : Nat)
  | change (i : Nat) (c : Change α)

def Operation.target? {α : Type} : Operation α → Option Nat
  | .change i _ => some i
  | _ => none

/-- What an operation answers: the entry that was taken out, if one was, or why the operation
was refused. -/
abbrev Answer (α : Type) : Type := Except NameError (Option α)

/-- How things that hold entries are made and changed. -/
structure Shelving (α ρ : Type) where
  empty : ρ
  ofList : List α → ρ
  derive : ρ → ρ
  add : ρ → List α → Except NameError ρ
  set : ρ → α → ρ
  erase : ρ → String → Except NameError (α × ρ)

namespace Shelving

variable {α ρ ρ' : Type}

def change (M : Shelving α ρ) (c : Change α) (r : ρ) : Except NameError (Option α × ρ) :=
  match c with
  | .add xs => (M.add r xs).map fun r => (none, r)
  | .set x => .ok (none, M.set r x)
  | .erase name => (M.erase r name).map fun (x, r) => (some x, r)

/-- Changes the thing at a place of the shelf.  If that is refused, it stays as it was. -/
def changeAt (M : Shelving α ρ) (i : Nat) (c : Change α) (shelf : List ρ) :
    Answer α × List ρ :=
  match shelf[i]? with
  | none => (.ok none, shelf)
  | some r =>
    match M.change c r with
    | .error refusal => (.error refusal, shelf)
    | .ok (x, r) => (.ok x, shelf.set i r)

def step (M : Shelving α ρ) (shelf : List ρ) : Operation α → Answer α × List ρ
  | .new => (.ok none, shelf ++ [M.empty])
  | .collect xs => (.ok none, shelf ++ [M.ofList xs])
  | .derive i => (.ok none, shelf ++ (shelf[i]?.map M.derive).toList)
  | .clone i => (.ok none, shelf ++ shelf[i]?.toList)
  | .change i c => M.changeAt i c shelf

def run (M : Shelving α ρ) : List (Operation α) → List ρ → List (Answer α) × List ρ
  | [], shelf => ([], shelf)
  | op :: ops, shelf =>
    let (answer, shelf) := M.step shelf op
    let (answers, shelf) := M.run ops shelf
    (answer :: answers, shelf)

/-- **An operation leaves all things alone** but the one it changes. -/
theorem getElem?_step (M : Shelving α ρ) {shelf : List ρ} {op : Operation α} {j : Nat}
    (hj : j < shelf.length) (hop : op.target? ≠ some j) :
    (M.step shelf op).2[j]? = shelf[j]? := by
  cases op with
  | new => exact List.getElem?_append_left hj
  | collect xs => exact List.getElem?_append_left hj
  | derive i => exact List.getElem?_append_left hj
  | clone i => exact List.getElem?_append_left hj
  | change i c =>
    have hne : i ≠ j := fun h => hop (congrArg some h)
    simp only [step, changeAt]
    cases shelf[i]? with
    | none => rfl
    | some r =>
      cases hchange : M.change c r with
      | error refusal => simp only [hchange]
      | ok answer =>
        simp only [hchange]
        exact List.getElem?_set_ne hne

theorem step_refused (M : Shelving α ρ) {shelf : List ρ} {op : Operation α} {refusal : NameError}
    (h : (M.step shelf op).1 = .error refusal) : (M.step shelf op).2 = shelf := by
  cases op with
  | change i c =>
    simp only [step, changeAt] at h ⊢
    cases hi : shelf[i]? with
    | none => rfl
    | some r =>
      rw [hi] at h
      cases hchange : M.change c r with
      | error refusal => simp only [hchange]
      | ok answer =>
        simp only [hchange] at h
        cases h
  | _ => cases h

/-! ### Two kinds of things -/

/-- The results of the same change of two related things: the answers are the same, and what
came out is related again. -/
inductive Corresponds (R : ρ → ρ' → Prop) :
    Except NameError (Option α × ρ) → Except NameError (Option α × ρ') → Prop
  | refused (refusal : NameError) : Corresponds R (.error refusal) (.error refusal)
  | changed (x : Option α) {r : ρ} {r' : ρ'} (h : R r r') : Corresponds R (.ok (x, r)) (.ok (x, r'))

/-- Every operation takes related things to related ones. -/
structure Simulates (M : Shelving α ρ) (N : Shelving α ρ') (R : ρ → ρ' → Prop) : Prop where
  empty : R M.empty N.empty
  ofList : ∀ xs, R (M.ofList xs) (N.ofList xs)
  derive : ∀ {r r'}, R r r' → R (M.derive r) (N.derive r')
  change : ∀ {r r'} c, R r r' → Corresponds R (M.change c r) (N.change c r')

section Related

variable {R : ρ → ρ' → Prop} {shelf : List ρ} {shelf' : List ρ'}

theorem rel_getElem? (h : shelf.Forall₂ R shelf') (i : Nat) :
    Option.Rel R shelf[i]? shelf'[i]? := by
  induction h generalizing i with
  | nil => exact .none
  | cons hr _ ih =>
    cases i with
    | zero => exact .some hr
    | succ i => exact ih i

theorem forall₂_set (h : shelf.Forall₂ R shelf') {r : ρ} {r' : ρ'} (hr : R r r') (i : Nat) :
    (shelf.set i r).Forall₂ R (shelf'.set i r') := by
  induction h generalizing i with
  | nil => exact .nil
  | cons hfirst hrest ih =>
    cases i with
    | zero => exact .cons hr hrest
    | succ i => exact .cons hfirst (ih i)

theorem forall₂_append_toList (h : shelf.Forall₂ R shelf') {o : Option ρ} {o' : Option ρ'}
    (ho : Option.Rel R o o') : (shelf ++ o.toList).Forall₂ R (shelf' ++ o'.toList) := by
  refine List.rel_append h ?_
  cases ho with
  | none => exact .nil
  | some hr => exact .cons hr .nil

variable {M : Shelving α ρ} {N : Shelving α ρ'}

/-- One operation on two shelves with related things gives the same answer and leaves related
things. -/
theorem Simulates.step (h : M.Simulates N R) (hshelf : shelf.Forall₂ R shelf')
    (op : Operation α) :
    (M.step shelf op).1 = (N.step shelf' op).1 ∧
      (M.step shelf op).2.Forall₂ R (N.step shelf' op).2 := by
  cases op with
  | new => exact ⟨rfl, forall₂_append_toList hshelf (.some h.empty)⟩
  | collect xs => exact ⟨rfl, forall₂_append_toList hshelf (.some (h.ofList xs))⟩
  | derive i =>
    refine ⟨rfl, forall₂_append_toList hshelf ?_⟩
    have hthere := rel_getElem? hshelf i
    generalize shelf[i]? = o, shelf'[i]? = o' at hthere
    cases hthere with
    | none => exact .none
    | some hr => exact .some (h.derive hr)
  | clone i => exact ⟨rfl, forall₂_append_toList hshelf (rel_getElem? hshelf i)⟩
  | change i c =>
    have hthere := rel_getElem? hshelf i
    simp only [Shelving.step, changeAt]
    generalize shelf[i]? = o, shelf'[i]? = o' at hthere
    cases hthere with
    | none => exact ⟨rfl, hshelf⟩
    | @some r r' hr =>
      have hchange := h.change c hr
      simp only
      generalize M.change c r = answer, N.change c r' = answer' at hchange
      cases hchange with
      | refused refusal => exact ⟨rfl, hshelf⟩
      | changed x hchanged => exact ⟨rfl, forall₂_set hshelf hchanged i⟩

/-- **Every sequence of operations** gives the same answers and leaves related things. -/
theorem Simulates.run (h : M.Simulates N R) (ops : List (Operation α)) :
    ∀ {shelf : List ρ} {shelf' : List ρ'}, shelf.Forall₂ R shelf' →
      (M.run ops shelf).1 = (N.run ops shelf').1 ∧
        (M.run ops shelf).2.Forall₂ R (N.run ops shelf').2 := by
  induction ops with
  | nil => exact fun hshelf => ⟨rfl, hshelf⟩
  | cons op ops ih =>
    intro shelf shelf' hshelf
    obtain ⟨hanswer, hstep⟩ := h.step hshelf op
    obtain ⟨hanswers, hrun⟩ := ih hstep
    exact ⟨congrArg₂ List.cons hanswer hanswers, hrun⟩

end Related

end Shelving

/-! ### Registries -/

namespace Registry

variable {α : Type} [Named α]

def shelving : Shelving α (Registry α) := ⟨.empty, .ofList, derive, add, set, erase⟩

/-- No name is taken if the layer has none of them, no earlier entry bears one, and they are
distinct. -/
theorem firstTaken?_eq_none_iff {layer : Layer α} {xs : List α} : ∀ {earlier : List String},
    firstTaken? layer earlier xs = none ↔
      (∀ x ∈ xs, Layer.has layer (Named.name x) = false ∧ Named.name x ∉ earlier) ∧
        (xs.map Named.name).Nodup := by
  induction xs with
  | nil => simp [firstTaken?]
  | cons x rest ih =>
    intro earlier
    rw [firstTaken?]
    by_cases hx : Layer.has layer (Named.name x) = false ∧ Named.name x ∉ earlier
    · have hfree : (Layer.has layer (Named.name x) || earlier.contains (Named.name x)) = false := by
        simpa using hx
      rw [hfree, if_neg Bool.false_ne_true, ih]
      rw [List.forall_mem_cons, List.map_cons, List.nodup_cons]
      constructor
      · rintro ⟨hrest, hnodup⟩
        refine ⟨⟨hx, fun y hy => ⟨(hrest y hy).1, fun h => (hrest y hy).2 ?_⟩⟩,
          fun hmem => ?_, hnodup⟩
        · exact List.mem_cons_of_mem _ h
        · obtain ⟨y, hy, hname⟩ := List.mem_map.mp hmem
          exact (hrest y hy).2 (hname ▸ List.mem_cons_self)
      · rintro ⟨⟨-, hrest⟩, hfresh, hnodup⟩
        refine ⟨fun y hy => ⟨(hrest y hy).1, fun h => ?_⟩, hnodup⟩
        rcases List.mem_cons.mp h with hname | h
        · exact hfresh (hname ▸ List.mem_map_of_mem hy)
        · exact (hrest y hy).2 h
    · have htaken : (Layer.has layer (Named.name x) || earlier.contains (Named.name x)) = true := by
        by_contra hfree
        exact hx (by simpa using hfree)
      rw [htaken, if_pos rfl]
      constructor
      · exact fun h => by cases h
      · exact fun h => absurd (h.1 x List.mem_cons_self) hx

/-- Entries with new names are put in as if each replaced what had its name. -/
theorem foldl_insert_eq_foldl_set {xs : List α} : ∀ {layer : Layer α},
    (∀ x ∈ xs, Layer.has layer (Named.name x) = false) → (xs.map Named.name).Nodup →
      xs.foldl (fun layer x => Layer.insert x layer) layer = xs.foldl Layer.set layer := by
  induction xs with
  | nil => exact fun _ _ => rfl
  | cons x rest ih =>
    intro layer hfree hnodup
    obtain ⟨hx, hrest⟩ := List.nodup_cons.mp hnodup
    have hset : Layer.set layer x = Layer.insert x layer := by
      rw [Layer.set, hfree x List.mem_cons_self, if_neg Bool.false_ne_true]
    rw [List.foldl_cons, List.foldl_cons, hset]
    refine ih (fun y hy => ?_) hrest
    have hother : Named.name x ≠ Named.name y := fun h => hx (h ▸ List.mem_map_of_mem hy)
    rw [Layer.has, Layer.get?_insert, if_neg hother]
    exact hfree y (List.mem_cons_of_mem x hy)

theorem foldl_set (xs : List α) (r : Registry α) :
    xs.foldl set r = { r with top := xs.foldl Layer.set r.top } := by
  induction xs generalizing r with
  | nil => rfl
  | cons x rest ih => exact ih (r.set x)

/-- **New entries are put in one by one**, unless a name is taken. -/
theorem add_eq (r : Registry α) (xs : List α) :
    r.add xs = match firstTaken? r.top [] xs with
      | some name => .error (.duplicateName name)
      | none => .ok (xs.foldl set r) := by
  unfold add
  cases h : firstTaken? r.top [] xs with
  | some name => rfl
  | none =>
    obtain ⟨hfree, hnodup⟩ := firstTaken?_eq_none_iff.mp h
    simp only [foldl_set, foldl_insert_eq_foldl_set (fun x hx => (hfree x hx).1) hnodup]

theorem Indexed.foldl_set {r : Registry α} (h : r.Indexed) (xs : List α) :
    (xs.foldl Registry.set r).Indexed := by
  induction xs generalizing r with
  | nil => exact h
  | cons x rest ih => exact ih (h.set x)

theorem Indexed.change {r r' : Registry α} (h : r.Indexed) {c : Change α} {x : Option α}
    (hc : shelving.change c r = .ok (x, r')) : r'.Indexed := by
  cases c with
  | add xs =>
    simp only [Shelving.change, shelving, add_eq] at hc
    cases htaken : firstTaken? r.top [] xs with
    | some name =>
      rw [htaken] at hc
      cases hc
    | none =>
      rw [htaken] at hc
      cases hc
      exact h.foldl_set xs
  | set x =>
    cases hc
    exact h.set x
  | erase name =>
    simp only [Shelving.change, shelving, Registry.erase] at hc
    cases hfound : Layer.get? r.top name with
    | none =>
      rw [hfound] at hc
      cases hc
    | some y =>
      rw [hfound] at hc
      cases hc
      exact h.withTop (h.top.erase name)

theorem shelving_keeps_indexed :
    (shelving : Shelving α (Registry α)).Simulates shelving fun r r' => r = r' ∧ r.Indexed where
  empty := ⟨rfl, indexed_empty⟩
  ofList xs := ⟨rfl, indexed_empty.foldl_set xs⟩
  derive := by
    rintro r _ ⟨rfl, h⟩
    exact ⟨rfl, h.derive⟩
  change := by
    rintro r _ c ⟨rfl, h⟩
    cases hc : shelving.change c r with
    | error refusal => exact .refused refusal
    | ok answer => exact .changed answer.1 ⟨rfl, h.change hc⟩

/-- **Both indexes agree in every registry** that comes to stand on a shelf. -/
theorem indexed_of_mem_run {ops : List (Operation α)} {r : Registry α}
    (hr : r ∈ (shelving.run ops []).2) : r.Indexed := by
  have hrun := (shelving_keeps_indexed.run ops List.Forall₂.nil).2
  exact (List.forall₂_same.mp hrun r hr).2

/-! ### The longest name that a text begins with -/

/-- The text begins with this visible name, and with no longer one. -/
structure IsLongestPrefix (r : Registry α) (text name : String) : Prop where
  visible : r.has name = true
  begins : name.toList <+: text.toList
  longest : ∀ other, r.has other = true → other.toList <+: text.toList →
    other.toList.length ≤ name.toList.length

theorem IsLongestPrefix.unique {r : Registry α} {text name name' : String}
    (h : r.IsLongestPrefix text name) (h' : r.IsLongestPrefix text name') : name = name' := by
  have hlength : name.toList.length = name'.toList.length :=
    Nat.le_antisymm (h'.longest name h.visible h.begins) (h.longest name' h'.visible h'.begins)
  have hbegins := List.prefix_of_prefix_length_le h.begins h'.begins (Nat.le_of_eq hlength)
  exact String.toList_inj.mp (hbegins.eq_of_length hlength)

/-- What is found for a text is what the longest visible name stands for that it begins with. -/
theorem Indexed.isLongestPrefix {r : Registry α} (h : r.Indexed) {text : String} {x : α}
    (hx : r.findLongest? (fun name => name.toList.isPrefixOf text.toList) = some x) :
    r.IsLongestPrefix text (Named.name x) ∧ r.get? (Named.name x) = some x := by
  obtain ⟨hget, hpasses, hall⟩ := (findLongest?_spec h _).2 x hx
  refine ⟨⟨?_, List.isPrefixOf_iff_prefix.mp hpasses, fun other hother hbegins => ?_⟩, hget⟩
  · exact Option.isSome_iff_exists.mpr ⟨x, hget⟩
  · obtain ⟨y, hy⟩ := Option.isSome_iff_exists.mp hother
    exact hall other y hy (List.isPrefixOf_iff_prefix.mpr hbegins)

theorem Indexed.not_begins {r : Registry α} (h : r.Indexed) {text name : String}
    (hnone : r.findLongest? (fun name => name.toList.isPrefixOf text.toList) = none)
    (hname : r.has name = true) : ¬ name.toList <+: text.toList := by
  intro hbegins
  obtain ⟨y, hy⟩ := Option.isSome_iff_exists.mp hname
  have hfails := (findLongest?_spec h _).1 hnone name y hy
  rw [List.isPrefixOf_iff_prefix.mpr hbegins] at hfails
  cases hfails

/-- **The longest match is found.**  In every registry that comes to stand on a shelf, what is
found for a text is what the longest visible name that the text begins with stands for, and
nothing if and only if the text begins with no visible name.  In each layer the index by length
holds the entries of the index by name, each name once, by falling length in code points. -/
theorem longest_prefix_found (ops : List (Operation α)) (r : Registry α)
    (hr : r ∈ (shelving.run ops []).2) :
    (∀ text : String,
      let found := r.findLongest? fun name => name.toList.isPrefixOf text.toList
      (∀ x, found = some x ↔ ∃ name, r.IsLongestPrefix text name ∧ r.get? name = some x) ∧
      (found = none ↔ ∀ name, r.has name = true → ¬ name.toList <+: text.toList)) ∧
    ∀ layer ∈ r.layers, layer.byLength.Perm layer.byName ∧
      (layer.byName.map Named.name).Nodup ∧
      layer.byLength.Pairwise fun x y =>
        (Named.name y).toList.length ≤ (Named.name x).toList.length := by
  have hindexed : r.Indexed := indexed_of_mem_run hr
  refine ⟨fun text => ⟨fun x => ⟨?_, ?_⟩, ?_, ?_⟩, fun layer hlayer => ?_⟩
  · exact fun hx => ⟨_, hindexed.isLongestPrefix hx⟩
  · rintro ⟨name, hname, hget⟩
    cases hfound : r.findLongest? fun name => name.toList.isPrefixOf text.toList with
    | none => exact absurd hname.begins (hindexed.not_begins hfound hname.visible)
    | some y =>
      obtain ⟨hy, hgety⟩ := hindexed.isLongestPrefix hfound
      rwa [hname.unique hy, hgety] at hget
  · exact fun hnone name hname => hindexed.not_begins hnone hname
  · intro hall
    cases hfound : r.findLongest? fun name => name.toList.isPrefixOf text.toList with
    | none => rfl
    | some y =>
      obtain ⟨hy, -⟩ := hindexed.isLongestPrefix hfound
      exact absurd hy.begins (hall _ hy.visible)
  · have hlayer := hindexed layer hlayer
    exact ⟨hlayer.perm, hlayer.nodup, hlayer.falling⟩

/-- Of two names that a text begins with the one in the lower layer is found if it is longer. -/
theorem longest_prefix_found_inherited :
    let ops : List (Operation Interpolator) :=
      [.new, .change 0 (.add [Builtin.interpolator]), .derive 0, .change 1 (.set ⟨"$", "]", true⟩)]
    ∃ r ∈ (shelving.run ops []).2, r.get? "$" = some ⟨"$", "]", true⟩ ∧
      r.get? "$(" = some Builtin.interpolator ∧ ∃ name, r.IsLongestPrefix "$(x)" name ∧
        r.get? name = some Builtin.interpolator := by
  intro ops
  let lower : Layer Interpolator := ⟨[Builtin.interpolator], [Builtin.interpolator]⟩
  let r : Registry Interpolator := ⟨⟨[⟨"$", "]", true⟩], [⟨"$", "]", true⟩]⟩, [lower]⟩
  have hr : r ∈ (shelving.run ops []).2 := List.mem_of_getElem? (i := 1) rfl
  have hfound : r.findLongest? (fun name => name.toList.isPrefixOf "$(x)".toList)
      = some Builtin.interpolator := rfl
  exact ⟨r, hr, rfl, rfl, (((longest_prefix_found ops r hr).1 "$(x)").1 _).mp hfound⟩

end Registry

end MacroMarkup
