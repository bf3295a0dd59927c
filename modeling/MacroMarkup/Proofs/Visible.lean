import MacroMarkup.Configuration

/-!
# What holds of every entry of a registry

`Registry.All P r` says `P` of every entry in every layer, also of entries that another one
hides.  Whatever a registry answers, it answers one of them.

* `All.of_get?`, `All.of_mem_definitions`: an answer is an entry.
* `All.set`, `All.derive`: a change keeps `P` if the new entry has it.
* `Registries.All`, `ModuleRecord.All`: the same for what a document can change and for
  modules; `All.addedSince` and `All.merge` say what recording and using a module keep.
-/

namespace MacroMarkup

namespace Layer

variable {α : Type} [Named α] {P : α → Prop}

theorem mem_of_get? {layer : Layer α} {name : String} {x : α} (h : get? layer name = some x) :
    x ∈ layer :=
  .inl (List.mem_of_find?_eq_some h)

theorem mem_of_mem_without {name : String} {x : α} {xs : List α} (h : x ∈ without name xs) :
    x ∈ xs :=
  (List.mem_filter.mp h).1

theorem forall_mem_insert {layer : Layer α} {x : α} (h : ∀ y ∈ layer, P y) (hx : P x) :
    ∀ y ∈ insert x layer, P y := by
  intro y hy
  rcases mem_iff.mp hy with hy | hy
  · rcases mem_bindIn hy with rfl | hy
    · exact hx
    · exact h y (.inl hy)
  · rcases mem_sortIn.mp hy with rfl | hy
    · exact hx
    · exact h y (.inr hy)

theorem forall_mem_set {layer : Layer α} {x : α} (h : ∀ y ∈ layer, P y) (hx : P x) :
    ∀ y ∈ set layer x, P y := by
  unfold set
  split
  · refine forall_mem_insert (fun y hy => h y ?_) hx
    exact (mem_iff.mp hy).imp_right mem_of_mem_without
  · exact forall_mem_insert h hx

end Layer

namespace Registry

variable {α : Type} {P Q : α → Prop} {r : Registry α}

/-- `P` is true of every entry in every layer. -/
def All (P : α → Prop) (r : Registry α) : Prop := ∀ layer ∈ r.layers, ∀ x ∈ layer, P x

theorem All.mono (h : r.All P) (imp : ∀ x, P x → Q x) : r.All Q :=
  fun layer hl x hx => imp x (h layer hl x hx)

theorem All.derive (h : r.All P) : r.derive.All P := by
  intro layer hl
  rcases List.mem_cons.mp hl with rfl | hl
  · exact fun x hx => (Layer.not_mem_empty x hx).elim
  · exact h layer hl

theorem all_empty : (empty : Registry α).All P := by
  intro layer hl x hx
  rw [List.mem_singleton.mp hl] at hx
  exact (Layer.not_mem_empty x hx).elim

variable [Named α]

theorem mem_of_lookup {name : String} {x : α} :
    ∀ {layers : List (Layer α)}, lookup name layers = some x → ∃ layer ∈ layers, x ∈ layer := by
  intro layers
  induction layers with
  | nil => intro h; cases h
  | cons layer rest ih =>
    intro h
    rw [lookup] at h
    cases ht : Layer.get? layer name with
    | some y =>
      rw [ht] at h
      cases h
      exact ⟨layer, List.mem_cons_self, Layer.mem_of_get? ht⟩
    | none =>
      rw [ht] at h
      obtain ⟨l, hl, hx⟩ := ih h
      exact ⟨l, List.mem_cons_of_mem _ hl, hx⟩

theorem All.of_get? {name : String} {x : α} (h : r.All P) (hx : r.get? name = some x) : P x := by
  obtain ⟨layer, hl, hm⟩ := mem_of_lookup hx
  exact h layer hl x hm

theorem All.of_mem_definitions {x : α} (h : r.All P) (hx : x ∈ r.definitions) : P x := by
  obtain ⟨name, -, hname⟩ := List.mem_filterMap.mp hx
  exact h.of_get? hname

theorem All.set {x : α} (h : r.All P) (hx : P x) : (r.set x).All P := by
  intro layer hl
  rcases List.mem_cons.mp hl with rfl | hl
  · exact Layer.forall_mem_set (h r.top List.mem_cons_self) hx
  · exact h layer (List.mem_cons_of_mem _ hl)

end Registry

variable {P Q : Definition → Prop}

def ModuleRecord.All (P : Definition → Prop) (record : ModuleRecord) : Prop :=
  (∀ d ∈ record.blocks, P d) ∧ ∀ d ∈ record.inlines, P d

theorem ModuleRecord.All.mono {record : ModuleRecord} (h : record.All P)
    (imp : ∀ d, P d → Q d) : record.All Q :=
  ⟨fun d hd => imp d (h.1 d hd), fun d hd => imp d (h.2 d hd)⟩

namespace Registries

def All (P : Definition → Prop) (r : Registries) : Prop := r.blocks.All P ∧ r.inlines.All P

theorem All.mono {r : Registries} (h : r.All P) (imp : ∀ d, P d → Q d) : r.All Q :=
  ⟨h.1.mono imp, h.2.mono imp⟩

theorem All.addedSince {now earlier : Registries} (h : now.All P) :
    (now.addedSince earlier).All P :=
  ⟨fun _ hd => h.1.of_mem_definitions ((List.mem_filter.mp hd).1),
    fun _ hd => h.2.of_mem_definitions ((List.mem_filter.mp hd).1)⟩

theorem all_mergeInto {replace : Bool} : ∀ {definitions : List Definition}
    {registry : Registry Definition}, registry.All P → (∀ d ∈ definitions, P d) →
    (mergeInto replace registry definitions).1.All P := by
  intro definitions
  induction definitions with
  | nil => intro registry h _; exact h
  | cons d rest ih =>
    intro registry h hd
    have hrest : ∀ x ∈ rest, P x := fun x hx => hd x (List.mem_cons_of_mem _ hx)
    have hset : (registry.set d).All P := h.set (hd d List.mem_cons_self)
    rw [mergeInto]
    split
    · exact ih hset hrest
    · split
      · exact ih h hrest
      · cases replace
        · exact ih h hrest
        · exact ih hset hrest

theorem All.merge {replace : Bool} {r : Registries} {record : ModuleRecord} (h : r.All P)
    (hr : record.All P) : (r.merge replace record).1.All P :=
  ⟨all_mergeInto h.1 hr.1, all_mergeInto h.2 hr.2⟩

end Registries

end MacroMarkup
