import MacroMarkup.Proofs.Settled
import MacroMarkup.Macro.Builtin

/-!
# Fresh contexts

A fresh context keeps what its configuration registers and nothing else.

* `Configuration.All`: what holds of everything that a configuration registers.
* `All.set`: registering one more definition; `Builtin.all_configuration`: the modifiers
  that come with the language.
* `Context.stores_start`: a fresh context is in stock if its configuration is.
  `Builtin.stores_start`: over the modifiers that come with the language.
  `Context.missing_start`: it has no state of the macros if that is not set up.
-/

namespace MacroMarkup

/-- `P` is true of every definition in the three registries, and no interpolator has an
empty mark. -/
structure Configuration.All (P : Definition → Prop) (c : Configuration) : Prop where
  blocks : c.blocks.All P
  inlines : c.inlines.All P
  systems : c.systems.All P
  interpolators : c.interpolators.All fun i => i.name ≠ "" ∧ i.closing ≠ ""

namespace Configuration

variable {P : Definition → Prop} {c : Configuration}

theorem All.mono {Q : Definition → Prop} (h : c.All P) (imp : ∀ d, P d → Q d) : c.All Q :=
  ⟨h.blocks.mono imp, h.inlines.mono imp, h.systems.mono imp, h.interpolators⟩

theorem all_empty : (empty : Configuration).All P :=
  ⟨Registry.all_empty, Registry.all_empty, Registry.all_empty, Registry.all_empty⟩

theorem All.set {d : Definition} (h : c.All P) (hd : ∀ stamp, P { d with stamp := stamp }) :
    (c.set d).All P := by
  obtain ⟨stamp, name, kind, slot, delaysContent, alwaysExpands, behaviour⟩ := d
  cases kind with
  | block => exact ⟨h.blocks.set (hd _), h.inlines, h.systems, h.interpolators⟩
  | inline => exact ⟨h.blocks, h.inlines.set (hd _), h.systems, h.interpolators⟩
  | system => exact ⟨h.blocks, h.inlines, h.systems.set (hd _), h.interpolators⟩

theorem All.setAll {definitions : List Definition} (h : c.All P)
    (hd : ∀ d ∈ definitions, ∀ stamp, P { d with stamp := stamp }) :
    (definitions.foldl Configuration.set c).All P := by
  induction definitions generalizing c with
  | nil => exact h
  | cons d rest ih =>
    have hset : (c.set d).All P := h.set (hd d List.mem_cons_self)
    exact ih hset fun x hx => hd x (List.mem_cons_of_mem _ hx)

theorem All.setInterpolator {i : Interpolator} (h : c.All P)
    (hi : i.name ≠ "" ∧ i.closing ≠ "") : (c.setInterpolator i).All P :=
  ⟨h.blocks, h.inlines, h.systems, h.interpolators.set hi⟩

theorem All.addInitializer {x : Initializer} (h : c.All P) : (c.addInitializer x).All P := by
  unfold Configuration.addInitializer
  split
  · exact h
  · exact ⟨h.blocks, h.inlines, h.systems, h.interpolators⟩

end Configuration

/-- What holds of the modifiers that come with the language holds of all that their
configuration registers. -/
theorem Builtin.all_configuration {P : Definition → Prop}
    (h : ∀ d ∈ Builtin.definitions, ∀ stamp, P { d with stamp := stamp }) :
    Builtin.configuration.All P :=
  ((Configuration.all_empty.setAll h).setInterpolator (by decide)).addInitializer

/-- The modifiers that come with the language may be registered if their definitions may be
had. -/
theorem Builtin.registered {E : List Node → Prop} {F : Definition → Prop} {custom unknown}
    (hF : ∀ d ∈ Builtin.definitions, ∀ stamp, F { d with stamp := stamp }) :
    ∀ d ∈ Builtin.definitions, ∀ stamp,
      (Stock.kept E F custom unknown).Registered { d with stamp := stamp } := by
  have hnames : ∀ d ∈ Builtin.definitions, d.name ≠ "" := by decide
  have hbodies : ∀ d ∈ Builtin.definitions, d.body.isEmpty = true := by decide
  intro d hd stamp
  refine ⟨hnames d hd, hF d hd stamp, fun n hn => ?_⟩
  have hbody : n ∈ d.body := hn
  rw [List.isEmpty_iff.mp (hbodies d hd)] at hbody
  cases hbody

theorem Builtin.sets_up_macros : .macros ∈ Builtin.configuration.initializers := by decide

/-- A context is in stock if its configuration and the state of its macros are. -/
theorem Configuration.All.stores {S : Stock} {cx : Context} {s : MacroState}
    (hc : cx.configuration.All S.Registered) (hs : cx.macros = .ok s) (hst : s.Stores S) :
    cx.Stores S :=
  ⟨⟨hc.blocks, hc.inlines⟩, hc.systems, hc.interpolators, s, hs, hst⟩

/-! ### The state of the macros -/

theorem Store.macros_setUp {store store' : Store} {x : Initializer}
    (h : store.setUp x = .ok store') :
    (x = .macros ∧ store'.macros.get = .ok .initial) ∨
      (x ≠ .macros ∧ store'.macros = store.macros) := by
  cases x with
  | macros =>
    left
    simp only [Store.setUp, bind, Except.bind, pure, Except.pure] at h
    split at h
    · cases h
    · cases h
      exact ⟨rfl, Slot.get_of_setUp store.macros .initial⟩
  | counter value =>
    right
    simp only [Store.setUp, bind, Except.bind, pure, Except.pure] at h
    split at h
    · cases h
    · cases h
      exact ⟨nofun, rfl⟩
  | label value =>
    right
    simp only [Store.setUp, bind, Except.bind, pure, Except.pure] at h
    split at h
    · cases h
    · cases h
      exact ⟨nofun, rfl⟩

theorem Store.macros_setUpAll {xs : List Initializer} : ∀ {store store' : Store},
    xs.foldlM Store.setUp store = .ok store' →
    store.macros.get = .ok .initial ∨ .macros ∈ xs → store'.macros.get = .ok .initial := by
  induction xs with
  | nil =>
    intro store store' h hset
    cases h
    exact hset.resolve_right List.not_mem_nil
  | cons x rest ih =>
    intro store store' h hset
    rw [List.foldlM_cons] at h
    cases hx : store.setUp x with
    | error fault =>
      rw [hx] at h
      cases h
    | ok between =>
      rw [hx] at h
      refine ih h ?_
      rcases macros_setUp hx with ⟨-, hget⟩ | ⟨hne, hsame⟩
      · exact .inl hget
      · rw [hsame]
        exact hset.imp_right fun hmem => (List.mem_cons.mp hmem).resolve_left hne.symm

theorem Store.macros_of_not_mem {xs : List Initializer} : ∀ {store store' : Store},
    xs.foldlM Store.setUp store = .ok store' → .macros ∉ xs →
    store'.macros = store.macros := by
  induction xs with
  | nil =>
    intro store store' h _
    cases h
    rfl
  | cons x rest ih =>
    intro store store' h hnone
    rw [List.mem_cons, not_or] at hnone
    rw [List.foldlM_cons] at h
    cases hx : store.setUp x with
    | error fault =>
      rw [hx] at h
      cases h
    | ok between =>
      rw [hx] at h
      rcases macros_setUp hx with ⟨rfl, -⟩ | ⟨-, hsame⟩
      · exact absurd rfl hnone.1
      · rw [ih h hnone.2, hsame]

/-- **A fresh context is in stock** if what its configuration registers is, and if it sets
up the state of the macros. -/
theorem Context.stores_start {S : Stock} {c : Configuration} {bindings : Dict String}
    {cx : Context} (hc : c.All S.Registered) (hmacros : .macros ∈ c.initializers)
    (h : Context.start c bindings = .ok cx) : cx.Stores S ∧ cx.macros = .ok .initial := by
  unfold Context.start at h
  cases hstore : c.initializers.foldlM Store.setUp .vacant with
  | error fault =>
    rw [hstore] at h
    cases h
  | ok store =>
    rw [hstore] at h
    cases h
    have hget : store.macros.get = .ok .initial := Store.macros_setUpAll hstore (.inr hmacros)
    have hstores : Context.Stores S ⟨c, bindings, store, 0⟩ :=
      Configuration.All.stores hc hget (MacroState.stores_initial S)
    exact ⟨hstores, hget⟩

/-- A fresh context over the modifiers that come with the language, under any limit, is in stock
if they are. -/
theorem Builtin.stores_start {S : Stock} {limit : Nat} {bindings : Dict String} {cx : Context}
    (hc : Builtin.configuration.All S.Registered)
    (h : Context.start { Builtin.configuration with depthLimit := limit } bindings = .ok cx) :
    cx.Stores S ∧ cx.macros = .ok .initial := by
  have hall : Configuration.All S.Registered { Builtin.configuration with depthLimit := limit } :=
    ⟨hc.blocks, hc.inlines, hc.systems, hc.interpolators⟩
  exact Context.stores_start hall Builtin.sets_up_macros h

/-- A fresh context has no state of the macros if its configuration does not set it up. -/
theorem Context.missing_start {c : Configuration} {bindings : Dict String} {cx : Context}
    (hmacros : .macros ∉ c.initializers) (h : Context.start c bindings = .ok cx) :
    cx.configuration = c ∧ cx.macros = .error .missingSlot := by
  unfold Context.start at h
  cases hstore : c.initializers.foldlM Store.setUp .vacant with
  | error fault =>
    rw [hstore] at h
    cases h
  | ok store =>
    rw [hstore] at h
    cases h
    refine ⟨rfl, ?_⟩
    show store.macros.get = .error .missingSlot
    rw [Store.macros_of_not_mem hstore hmacros]
    rfl

end MacroMarkup
