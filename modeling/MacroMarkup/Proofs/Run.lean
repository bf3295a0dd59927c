import MacroMarkup.Parser.Reader

/-!
# What a run ensures

A step of the engine takes a state to a result and a new state, or meets a fault.
`Ensures allows x s post` says of the run of `x` from `s` that it meets no fault but those
allowed, and that its result and its new state satisfy `post`.

* `ensures_bind`, `ensures_pure`, `ensures_get`, …: a run is the run of its pieces, so
  `simp` walks along it.
* `Ensures.mono`, `Ensures.and`: more may be asked of the outcome of the same run.
* `ensures_inContext`, `ensures_expanding`: a step that acts on a part of the state.
* `bind_of_ok`, `bind_of_error`, `ok_of_bind`: a run whose first piece is known.
* `bind_congr_of_ok`: runs that go on in the same way behind the same piece.
-/

namespace MacroMarkup

/-- The run of `x` from `s` ends with a result and a state that satisfy `post`, or with a
fault that is allowed. -/
def Ensures {σ α : Type} (allows : Fault → Prop) (x : StateT σ (Except Fault) α) (s : σ)
    (post : α → σ → Prop) : Prop :=
  match x s with
  | .ok (a, s') => post a s'
  | .error fault => allows fault

abbrev anyFault : Fault → Prop := fun _ => True

variable {σ α β : Type} {allows : Fault → Prop} {s : σ}

theorem ensures_iff {x : StateT σ (Except Fault) α} {post : α → σ → Prop} :
    Ensures allows x s post
      ↔ (∀ a s', x s = .ok (a, s') → post a s') ∧ ∀ fault, x s = .error fault → allows fault := by
  unfold Ensures
  constructor
  · intro h
    constructor
    · intro a s' hx
      rwa [hx] at h
    · intro fault hx
      rwa [hx] at h
  · intro hanswer
    obtain ⟨hok, herror⟩ := hanswer
    split
    · exact hok _ _ (by assumption)
    · exact herror _ (by assumption)

/-- **A run that allows no fault succeeds.** -/
theorem Ensures.exists_ok {x : StateT σ (Except Fault) α} {post : α → σ → Prop}
    (h : Ensures (fun _ => False) x s post) : ∃ a s', x s = .ok (a, s') ∧ post a s' := by
  cases hx : x s with
  | ok r => exact ⟨r.1, r.2, rfl, (ensures_iff.mp h).1 r.1 r.2 hx⟩
  | error fault => exact ((ensures_iff.mp h).2 fault hx).elim

theorem Ensures.of_ok {x : StateT σ (Except Fault) α} {post : α → σ → Prop} {a : α} {s' : σ}
    (h : Ensures allows x s post) (hx : x s = .ok (a, s')) : post a s' :=
  (ensures_iff.mp h).1 a s' hx

theorem ensures_of_eq {x : StateT σ (Except Fault) α} {post : α → σ → Prop} {a : α} {s' : σ}
    (hx : x s = .ok (a, s')) : Ensures allows x s post ↔ post a s' := by
  rw [Ensures, hx]

theorem Ensures.mono {x : StateT σ (Except Fault) α} {post post' : α → σ → Prop}
    (h : Ensures allows x s post) (imp : ∀ a s', post a s' → post' a s') :
    Ensures allows x s post' := by
  rw [ensures_iff] at h ⊢
  exact ⟨fun a s' hx => imp a s' (h.1 a s' hx), h.2⟩

theorem ensures_congr {x : StateT σ (Except Fault) α} {post post' : α → σ → Prop}
    (h : ∀ a s', post a s' ↔ post' a s') : Ensures allows x s post ↔ Ensures allows x s post' :=
  ⟨fun hx => hx.mono fun a s' => (h a s').mp, fun hx => hx.mono fun a s' => (h a s').mpr⟩

/-- **Two facts about one run hold together**, and the second may leave all faults to the
first. -/
theorem Ensures.and {x : StateT σ (Except Fault) α} {post post' : α → σ → Prop}
    (h : Ensures allows x s post) (h' : Ensures (fun _ => True) x s post') :
    Ensures allows x s fun a s' => post a s' ∧ post' a s' := by
  rw [ensures_iff] at h h' ⊢
  exact ⟨fun a s' hx => ⟨h.1 a s' hx, h'.1 a s' hx⟩, h.2⟩

theorem Ensures.allow {x : StateT σ (Except Fault) α} {post : α → σ → Prop}
    {allows' : Fault → Prop} (h : Ensures allows x s post) (imp : ∀ f, allows f → allows' f) :
    Ensures allows' x s post := by
  rw [ensures_iff] at h ⊢
  exact ⟨h.1, fun f hx => imp f (h.2 f hx)⟩

theorem Ensures.any {x : StateT σ (Except Fault) α} {post : α → σ → Prop}
    (h : Ensures allows x s post) : Ensures anyFault x s post := h.allow fun _ _ => trivial

/-- A result that satisfies a test is there. -/
theorem exists_ok_of_toOption {ε : Type} {x : Except ε α} {f : α → β} {b : β}
    (h : x.toOption.map f = some b) : ∃ a, x = .ok a ∧ f a = b := by
  cases x with
  | ok a => exact ⟨a, rfl, Option.some.inj h⟩
  | error fault => cases h

theorem mem_toOption {ε : Type} {x : Except ε α} {a : α} :
    a ∈ x.toOption.toList ↔ x = .ok a := by
  cases x with
  | ok b => simp [Except.toOption, eq_comm]
  | error fault => simp [Except.toOption]

/-- A run of which the result is known is made up of runs that are. -/
theorem exists_ok_of_bind {ε : Type} {x : Except ε α} {f : α → Except ε β} {b : β}
    (h : (x >>= f).toOption = some b) : ∃ a, x = .ok a ∧ (f a).toOption = some b := by
  cases x with
  | ok a => exact ⟨a, rfl, h⟩
  | error fault => cases h

/-! ### Runs piece by piece -/

@[simp] theorem ensures_pure {a : α} {post : α → σ → Prop} :
    Ensures allows (pure a) s post ↔ post a s := Iff.rfl

@[simp] theorem ensures_bind {x : StateT σ (Except Fault) α}
    {f : α → StateT σ (Except Fault) β} {post : β → σ → Prop} :
    Ensures allows (x >>= f) s post
      ↔ Ensures allows x s fun a s' => Ensures allows (f a) s' post := by
  simp only [Ensures, bind, StateT.bind, Except.bind]
  cases x s with
  | ok r => rfl
  | error fault => rfl

@[simp] theorem ensures_get {post : σ → σ → Prop} :
    Ensures allows (get : StateT σ (Except Fault) σ) s post ↔ post s s := Iff.rfl

@[simp] theorem ensures_modify {f : σ → σ} {post : PUnit → σ → Prop} :
    Ensures allows (modify f : StateT σ (Except Fault) PUnit) s post ↔ post ⟨⟩ (f s) := Iff.rfl

@[simp] theorem ensures_throw {fault : Fault} {post : α → σ → Prop} :
    Ensures allows (throw fault : StateT σ (Except Fault) α) s post ↔ allows fault := Iff.rfl

@[simp] theorem ensures_lift_ok {a : α} {post : α → σ → Prop} :
    Ensures allows (liftM (Except.ok a : Except Fault α) : StateT σ (Except Fault) α) s post
      ↔ post a s := Iff.rfl

@[simp] theorem ensures_lift_error {fault : Fault} {post : α → σ → Prop} :
    Ensures allows (liftM (Except.error fault : Except Fault α) : StateT σ (Except Fault) α) s
      post ↔ allows fault := Iff.rfl

theorem ensures_ite {c : Prop} [Decidable c] {x y : StateT σ (Except Fault) α}
    {post : α → σ → Prop} :
    Ensures allows (if c then x else y) s post
      ↔ (c → Ensures allows x s post) ∧ (¬ c → Ensures allows y s post) := by
  by_cases h : c <;> simp [h]

theorem ensures_checked {start stop : Nat} {post : Span → σ → Prop} (h : start ≤ stop)
    (hp : post ⟨start, stop⟩ s) :
    Ensures allows (liftM (Span.checked start stop) : StateT σ (Except Fault) Span) s post := by
  rw [Span.checked_of_le h]
  exact hp

/-! ### Steps on a part of the state -/

@[simp] theorem ensures_inContext {step : Step α} {engine : Engine}
    {post : α → Engine → Prop} :
    Ensures allows (Expand.inContext step) engine post
      ↔ Ensures allows step engine.context
          fun a cx => post a { engine with context := cx } := by
  simp only [Ensures, Expand.inContext, bind, Except.bind]
  cases step engine.context with
  | ok r => rfl
  | error fault => rfl

@[simp] theorem ensures_reporting {step : Step (α × List Message)} {engine : Engine}
    {post : α → Engine → Prop} :
    Ensures allows (Expand.reporting step) engine post
      ↔ Ensures allows step engine.context fun r cx =>
          post r.1 (Engine.emit { engine with context := cx } r.2) := by
  simp only [Expand.reporting, ensures_bind, ensures_inContext]
  rfl

@[simp] theorem ensures_expanding {step : Expand α} {reader : Reader}
    {post : α → Reader → Prop} :
    Ensures allows (Parse.expanding step) reader post
      ↔ Ensures allows step reader.engine
          fun a engine => post a { reader with engine := engine } := by
  simp only [Ensures, Parse.expanding, bind, Except.bind]
  cases step reader.engine with
  | ok r => rfl
  | error fault => rfl

/-! ### Runs that are known -/

section Known

variable {x : StateT σ (Except Fault) α} {f g : α → StateT σ (Except Fault) β} {s' : σ} {a : α}
  {fault : Fault}

theorem bind_of_ok (h : x s = .ok (a, s')) : (x >>= f) s = f a s' := by
  simp only [bind, StateT.bind, Except.bind, h]

theorem bind_of_error (h : x s = .error fault) : (x >>= f) s = .error fault := by
  simp only [bind, StateT.bind, Except.bind, h]

theorem ok_of_bind {b : β} {s'' : σ} (h : (x >>= f) s = .ok (b, s'')) :
    ∃ a s', x s = .ok (a, s') ∧ f a s' = .ok (b, s'') := by
  cases hx : x s with
  | ok r => exact ⟨r.1, r.2, rfl, (bind_of_ok hx).symm.trans h⟩
  | error fault =>
    rw [bind_of_error hx] at h
    cases h

theorem ok_of_inContext {step : Step α} {e e' : Engine} {a : α}
    (h : Expand.inContext step e = .ok (a, e')) :
    ∃ cx, step e.context = .ok (a, cx) ∧ e' = { e with context := cx } := by
  simp only [Expand.inContext, bind, Except.bind] at h
  split at h
  · cases h
  · rename_i r hr
    cases h
    exact ⟨r.2, hr, rfl⟩

theorem bind_congr_of_ok (h : ∀ a s', x s = .ok (a, s') → f a s' = g a s') :
    (x >>= f) s = (x >>= g) s := by
  cases hx : x s with
  | ok r => rw [bind_of_ok hx, bind_of_ok hx, h r.1 r.2 hx]
  | error fault => rw [bind_of_error hx, bind_of_error hx]

theorem bind_congr_left {y : StateT σ (Except Fault) α} (h : x s = y s) :
    (x >>= f) s = (y >>= f) s := by
  simp only [bind, StateT.bind, Except.bind, h]

end Known

end MacroMarkup
