import MacroMarkup.Proofs.Remarks
import MacroMarkup.Proofs.Run

/-!
# Runs under a larger limit

Generated content may nest up to a limit.  A run that does not meet its limit is the same
under every larger one, and a run that meets it should raise an alarm.

* `Limited`: states with a limit, in which alarms are counted.
* `PersistsAs`: a run that raises no alarm is the same under another limit.
* `PersistsAs.bind`, `PersistsAs.flagged`, `PersistsAs.get`, …: a run is the run of its pieces.
* `PersistsAs.inContext`, `PersistsAs.expanding`: steps on a part of the state.
-/

namespace MacroMarkup

/-- A state with a limit on how deep generated content may nest. -/
class Limited (σ : Type) where
  limit : σ → Nat
  withLimit : Nat → σ → σ
  /-- How often it was noted that the limit was met. -/
  alarms : σ → Nat

open Limited

/-! ### States with a limit -/

def Context.withLimit (limit : Nat) (cx : Context) : Context :=
  { cx with configuration := { cx.configuration with depthLimit := limit } }

/-- Acting on a context raises no alarm. -/
instance : Limited Context where
  limit cx := cx.configuration.depthLimit
  withLimit := Context.withLimit
  alarms _ := 0

/-- The limit was met without notice, or this was reported. -/
def Engine.alarms (e : Engine) : Nat := e.losses + e.emitted.countP Message.reportsLimit

instance : Limited Engine where
  limit e := limit e.context
  withLimit L e := { e with context := withLimit L e.context }
  alarms := Engine.alarms

def Sighting.withLimit (limit : Nat) (seen : Sighting) : Sighting :=
  { seen with context := seen.context.withLimit limit }

def Boundary.withLimit (limit : Nat) (passed : Boundary) : Boundary :=
  { passed with context := passed.context.withLimit limit }

instance : Limited Reader where
  limit r := limit r.engine
  withLimit L r :=
    { r with
      engine := withLimit L r.engine
      sightings := r.sightings.map (·.withLimit L)
      boundaries := r.boundaries.map (·.withLimit L) }
  alarms r := alarms r.engine

/-! ### The law -/

section Law

variable {σ α β : Type} [Limited σ] {L : Nat} {ok : α → Prop} {ok' : β → Prop} {s : σ}

/-- If the run of `x` from `s` ends without alarm and with a result that is `ok`, then the
run of `x'` under the limit `L`, which is not smaller, ends the same. -/
def PersistsAs (L : Nat) (ok : α → Prop) (x x' : StateT σ (Except Fault) α) (s : σ) : Prop :=
  limit s ≤ L → ∀ a s', x s = .ok (a, s') → alarms s ≤ alarms s' ∧ limit s' = limit s ∧
    (alarms s' = alarms s → ok a → x' (withLimit L s) = .ok (a, withLimit L s'))

abbrev anyResult : α → Prop := fun _ => True

/-- If the run of `x` from `s` ends without alarm, then its run under the limit `L` ends the
same. -/
abbrev Persists (L : Nat) (x : StateT σ (Except Fault) α) (s : σ) : Prop :=
  PersistsAs L anyResult x x s

theorem PersistsAs.pure {a : α} : PersistsAs L ok (pure a) (pure a) s := by
  intro _ a' s' hrun
  cases hrun
  exact ⟨Nat.le_refl _, rfl, fun _ _ => rfl⟩

theorem PersistsAs.throw {fault : Fault} {x' : StateT σ (Except Fault) α} :
    PersistsAs L ok (throw fault) x' s := by
  intro _ a s' hrun
  cases hrun

theorem PersistsAs.weaken {x x' : StateT σ (Except Fault) α} {ok₁ : α → Prop}
    (h : PersistsAs L ok₁ x x' s) (imp : ∀ a, ok a → ok₁ a) : PersistsAs L ok x x' s := by
  intro hlimit a s' hrun
  obtain ⟨halarms, hsame, hpersists⟩ := h hlimit a s' hrun
  exact ⟨halarms, hsame, fun hquiet hok => hpersists hquiet (imp a hok)⟩

theorem PersistsAs.ensures {x x' : StateT σ (Except Fault) α} (h : PersistsAs L ok x x' s)
    (hlimit : limit s ≤ L) : Ensures anyFault x s fun _ s' =>
      alarms s ≤ alarms s' ∧ limit s' = limit s := by
  refine ensures_iff.mpr ⟨fun a s' hrun => ?_, fun _ _ => trivial⟩
  obtain ⟨halarms, hsame, -⟩ := h hlimit a s' hrun
  exact ⟨halarms, hsame⟩

/-- **A run persists if its pieces do**, where a first result that is not `ok` must lead to
an alarm or to a result that is not `ok`. -/
theorem PersistsAs.flagged {x x' : StateT σ (Except Fault) α}
    {f f' : α → StateT σ (Except Fault) β} (hx : PersistsAs L ok x x' s)
    (hf : ∀ a s', ok a → PersistsAs L ok' (f a) (f' a) s')
    (hbad : ∀ a s', ¬ ok a → limit s' ≤ L → Ensures anyFault (f a) s' fun b s'' =>
      alarms s' ≤ alarms s'' ∧ limit s'' = limit s' ∧ (alarms s'' = alarms s' → ¬ ok' b)) :
    PersistsAs L ok' (x >>= f) (x' >>= f') s := by
  intro hlimit b s'' hrun
  simp only [bind, StateT.bind, Except.bind] at hrun ⊢
  cases hfirst : x s with
  | error fault =>
    rw [hfirst] at hrun
    cases hrun
  | ok r =>
    obtain ⟨a, s'⟩ := r
    rw [hfirst] at hrun
    obtain ⟨halarms, hsame, hpersists⟩ := hx hlimit a s' hfirst
    have hlimit' : limit s' ≤ L := hsame ▸ hlimit
    by_cases hok : ok a
    · obtain ⟨halarms', hsame', hpersists'⟩ := hf a s' hok hlimit' b s'' hrun
      refine ⟨Nat.le_trans halarms halarms', hsame'.trans hsame, fun hquiet hok' => ?_⟩
      rw [hpersists (by omega) hok]
      exact hpersists' (by omega) hok'
    · obtain ⟨halarms', hsame', hnot⟩ := (hbad a s' hok hlimit').of_ok hrun
      refine ⟨Nat.le_trans halarms halarms', hsame'.trans hsame, fun hquiet hok' => ?_⟩
      exact absurd hok' (hnot (by omega))

theorem PersistsAs.bind {x x' : StateT σ (Except Fault) α}
    {f f' : α → StateT σ (Except Fault) β} (hx : PersistsAs L anyResult x x' s)
    (hf : ∀ a s', PersistsAs L ok' (f a) (f' a) s') : PersistsAs L ok' (x >>= f) (x' >>= f') s :=
  hx.flagged (fun a s' _ => hf a s') fun _ _ hnot => absurd trivial hnot

/-- Whether a result is `ok` may be told after it was put into another form. -/
theorem PersistsAs.map {x x' : StateT σ (Except Fault) α} {g : α → β} (hx : PersistsAs L ok x x' s)
    (hg : ∀ a, ok' (g a) → ok a) :
    PersistsAs L ok' (x >>= fun a => Pure.pure (g a)) (x' >>= fun a => Pure.pure (g a)) s :=
  hx.flagged (fun _ _ _ => .pure) fun a _ hnot _ =>
    ⟨Nat.le_refl _, rfl, fun _ hok' => hnot (hg a hok')⟩

/-- The second program sees the state under the other limit. -/
theorem PersistsAs.get {f f' : σ → StateT σ (Except Fault) β}
    (h : PersistsAs L ok' (f s) (f' (withLimit L s)) s) :
    PersistsAs L ok' (MonadState.get >>= f) (MonadState.get >>= f') s := h

theorem PersistsAs.modify {g : σ → σ} (halarms : alarms s ≤ alarms (g s))
    (hlimit : limit (g s) = limit s) (hcommutes : g (withLimit L s) = withLimit L (g s)) :
    Persists L (modify g) s := by
  intro _ a s' hrun
  cases hrun
  refine ⟨halarms, hlimit, fun _ _ => ?_⟩
  exact congrArg (fun s => Except.ok (PUnit.unit, s)) hcommutes

theorem PersistsAs.ite {c : Prop} [Decidable c] {x x' y y' : StateT σ (Except Fault) α}
    (ht : c → PersistsAs L ok x x' s) (he : ¬ c → PersistsAs L ok y y' s) :
    PersistsAs L ok (if c then x else y) (if c then x' else y') s := by
  by_cases h : c
  · rw [if_pos h, if_pos h]
    exact ht h
  · rw [if_neg h, if_neg h]
    exact he h

theorem PersistsAs.lift {x : Except Fault α} :
    Persists L (liftM x : StateT σ (Except Fault) α) s := by
  cases x with
  | ok a => exact .pure
  | error fault => exact .throw

end Law

/-! ### Steps on a part of the state -/

section Parts

variable {α : Type} {L : Nat} {ok : α → Prop}

theorem PersistsAs.inContext {step : Step α} {e : Engine} (h : Persists L step e.context) :
    Persists L (Expand.inContext step) e := by
  intro hlimit a e' hrun
  simp only [Expand.inContext, Bind.bind, Except.bind] at hrun ⊢
  cases hstep : step e.context with
  | error fault =>
    rw [hstep] at hrun
    cases hrun
  | ok r =>
    rw [hstep] at hrun
    cases hrun
    obtain ⟨-, hsame, hpersists⟩ := h hlimit r.1 r.2 hstep
    refine ⟨Nat.le_refl _, hsame, fun _ hok => ?_⟩
    have hstep' : step (withLimit L e).context = .ok (r.1, withLimit L r.2) := hpersists rfl hok
    rw [hstep']
    rfl

theorem PersistsAs.expanding {step step' : Expand α} {r : Reader}
    (h : PersistsAs L ok step step' r.engine) :
    PersistsAs L ok (Parse.expanding step) (Parse.expanding step') r := by
  intro hlimit a r' hrun
  simp only [Parse.expanding, Bind.bind, Except.bind] at hrun ⊢
  cases hstep : step r.engine with
  | error fault =>
    rw [hstep] at hrun
    cases hrun
  | ok done =>
    rw [hstep] at hrun
    cases hrun
    obtain ⟨halarms, hsame, hpersists⟩ := h hlimit done.1 done.2 hstep
    refine ⟨halarms, hsame, fun hquiet hok => ?_⟩
    have hstep' : step' (withLimit L r).engine = .ok (done.1, withLimit L done.2) :=
      hpersists hquiet hok
    rw [hstep']
    rfl

theorem alarms_emit (e : Engine) (messages : List Message) :
    alarms (e.emit messages) = alarms e + messages.countP Message.reportsLimit := by
  have hrefer : ∀ message, (e.referring.foldl Message.referred message).reportsLimit
      = message.reportsLimit := reportsLimit_referred e.referring
  have hcount : (e.emit messages).emitted.countP Message.reportsLimit
      = messages.countP Message.reportsLimit + e.emitted.countP Message.reportsLimit := by
    simp only [Engine.emit, List.countP_append, List.countP_reverse, List.countP_map]
    congr 2
    funext message
    exact hrefer message
  show e.losses + (e.emit messages).emitted.countP _ = e.losses + e.emitted.countP _ + _
  omega

theorem persists_emit {messages : List Message} {e : Engine} :
    Persists L (Expand.emit messages) e := by
  refine .modify ?_ rfl rfl
  rw [alarms_emit]
  exact Nat.le_add_right _ _

theorem PersistsAs.reporting {step : Step (α × List Message)} {e : Engine}
    (h : Persists L step e.context) : Persists L (Expand.reporting step) e := by
  refine .bind (.inContext h) fun r e' => ?_
  exact .bind persists_emit fun _ _ => .pure

end Parts

end MacroMarkup
