import MacroMarkup.Proofs.History
import MacroMarkup.Proofs.MirroredWalk
import MacroMarkup.Proofs.Scanning
import MacroMarkup.Proofs.Seam

/-!
# Two readers in lockstep

One reader reads a source, the other one the mended source.  They do the same up to the gap, where
only the first one reports the message, and the same from there on, with the same rest ahead of
them.  What a step needs for that is known only when the first run has ended: whether the message
was reported, and that no mark was missing.  So a step says what it needs in the direction of the
run and what has to hold in the other direction.

* `Stage`, `At`: before the gap or behind it, and how the two readers agree there.
* `Inv`: what holds of the first reader anyway.  `Clean`, `Fine`: what is known when it ends.
* `LeadsBack`: where the first run ends well, it started well.
* `InStep`: **where the first run ends well, the second one is in step with it.**
* `InStep.bind_of`: two steps one after the other.
* `InStep.scan`: a step that depends on the text ahead; marks and characters are such steps.
* `InStep.expanding`: a step of expansion, which does not look at places.
-/

namespace MacroMarkup

open Parse
open Placed (placeless)

/-- The same but for places. -/
abbrev Alike {α : Type} [Placed α] (a b : α) : Prop := placeless b = placeless a

/-! ### Engines in step -/

namespace Engine

/-- The engine without places and without messages. -/
def pivot (e : Engine) : Engine :=
  { e with context := placeless e.context, emitted := [], referring := placeless e.referring }

theorem mirror_pivot (e : Engine) : Mirror e.emitted [] e e.pivot :=
  ⟨rfl, rfl, rfl, rfl, rfl, rfl, [], [], rfl, rfl, .nil⟩

theorem Mirror.pivot_eq {before : List Message} {e p : Engine} (h : Mirror before [] e p) :
    e.pivot = { p with emitted := [] } := by
  obtain ⟨hcontext, hreferring, hdelay, hrefusals, hlosses, hanticipations, -⟩ := h
  rw [pivot, hcontext, hreferring, hdelay, hrefusals, hlosses, hanticipations]

variable {α β γ : Type} {R : α → γ → Prop} {R' : β → γ → Prop} {e e₁ e' : Engine} {a : α}
  {x : Expand α} {y : Expand β} {z : Expand γ}

/-- A run reports nothing about the layout. -/
theorem news_of_mirrors (hx : Mirrors (Mirror e.emitted []) R x z) (hrun : x e = .ok (a, e₁)) :
    ∃ c p news, z e.pivot = .ok (c, p) ∧ R a c ∧ Mirror e.emitted [] e₁ p ∧
      e₁.emitted = news ++ e.emitted ∧ p.emitted = placeless news ∧
      ∀ message ∈ news, message.isLayout = false := by
  have hends := hx e e.pivot e.mirror_pivot
  rw [hrun] at hends
  generalize hz : z e.pivot = right at hends
  cases hends with
  | @ok _ c _ p hR hmirror =>
    obtain ⟨news, news', hnews, hnews', hreported⟩ := hmirror.emitted
    rw [List.append_nil] at hnews'
    exact ⟨c, p, news, rfl, hR, hmirror, hnews, hnews'.trans hreported.same, hreported.content⟩

/-- **Two engines that are the same but for places stay so**: what the second run does is what the
first one does, unless it meets a fault that cannot be met in a well-formed context. -/
theorem ensures_of_mirrors {e₂ : Engine} {p : Engine} {c : γ} {news : List Message}
    (hy : Mirrors (Mirror e₂.emitted []) R' y z) (he : e₂.pivot = e.pivot)
    (hz : z e.pivot = .ok (c, p)) (hnews : p.emitted = placeless news) :
    Ensures (· ≠ .missingSlot) y e₂ fun b e₂' => R' b c ∧ Mirror e₂.emitted [] e₂' p ∧
      ∃ news', e₂'.emitted = news' ++ e₂.emitted ∧ placeless news' = placeless news := by
  have hends := hy e₂ e₂.pivot e₂.mirror_pivot
  rw [he, hz] at hends
  rw [Ensures]
  generalize y e₂ = left at hends
  cases hends with
  | ok hR hmirror =>
    obtain ⟨news', news'', hnews', hnews'', hreported⟩ := hmirror.emitted
    rw [List.append_nil] at hnews''
    exact ⟨hR, hmirror, news', hnews', by rw [← hreported.same, ← hnews'', hnews]⟩
  | reversed result => exact fun h => by cases h

end Engine

/-! ### Readers in step -/

/-- No bracket in the name closes a head. -/
abbrev Unclosing (name : String) : Prop := ']' ∉ name.toList

/-- Where a reader stands: the gap lies ahead of it or behind it. -/
inductive Stage where
  | ahead
  | behind

def Reader.advance (r : Reader) (n : Nat) : Reader := { r with cursor := r.cursor.advance n }

structure Lasting where
  Holds : Context → Prop
  stays : ∀ {cx cx'}, Holds cx → (Upkeep.history Unclosing).Keeps cx cx' → Holds cx'

namespace Mend

variable {M : Mend} {K : Lasting}

/-- What both rests have behind the text that they share. -/
def tail (M : Mend) : Stage → List Char
  | .ahead => M.gap ++ M.after
  | .behind => []

def tail' (M : Mend) : Stage → List Char
  | .ahead => M.fill ++ M.after
  | .behind => []

structure Inv (M : Mend) (K : Lasting) (r : Reader) : Prop where
  anchored : r.cursor.Anchored M.source
  source : r.cursor.source = M.source
  referring : r.engine.referring = []
  traced : r.engine.context.Traced Unclosing
  marks : r.engine.context.configuration.interpolators.All fun i =>
    Unclosing i.name ∧ Unclosing i.closing
  lasting : K.Holds r.engine.context

/-- So far no mark was missed, and no name was registered with a bracket that closes a head. -/
structure Clean (r : Reader) : Prop where
  complete : ∀ m ∈ r.engine.emitted, ¬ (m.severity = .error ∧ m.code = 1)
  history : ∀ name ∈ r.engine.context.configuration.history, Unclosing name

/-- The message was reported already, or it will be at the gap, and the text before the gap is in
`P`. -/
structure Fine (M : Mend) (P : List Char → Prop) (r : Reader) : Prop where
  clean : Clean r
  place : M.message ∈ r.engine.emitted ∨
    M.Arises ∧ ∃ w, r.cursor.rest = w ++ M.tail .ahead ∧ P w

theorem Fine.mono {P P' : List Char → Prop} {r : Reader} (h : M.Fine P r)
    (imp : M.Arises → ∀ w, P w → P' w) : M.Fine P' r :=
  ⟨h.clean, h.place.imp_right fun ⟨hM, w, hw, hP⟩ => ⟨hM, w, hw, imp hM w hP⟩⟩

def Matches (M : Mend) : Stage → List Message → List Message → Prop
  | .ahead, messages, messages' => Alike messages messages' ∧ M.message ∉ messages
  | .behind, messages, messages' => ∃ earlier later earlier' later',
    messages = later ++ M.message :: earlier ∧ messages' = later' ++ earlier' ∧
      Alike earlier earlier' ∧ Alike later later'

theorem Matches.append {φ : Stage} {messages messages' news news' : List Message}
    (h : M.Matches φ messages messages') (hnews : Alike news news')
    (hmem : φ = .ahead → M.message ∉ news) :
    M.Matches φ (news ++ messages) (news' ++ messages') := by
  cases φ with
  | ahead =>
    refine ⟨by rw [Alike, placeless_append, placeless_append, hnews, h.1], ?_⟩
    exact fun hmem' => (List.mem_append.mp hmem').elim (hmem rfl) h.2
  | behind =>
    obtain ⟨earlier, later, earlier', later', rfl, rfl, hearlier, hlater⟩ := h
    refine ⟨earlier, news ++ later, earlier', news' ++ later', by simp, by simp, hearlier, ?_⟩
    rw [Alike, placeless_append, placeless_append, hnews, hlater]

/-- Both readers stand at the same place, before or behind the gap. -/
structure At (M : Mend) (φ : Stage) (r r' : Reader) : Prop where
  anchored : r'.cursor.Anchored M.mended
  source : r'.cursor.source = M.mended
  rest : ∃ w, r.cursor.rest = w ++ M.tail φ ∧ r'.cursor.rest = w ++ M.tail' φ
  late : φ = .behind → r.cursor.rest <:+ M.after
  openGroups : r'.openGroups = r.openGroups
  engine : r'.engine.pivot = r.engine.pivot
  messages : M.Matches φ r.engine.emitted r'.engine.emitted

def Tied (M : Mend) (S : Stage → Prop) (r r' : Reader) : Prop := ∃ φ, S φ ∧ M.At φ r r'

/-- Where the first run ends well, it started well. -/
def LeadsBack (M : Mend) (K : Lasting) {α : Type} (P : List Char → Prop) (x : Parse α)
    (Q : α → List Char → Prop) : Prop :=
  ∀ r a r', M.Inv K r → x r = .ok (a, r') → M.Inv K r' ∧ (M.Fine (Q a) r' → M.Fine P r)

/-- Where the first run ends well, the second one is in step with it. -/
structure InStep (M : Mend) (K : Lasting) {α β : Type} (T : Reader → Reader → Prop)
    (P : List Char → Prop) (x : Parse α) (y : Parse β) (Q : α → List Char → Prop)
    (R : α → β → Prop) : Prop where
  back : M.LeadsBack K P x Q
  same : ∀ r a r' s, M.Inv K r → x r = .ok (a, r') → M.Fine (Q a) r' → T r s →
    Ensures (· ≠ .missingSlot) y s fun b s' => R a b ∧ T r' s'

section Rules

variable {α β γ δ : Type} {T : Reader → Reader → Prop} {P P' : List Char → Prop}
  {x : Parse α} {y : Parse β} {f : α → Parse γ} {g : β → Parse δ}
  {Mid : α → List Char → Prop} {Q : γ → List Char → Prop} {R : α → β → Prop} {R' : γ → δ → Prop}

theorem LeadsBack.bind_of (hx : M.LeadsBack K P x Mid)
    (hf : ∀ r a r', M.Inv K r → x r = .ok (a, r') → M.LeadsBack K (Mid a) (f a) Q) :
    M.LeadsBack K P (x >>= f) Q := by
  intro r c r'' hr hrun
  obtain ⟨a, r', hx', hf'⟩ := ok_of_bind hrun
  obtain ⟨hr', hback⟩ := hx r a r' hr hx'
  obtain ⟨hr'', hback'⟩ := hf r a r' hr hx' r' c r'' hr' hf'
  exact ⟨hr'', fun h => hback (hback' h)⟩

theorem LeadsBack.bind (hx : M.LeadsBack K P x Mid) (hf : ∀ a, M.LeadsBack K (Mid a) (f a) Q) :
    M.LeadsBack K P (x >>= f) Q :=
  hx.bind_of fun _ a _ _ _ => hf a

theorem LeadsBack.mono {Q' : α → List Char → Prop} (h : M.LeadsBack K P x Q')
    (hP : M.Arises → ∀ w, P w → P' w) (hQ : M.Arises → ∀ a w, Mid a w → Q' a w) :
    M.LeadsBack K P' x Mid := by
  intro r a r' hr hrun
  obtain ⟨hr', hback⟩ := h r a r' hr hrun
  exact ⟨hr', fun hfine => (hback (hfine.mono fun hM => hQ hM a)).mono hP⟩

theorem InStep.mono {Q' : α → List Char → Prop} (h : M.InStep K T P x y Q' R)
    (hP : M.Arises → ∀ w, P w → P' w) (hQ : M.Arises → ∀ a w, Mid a w → Q' a w) :
    M.InStep K T P' x y Mid R where
  back := h.back.mono hP hQ
  same r a r' s hr hrun hfine hT := h.same r a r' s hr hrun (hfine.mono fun hM => hQ hM a) hT

theorem InStep.weaken {R₁ : α → β → Prop} (h : M.InStep K T P x y Mid R)
    (imp : ∀ a b, R a b → R₁ a b) : M.InStep K T P x y Mid R₁ where
  back := h.back
  same r a r' s hr hrun hfine hT :=
    (h.same r a r' s hr hrun hfine hT).mono fun _ _ hb => ⟨imp _ _ hb.1, hb.2⟩

theorem InStep.knowing {A : α → Prop} (h : M.InStep K T P x y Mid R)
    (hA : ∀ r a r', M.Inv K r → x r = .ok (a, r') → A a) :
    M.InStep K T P x y Mid fun a b => R a b ∧ A a where
  back := h.back
  same r a r' s hr hrun hfine hT :=
    (h.same r a r' s hr hrun hfine hT).mono fun _ _ hb => ⟨⟨hb.1, hA r a r' hr hrun⟩, hb.2⟩

/-- Two steps one after the other; the second one may rely on what the first one answers. -/
theorem InStep.bind_of (hx : M.InStep K T P x y Mid R)
    (hback : ∀ r a r', M.Inv K r → x r = .ok (a, r') → M.LeadsBack K (Mid a) (f a) Q)
    (hf : ∀ a b, R a b → M.InStep K T (Mid a) (f a) (g b) Q R') :
    M.InStep K T P (x >>= f) (y >>= g) Q R' where
  back := hx.back.bind_of hback
  same r c r'' s hr hrun hfine hT := by
    obtain ⟨a, r', hx', hf'⟩ := ok_of_bind hrun
    obtain ⟨hr', -⟩ := hx.back r a r' hr hx'
    have hmid := (hback r a r' hr hx' r' c r'' hr' hf').2 hfine
    rw [ensures_bind]
    refine (hx.same r a r' s hr hx' hmid hT).mono ?_
    intro b s' hanswer
    exact (hf a b hanswer.1).same r' c r'' s' hr' hf' hfine hanswer.2

theorem InStep.bind (hx : M.InStep K T P x y Mid R) (hback : ∀ a, M.LeadsBack K (Mid a) (f a) Q)
    (hf : ∀ a b, R a b → M.InStep K T (Mid a) (f a) (g b) Q R') :
    M.InStep K T P (x >>= f) (y >>= g) Q R' :=
  hx.bind_of (fun _ a _ _ _ => hback a) hf

/-- Every answer of the first run may be met by one of the second run. -/
theorem InStep.bind_of_exists (hx : M.InStep K T P x y Mid R)
    (hanswers : ∀ r a r', M.Inv K r → x r = .ok (a, r') → ∃ b, R a b)
    (hf : ∀ a b, R a b → M.InStep K T (Mid a) (f a) (g b) Q R') :
    M.InStep K T P (x >>= f) (y >>= g) Q R' :=
  hx.bind_of (fun r a r' hr hrun => by
    obtain ⟨b, hR⟩ := hanswers r a r' hr hrun
    exact (hf a b hR).back) hf

theorem InStep.bind_of_refl {x y : Parse α} {f : α → Parse γ} {g : α → Parse δ} {R : α → α → Prop}
    (hx : M.InStep K T P x y Mid R) (hrefl : ∀ a, R a a)
    (hf : ∀ a b, R a b → M.InStep K T (Mid a) (f a) (g b) Q R') :
    M.InStep K T P (x >>= f) (y >>= g) Q R' :=
  hx.bind (fun a => (hf a a (hrefl a)).back) hf

theorem LeadsBack.pure {a : α} {Q : α → List Char → Prop} (hQ : M.Arises → ∀ w, Q a w → P w) :
    M.LeadsBack K P (pure a) Q := by
  intro r a' r' hr hrun
  cases hrun
  exact ⟨hr, fun hfine => hfine.mono hQ⟩

theorem InStep.pure {a : α} {b : β} {Q : α → List Char → Prop} (hR : R a b)
    (hQ : M.Arises → ∀ w, Q a w → P w) :
    M.InStep K T P (pure a : Parse α) (pure b : Parse β) Q R where
  back := .pure hQ
  same := by
    intro r a' r' s hr hrun _ hT
    cases hrun
    exact ⟨hR, hT⟩

theorem InStep.throw {fault : Fault} : M.InStep K T P (throw fault : Parse α) y Mid R where
  back _ _ _ _ hrun := by cases hrun
  same _ _ _ _ _ hrun := by cases hrun

/-- The second run may come to the end of its bound. -/
theorem InStep.of_succ {y : Nat → Parse β} (hzero : y 0 = MonadExcept.throw Fault.outOfFuel)
    (h : ∀ fuel, M.InStep K T P x (y (fuel + 1)) Mid R) (fuel : Nat) :
    M.InStep K T P x (y fuel) Mid R := by
  cases fuel with
  | succ fuel => exact h fuel
  | zero =>
    refine ⟨(h 0).back, fun _ _ _ _ _ _ _ _ => ?_⟩
    rw [hzero, ensures_throw]
    intro hfault
    cases hfault

theorem InStep.ite {c c' : Prop} [Decidable c] [Decidable c'] {x' : Parse α} {y' : Parse β}
    (hc : c ↔ c') (ht : c → M.InStep K T P x y Mid R) (he : ¬ c → M.InStep K T P x' y' Mid R) :
    M.InStep K T P (if c then x else x') (if c' then y else y') Mid R := by
  by_cases h : c
  · rw [if_pos h, if_pos (hc.mp h)]
    exact ht h
  · rw [if_neg h, if_neg fun h' => h (hc.mpr h')]
    exact he h

theorem InStep.get {f : Reader → Parse γ} {g : Reader → Parse δ}
    (hback : ∀ r, M.LeadsBack K P (f r) Q)
    (hsame : ∀ r s, M.Inv K r → M.Fine P r → T r s → M.InStep K T P (f r) (g s) Q R') :
    M.InStep K T P (get >>= f) (get >>= g) Q R' where
  back r := hback r r
  same r c r' s hr hrun hfine hT :=
    (hsame r s hr ((hback r r c r' hr hrun).2 hfine) hT).same r c r' s hr hrun hfine hT

theorem InStep.get_any {f : Reader → Parse γ} {g : Reader → Parse δ}
    (h : ∀ r s, M.InStep K T P (f r) (g s) Q R') :
    M.InStep K T P (MonadState.get >>= f) (MonadState.get >>= g) Q R' :=
  .get (fun r => (h r r).back) fun r s _ _ _ => h r s

theorem LeadsBack.of_still (h : ∀ r a r', x r = .ok (a, r') → r' = r) :
    M.LeadsBack K P x fun _ => P := by
  intro r a r' hr hrun
  cases h r a r' hrun
  exact ⟨hr, id⟩

end Rules

/-! ### Steps that look at what is next and move on -/

theorem Inv.advanced {r : Reader} (h : M.Inv K r) (n : Nat) : M.Inv K (r.advance n) :=
  ⟨(Cursor.passes_advance _ n).anchored h.anchored, h.source, h.referring, h.traced, h.marks,
    h.lasting⟩

theorem At.advanced {φ : Stage} {r s : Reader} {n : Nat} (h : M.At φ r s) {w : List Char}
    (hr : (r.advance n).cursor.rest = w ++ M.tail φ)
    (hs : (s.advance n).cursor.rest = w ++ M.tail' φ) :
    M.At φ (r.advance n) (s.advance n) :=
  ⟨(Cursor.passes_advance _ n).anchored h.anchored, h.source, ⟨w, hr, hs⟩,
    fun hφ => (List.drop_suffix _ _).trans (h.late hφ), h.openGroups, h.engine, h.messages⟩

section Scans

variable {α : Type} {S : Stage → Prop} {P : List Char → Prop} {Q : α → List Char → Prop}
  {x : Parse α}

theorem exists_passed {rest left : List Char} {n : Nat} (hle : n ≤ rest.length)
    (h : rest.drop n = left) : ∃ passed, rest = passed ++ left ∧ n = passed.length :=
  ⟨rest.take n, by rw [← h, List.take_append_drop], (List.length_take_of_le hle).symm⟩

theorem Fine.of_advanced {Q : List Char → Prop} {r : Reader} {n : Nat}
    (h : M.Fine Q (r.advance n)) (hle : n ≤ r.cursor.rest.length)
    (hback : M.Arises → ∀ passed w, r.cursor.rest = passed ++ (w ++ M.tail .ahead) →
      n = passed.length → Q w → P (passed ++ w)) : M.Fine P r := by
  refine ⟨⟨h.clean.complete, h.clean.history⟩, h.place.imp_right ?_⟩
  rintro ⟨hM, w, hw, hQ⟩
  obtain ⟨passed, hrest, hcount⟩ := exists_passed hle hw
  rw [hrest]
  exact ⟨hM, passed ++ w, (List.append_assoc _ _ _).symm, hback hM passed w hrest hcount hQ⟩

/-- Two readers that stand behind each other pass the same text before the gap. -/
theorem At.passed {r s : Reader} {passed w : List Char} (h : M.At .ahead r s)
    (hrest : r.cursor.rest = passed ++ (w ++ M.tail .ahead)) :
    s.cursor.rest = passed ++ (w ++ M.tail' .ahead) ∧
      M.At .ahead (r.advance passed.length) (s.advance passed.length) := by
  obtain ⟨w₀, hr₀, hs₀⟩ := h.rest
  have hs : s.cursor.rest = passed ++ (w ++ M.tail' .ahead) := by
    rw [hr₀, ← List.append_assoc] at hrest
    rw [hs₀, List.append_cancel_right hrest, List.append_assoc]
  refine ⟨hs, h.advanced (w := w) ?_ ?_⟩
  · show r.cursor.rest.drop _ = _
    rw [hrest, List.drop_left]
  · show s.cursor.rest.drop _ = _
    rw [hs, List.drop_left]

theorem At.advanced_behind {r s : Reader} (h : M.At .behind r s) (n : Nat) :
    s.cursor.rest = r.cursor.rest ∧ M.At .behind (r.advance n) (s.advance n) := by
  obtain ⟨w, hr, hs⟩ := h.rest
  have hrest : s.cursor.rest = r.cursor.rest := hs.trans hr.symm
  refine ⟨hrest, h.advanced (List.append_nil _).symm ?_⟩
  exact (congrArg (List.drop _) hrest).trans (List.append_nil _).symm

/-- **A step that depends on the text ahead.**  It is in step if it gives the same answer and
passes as much in the mended source. -/
theorem InStep.scan (answer : List Char → α) (count : List Char → Nat)
    (hx : ∀ r, x r = .ok (answer r.cursor.rest, r.advance (count r.cursor.rest)))
    (hle : ∀ rest, count rest ≤ rest.length)
    (hback : M.Arises → ∀ passed w, count (passed ++ (w ++ M.tail .ahead)) = passed.length →
      Q (answer (passed ++ (w ++ M.tail .ahead))) w → P (passed ++ w))
    (hsame : M.Arises → ∀ passed w, count (passed ++ (w ++ M.tail .ahead)) = passed.length →
      Q (answer (passed ++ (w ++ M.tail .ahead))) w →
      answer (passed ++ (w ++ M.tail' .ahead)) = answer (passed ++ (w ++ M.tail .ahead)) ∧
        count (passed ++ (w ++ M.tail' .ahead)) = passed.length) :
    M.InStep K (M.Tied S) P x x Q Eq where
  back := by
    intro r a r' hr hrun
    rw [hx] at hrun
    cases hrun
    refine ⟨hr.advanced _, fun hfine => hfine.of_advanced (hle _) ?_⟩
    intro hM passed w hrest hcount hQ
    rw [hrest] at hcount hQ
    exact hback hM passed w hcount hQ
  same := by
    rintro r a r' s hr hrun hfine ⟨φ, hφ, hat⟩
    rw [hx] at hrun
    cases hrun
    rw [Ensures, hx]
    cases φ with
    | behind =>
      obtain ⟨hrest, hat'⟩ := hat.advanced_behind (count r.cursor.rest)
      rw [hrest]
      exact ⟨rfl, .behind, hφ, hat'⟩
    | ahead =>
      obtain ⟨hM, w, hw, hQ⟩ := hfine.place.resolve_left hat.messages.2
      obtain ⟨passed, hrest, hcount⟩ := exists_passed (hle _) hw
      obtain ⟨hs, hat'⟩ := hat.passed hrest
      have hsame := hsame hM passed w (hrest ▸ hcount) (hrest ▸ hQ)
      rw [← hs, ← hrest] at hsame
      rw [hsame.1, hsame.2, hcount]
      exact ⟨rfl, .ahead, hφ, hat'⟩

end Scans

/-! ### Steps of expansion -/

section Expanding

variable {α β γ : Type} {S : Stage → Prop} {P : List Char → Prop} {R : α → γ → Prop}
  {R' : β → γ → Prop} {x : Expand α} {y : Expand β} {z : Expand γ}

theorem not_mem_of_isLayout {news : List Message}
    (h : ∀ message ∈ news, message.isLayout = false) : M.message ∉ news := by
  intro hmem
  have := h _ hmem
  rw [M.isLayout_message] at this
  cases this

theorem LeadsBack.expanding
    (hkeeps : ∀ e : Engine, e.context.Traced Unclosing → K.Holds e.context →
      Ensures anyFault x e fun _ e' => e.Upholds (.history Unclosing) e')
    (hx : ∀ before, Mirrors (Engine.Mirror before []) R x z) :
    M.LeadsBack K P (expanding x) fun _ => P := by
  intro r a r' hr hrun
  simp only [Parse.expanding, Bind.bind, Except.bind] at hrun
  cases hx' : x r.engine with
  | error fault =>
    rw [hx'] at hrun
    cases hrun
  | ok answer =>
    obtain ⟨a', e'⟩ := answer
    rw [hx'] at hrun
    cases hrun
    obtain ⟨hkept, hreferring⟩ := (hkeeps r.engine hr.traced hr.lasting).of_ok hx'
    have htraced : e'.context.Traced Unclosing := hkept.1
    have hgrows : r.engine.context.configuration.Grows e'.context.configuration := hkept.2
    obtain ⟨c, p, news, -, -, -, hnews, -, hlayout⟩ := Engine.news_of_mirrors (hx _) hx'
    refine ⟨⟨hr.anchored, hr.source, hreferring.trans hr.referring, htraced, ?_,
        K.stays hr.lasting hkept⟩,
      fun hfine => ⟨⟨fun m hm => ?_, fun name hname => ?_⟩, ?_⟩⟩
    · show e'.context.configuration.interpolators.All _
      rw [hgrows.2]
      exact hr.marks
    · refine hfine.clean.complete m ?_
      show m ∈ e'.emitted
      rw [hnews]
      exact List.mem_append_right _ hm
    · exact hfine.clean.history name (hgrows.1.subset hname)
    · refine hfine.place.imp_left fun hmem => ?_
      change M.message ∈ e'.emitted at hmem
      rw [hnews] at hmem
      exact (List.mem_append.mp hmem).resolve_left (not_mem_of_isLayout hlayout)

/-- **A step of expansion that does not look at places is in step**, as both runs do the same. -/
theorem InStep.expanding
    (hkeeps : ∀ e : Engine, e.context.Traced Unclosing → K.Holds e.context →
      Ensures anyFault x e fun _ e' => e.Upholds (.history Unclosing) e')
    (hx : ∀ before, Mirrors (Engine.Mirror before []) R x z)
    (hy : ∀ before, Mirrors (Engine.Mirror before []) R' y z) :
    M.InStep K (M.Tied S) P (Parse.expanding x) (Parse.expanding y) (fun _ => P) fun a b =>
      ∃ c, R a c ∧ R' b c where
  back := .expanding hkeeps hx
  same := by
    rintro r a r' s hr hrun hfine ⟨φ, hφ, hat⟩
    simp only [Parse.expanding, Bind.bind, Except.bind] at hrun
    cases hx' : x r.engine with
    | error fault =>
      rw [hx'] at hrun
      cases hrun
    | ok answer =>
      obtain ⟨a', e'⟩ := answer
      rw [hx'] at hrun
      cases hrun
      obtain ⟨c, p, news, hz, hR, hmirror, hnews, hnews', hlayout⟩ :=
        Engine.news_of_mirrors (hx _) hx'
      rw [ensures_expanding]
      refine (Engine.ensures_of_mirrors (hy _) hat.engine hz hnews').mono ?_
      rintro b e₂ ⟨hR', hmirror', news', hemitted, halike⟩
      refine ⟨⟨c, hR, hR'⟩, φ, hφ, hat.anchored, hat.source, hat.rest, hat.late, hat.openGroups,
        ?_, ?_⟩
      · exact hmirror'.pivot_eq.trans hmirror.pivot_eq.symm
      · show M.Matches φ e'.emitted e₂.emitted
        rw [hnews, hemitted]
        exact hat.messages.append halike fun _ => not_mem_of_isLayout hlayout

end Expanding

/-! ### Marks and characters -/

section Marks

variable {S : Stage → Prop} {P : List Char → Prop}

theorem InStep.peek {mark : Mark} {Q : Bool → List Char → Prop}
    (hP : M.Arises → ∀ w, Q (mark.text.toList.isPrefixOf (w ++ M.tail .ahead)) w → P w)
    (hsame : M.Arises → ∀ w, P w → mark.text.toList.isPrefixOf (w ++ M.tail' .ahead)
      = mark.text.toList.isPrefixOf (w ++ M.tail .ahead)) :
    M.InStep K (M.Tied S) P (peek mark) (peek mark) Q Eq := by
  refine .scan (fun rest => mark.text.toList.isPrefixOf rest) (fun _ => 0)
    (fun _ => rfl) (fun _ => Nat.zero_le _) ?_ ?_
  · intro hM passed w hpassed hQ
    rw [List.length_eq_zero_iff.mp hpassed.symm] at hQ ⊢
    exact hP hM w hQ
  · intro hM passed w hpassed hQ
    rw [List.length_eq_zero_iff.mp hpassed.symm] at hQ ⊢
    exact ⟨hsame hM w (hP hM w hQ), rfl⟩

/-- What was passed of a text is a literal that it starts with, or nothing. -/
theorem passed_literal {literal passed rest : List Char}
    (h : (if literal.isPrefixOf (passed ++ rest) then literal.length else 0) = passed.length) :
    (literal.isPrefixOf (passed ++ rest) = true ∧ passed = literal) ∨
      (literal.isPrefixOf (passed ++ rest) = false ∧ passed = []) := by
  split at h
  · rename_i hahead
    refine .inl ⟨hahead, ?_⟩
    have hle := List.prefix_of_prefix_length_le (List.isPrefixOf_iff_prefix.mp hahead)
      (List.prefix_append passed rest) (Nat.le_of_eq h)
    exact (hle.eq_of_length h).symm
  · rename_i hahead
    exact .inr ⟨Bool.eq_false_iff.mpr hahead, List.length_eq_zero_iff.mp h.symm⟩

theorem accept_eq (mark : Mark) (r : Reader) :
    accept mark r = .ok (mark.text.toList.isPrefixOf r.cursor.rest, r.advance
      (if mark.text.toList.isPrefixOf r.cursor.rest then mark.text.toList.length else 0)) := by
  cases hpeek : r.cursor.peek mark.text with
  | true =>
    have hahead : mark.text.toList.isPrefixOf r.cursor.rest = true := hpeek
    simp only [accept, Cursor.accept, hpeek, hahead, if_true]
    rfl
  | false =>
    have hahead : mark.text.toList.isPrefixOf r.cursor.rest = false := hpeek
    simp only [accept, Cursor.accept, hpeek, hahead, Bool.false_eq_true, if_false]
    rfl

theorem InStep.accept {mark : Mark} {Q : Bool → List Char → Prop}
    (htrue : M.Arises → ∀ w, Q true w → P (mark.text.toList ++ w))
    (hfalse : M.Arises → ∀ w, Q false w → P w)
    (hsame : M.Arises → ∀ w, P w → mark.text.toList.isPrefixOf (w ++ M.tail' .ahead)
      = mark.text.toList.isPrefixOf (w ++ M.tail .ahead)) :
    M.InStep K (M.Tied S) P (accept mark) (accept mark) Q Eq := by
  refine .scan (fun rest => mark.text.toList.isPrefixOf rest)
    (fun rest => if mark.text.toList.isPrefixOf rest then mark.text.toList.length else 0)
    (accept_eq mark) (fun rest => ?_) ?_ ?_
  · split
    · rename_i hahead
      exact (List.isPrefixOf_iff_prefix.mp hahead).length_le
    · exact Nat.zero_le _
  · intro hM passed w hpassed hQ
    rcases passed_literal hpassed with ⟨hahead, rfl⟩ | ⟨hahead, rfl⟩
    · rw [hahead] at hQ
      exact htrue hM w hQ
    · rw [hahead] at hQ
      exact hfalse hM w hQ
  · intro hM passed w hpassed hQ
    rcases passed_literal hpassed with ⟨hahead, rfl⟩ | ⟨hahead, rfl⟩
    · have hsame : ∀ t, mark.text.toList.isPrefixOf (mark.text.toList ++ t) = true :=
        fun t => List.isPrefixOf_iff_prefix.mpr (List.prefix_append _ _)
      simp only [hsame, if_true, and_self]
    · rw [hahead] at hQ
      have hsame := hsame hM w (hfalse hM w hQ)
      change mark.text.toList.isPrefixOf ([] ++ (w ++ M.tail' .ahead))
        = mark.text.toList.isPrefixOf ([] ++ (w ++ M.tail .ahead)) at hsame
      refine ⟨hsame, ?_⟩
      rw [hsame.trans hahead]
      rfl

theorem passed_character {passed rest : List Char}
    (h : min 1 (passed ++ rest).length = passed.length) :
    (∃ c, passed = [c]) ∨ (passed = [] ∧ rest = []) := by
  rw [List.length_append] at h
  rcases passed with _ | ⟨c, _ | ⟨d, passed⟩⟩
  · refine .inr ⟨rfl, List.length_eq_zero_iff.mp ?_⟩
    simp only [List.length_nil] at h
    omega
  · exact .inl ⟨c, rfl⟩
  · simp only [List.length_cons] at h
    omega

theorem InStep.takeChar? {Q : Option Char → List Char → Prop}
    (hsome : M.Arises → ∀ c w, Q (some c) w → P (c :: w))
    (hnone : M.Arises → ∀ w, Q none w → w ++ M.tail .ahead ≠ []) :
    M.InStep K (M.Tied S) P takeChar? takeChar? Q Eq := by
  refine .scan List.head? (fun rest => min 1 rest.length) (fun r => ?_)
    (fun rest => Nat.min_le_right _ _) ?_ ?_
  · obtain ⟨⟨source, rest, position, inspectors⟩, engine, openGroups, sightings⟩ := r
    cases rest with
    | nil => rfl
    | cons c rest =>
      have hcount : min 1 (c :: rest).length = 1 := Nat.min_eq_left (Nat.succ_pos _)
      simp only [Parse.takeChar?, Cursor.takeChar?, hcount]
      rfl
  · intro hM passed w hpassed hQ
    rcases passed_character hpassed with ⟨c, rfl⟩ | ⟨rfl, hnil⟩
    · exact hsome hM c w hQ
    · rw [hnil] at hQ
      exact absurd hnil (hnone hM w hQ)
  · intro hM passed w hpassed hQ
    rcases passed_character hpassed with ⟨c, rfl⟩ | ⟨rfl, hnil⟩
    · exact ⟨rfl, Nat.min_eq_left (Nat.succ_pos _)⟩
    · rw [hnil] at hQ
      exact absurd hnil (hnone hM w hQ)

theorem takeWhile_append_eq {p : Char → Bool} {passed rest : List Char}
    (hall : ∀ c ∈ passed, p c = true) (hstop : ∀ c, rest.head? = some c → p c = false) :
    (passed ++ rest).takeWhile p = passed := by
  rw [List.takeWhile_append_of_pos hall]
  cases rest with
  | nil => simp
  | cons d rest =>
    rw [List.takeWhile_cons_of_neg (by simp [hstop d rfl])]
    simp

theorem passed_while {p : Char → Bool} {passed rest : List Char}
    (h : ((passed ++ rest).takeWhile p).length = passed.length) :
    (∀ c ∈ passed, p c = true) ∧ ∀ c, rest.head? = some c → p c = false := by
  have hahead : (passed ++ rest).takeWhile p = passed :=
    (List.prefix_of_prefix_length_le (List.takeWhile_prefix p) (List.prefix_append passed rest)
      (Nat.le_of_eq h)).eq_of_length h
  have hall : ∀ c ∈ passed, p c = true := by
    intro c hc
    rw [← hahead] at hc
    exact List.all_eq_true.mp List.all_takeWhile c hc
  refine ⟨hall, fun c hc => ?_⟩
  rw [List.takeWhile_append_of_pos hall] at hahead
  have hnil := List.append_right_eq_self.mp hahead
  cases rest with
  | nil => cases hc
  | cons d rest =>
    cases hc
    refine Bool.eq_false_iff.mpr fun hp => ?_
    rw [List.takeWhile_cons_of_pos hp] at hnil
    cases hnil

theorem skipWhile_eq_advance (c : Cursor) (p : Char → Bool) :
    c.skipWhile p = c.advance (c.rest.takeWhile p).length := by
  have hdrop : c.rest.dropWhile p = c.rest.drop (c.rest.takeWhile p).length :=
    List.drop_left.symm.trans (congrArg (List.drop _) List.takeWhile_append_dropWhile)
  rw [Cursor.skipWhile, Cursor.advance, hdrop,
    List.length_take_of_le (List.takeWhile_prefix p).length_le]

/-- Characters of a class are passed.  In both sources the first one behind them is not in it. -/
theorem InStep.skipWhile {p : Char → Bool} {Q : List Char → Prop}
    (hback : M.Arises → ∀ passed w, (∀ c ∈ passed, p c = true) → Q w → P (passed ++ w))
    (hstop : M.Arises → ∀ w, Q w → (∀ c, (w ++ M.tail .ahead).head? = some c → p c = false) →
      ∀ c, (w ++ M.tail' .ahead).head? = some c → p c = false) :
    M.InStep K (M.Tied S) P (moveCursor fun cursor => cursor.skipWhile p)
      (moveCursor fun cursor => cursor.skipWhile p) (fun _ => Q) Eq := by
  refine .scan (fun _ => ()) (fun rest => (rest.takeWhile p).length)
    (fun r => ?_) (fun rest => (List.takeWhile_prefix p).length_le) ?_ ?_
  · show Except.ok ((), ({ r with cursor := r.cursor.skipWhile p } : Reader)) = _
    rw [skipWhile_eq_advance]
    rfl
  · exact fun hM passed w hpassed hQ => hback hM passed w (passed_while hpassed).1 hQ
  · intro hM passed w hpassed hQ
    obtain ⟨hall, hend⟩ := passed_while hpassed
    exact ⟨rfl, congrArg List.length (takeWhile_append_eq hall (hstop hM w hQ hend))⟩

theorem InStep.isAtEnd {Q : Bool → List Char → Prop}
    (htrue : M.Arises → ∀ w, Q true w → w ++ M.tail .ahead ≠ [])
    (hfalse : M.Arises → ∀ w, Q false w → P w)
    (hsame : M.Arises → ∀ w, P w → w ++ M.tail' .ahead ≠ []) :
    M.InStep K (M.Tied S) P isAtEnd isAtEnd Q Eq := by
  have hgoes : M.Arises → ∀ w, Q (w ++ M.tail .ahead).isEmpty w →
      (w ++ M.tail .ahead).isEmpty = false ∧ P w := by
    intro hM w hQ
    cases hempty : (w ++ M.tail .ahead).isEmpty with
    | true =>
      rw [hempty] at hQ
      exact absurd (List.isEmpty_iff.mp hempty) (htrue hM w hQ)
    | false =>
      rw [hempty] at hQ
      exact ⟨rfl, hfalse hM w hQ⟩
  refine .scan List.isEmpty (fun _ => 0) (fun _ => rfl) (fun _ => Nat.zero_le _) ?_ ?_
  · intro hM passed w hpassed hQ
    rw [List.length_eq_zero_iff.mp hpassed.symm] at hQ ⊢
    exact (hgoes hM w hQ).2
  · intro hM passed w hpassed hQ
    rw [List.length_eq_zero_iff.mp hpassed.symm] at hQ ⊢
    obtain ⟨hempty, hP⟩ := hgoes hM w hQ
    refine ⟨?_, rfl⟩
    rw [List.nil_append, List.nil_append, hempty, List.isEmpty_eq_false_iff]
    exact hsame hM w hP

end Marks

/-! ### Steps that do not look at the text -/

section Others

variable {α β : Type} {T : Reader → Reader → Prop} {S : Stage → Prop} {P : List Char → Prop}
  {R : α → β → Prop}

theorem InStep.of_still {x : Parse α} {y : Parse β} (hx : ∀ r a r', x r = .ok (a, r') → r' = r)
    (hy : ∀ r s a, M.Inv K r → T r s → x r = .ok (a, r) →
      Ensures (· ≠ .missingSlot) y s fun b s' => s' = s ∧ R a b) :
    M.InStep K T P x y (fun _ => P) R where
  back := .of_still hx
  same r a r' s hr hrun hfine hT := by
    cases hx r a r' hrun
    refine (hy r s a hr hT hrun).mono ?_
    rintro b s' ⟨rfl, hR⟩
    exact ⟨hR, hT⟩

theorem InStep.position : M.InStep K T P position position (fun _ => P) fun _ _ => True :=
  .of_still (fun r a r' hrun => by cases hrun; rfl) fun r s a _ _ _ => ⟨rfl, trivial⟩

theorem InStep.checked (start stop start' stop' : Nat) :
    M.InStep K T P (liftM (Span.checked start stop) : Parse Span)
      (liftM (Span.checked start' stop')) (fun _ => P) Alike := by
  refine .of_still (fun r a r' hrun => ?_) fun r s a _ _ _ => ?_
  · by_cases h : start ≤ stop
    · rw [Span.checked_of_le h] at hrun
      cases hrun
      rfl
    · simp only [Span.checked, if_neg h] at hrun
      cases hrun
  · by_cases h : start' ≤ stop'
    · exact ensures_checked h ⟨rfl, rfl⟩
    · simp only [Span.checked, if_neg h, ensures_lift_error]
      exact nofun

theorem InStep.spanFrom (start start' : Nat) :
    M.InStep K T P (spanFrom start) (spanFrom start') (fun _ => P) Alike :=
  .bind_of_refl .position (fun _ => trivial) fun _ _ _ => .checked _ _ _ _

theorem InStep.openGroups (f : Nat → Nat) :
    M.InStep K (M.Tied S) P
      (modify fun reader => { reader with openGroups := f reader.openGroups } : Parse PUnit)
      (modify fun reader => { reader with openGroups := f reader.openGroups }) (fun _ => P)
      fun _ _ => True where
  back r a r' hr hrun := by
    cases hrun
    exact ⟨⟨hr.anchored, hr.source, hr.referring, hr.traced, hr.marks, hr.lasting⟩,
      fun hfine => ⟨⟨hfine.clean.complete, hfine.clean.history⟩, hfine.place⟩⟩
  same := by
    rintro r a r' s hr hrun hfine ⟨φ, hφ, hat⟩
    cases hrun
    exact ⟨trivial, φ, hφ, hat.anchored, hat.source, hat.rest, hat.late, congrArg f hat.openGroups,
      hat.engine, hat.messages⟩

/-- What is recorded of enclosures may differ. -/
theorem InStep.enclosures (f g : Reader → Enclosures) :
    M.InStep K (M.Tied S) P
      (modify fun reader => { reader with enclosures := f reader } : Parse PUnit)
      (modify fun reader => { reader with enclosures := g reader }) (fun _ => P)
      fun _ _ => True where
  back r a r' hr hrun := by
    cases hrun
    exact ⟨⟨hr.anchored, hr.source, hr.referring, hr.traced, hr.marks, hr.lasting⟩,
      fun hfine => ⟨⟨hfine.clean.complete, hfine.clean.history⟩, hfine.place⟩⟩
  same := by
    rintro r a r' s hr hrun hfine ⟨φ, hφ, hat⟩
    cases hrun
    exact ⟨trivial, φ, hφ, hat.anchored, hat.source, hat.rest, hat.late, hat.openGroups, hat.engine,
      hat.messages⟩

theorem InStep.enter (kind : EnclosureKind) :
    M.InStep K (M.Tied S) P (enter kind) (enter kind) (fun _ => P) fun _ _ => True :=
  .enclosures _ _

theorem InStep.leave (closed : Bool) :
    M.InStep K (M.Tied S) P (leave closed) (leave closed) (fun _ => P) fun _ _ => True :=
  .enclosures _ _

theorem InStep.fireInspectors :
    M.InStep K (M.Tied S) P fireInspectors fireInspectors (fun _ => P) fun _ _ => True where
  back r a r' hr hrun := by
    cases hrun
    exact ⟨⟨⟨hr.anchored.rest, hr.anchored.position⟩, hr.source, hr.referring, hr.traced, hr.marks,
      hr.lasting⟩, fun hfine => ⟨⟨hfine.clean.complete, hfine.clean.history⟩, hfine.place⟩⟩
  same := by
    rintro r a r' s hr hrun hfine ⟨φ, hφ, hat⟩
    cases hrun
    exact ⟨trivial, φ, hφ, ⟨hat.anchored.rest, hat.anchored.position⟩, hat.source, hat.rest,
      hat.late, hat.openGroups, hat.engine, hat.messages⟩

theorem upholds_emit {messages : List Message} (e : Engine) (he : e.context.Traced Unclosing)
    (_ : K.Holds e.context) :
    Ensures anyFault (Expand.emit messages) e fun _ e' => e.Upholds (.history Unclosing) e' :=
  ⟨(Upkeep.history Unclosing).refl he, rfl⟩

theorem InStep.emit {problem : Problem} (h : problem.isLayout = false) (span span' : Span) :
    M.InStep K (M.Tied S) P (emit [problem.message span]) (emit [problem.message span'])
      (fun _ => P) fun _ _ => True :=
  (InStep.expanding (z := Expand.emit [problem.message .nowhere]) upholds_emit
    (fun _ => Mirrors.emit (.problem h)) fun _ => Mirrors.emit (.problem h)).weaken
    fun _ _ _ => trivial

/-- A mark that is missing is not reported in a clean run. -/
theorem InStep.expected {position : Nat} {what : String} {y : Parse β}
    {Q : Unit → List Char → Prop} {R : Unit → β → Prop} :
    M.InStep K T P (Parse.emit [Problem.expectedAt position what]) y Q R := by
  have hnot : ∀ r a r', M.Inv K r → Parse.emit [Problem.expectedAt position what] r = .ok (a, r') →
      ¬ M.Fine (Q a) r' := by
    intro r a r' hr hrun hfine
    cases hrun
    refine hfine.clean.complete (Problem.expectedAt position what) ?_ ⟨rfl, rfl⟩
    simp [Engine.emit, hr.referring]
  refine ⟨fun r a r' hr hrun => ⟨?_, fun hfine => absurd hfine (hnot r a r' hr hrun)⟩,
    fun r a r' s hr hrun hfine _ => absurd hfine (hnot r a r' hr hrun)⟩
  cases hrun
  exact ⟨hr.anchored, hr.source, hr.referring, hr.traced, hr.marks, hr.lasting⟩

end Others

end Mend

end MacroMarkup
