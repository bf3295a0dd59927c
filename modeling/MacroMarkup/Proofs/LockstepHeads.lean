import MacroMarkup.Proofs.Heads
import MacroMarkup.Proofs.Lockstep

/-!
# Heads in lockstep

The gap is never inside a head.  A name that is registered is found before the bracket that closes
the head, as it has no such bracket itself, so the longest name that is next is the same in both
sources; that of an unknown modifier ends there as well.

* `InStep.findLongestM?`: **the longest registered name that is next.**
* `InStep.readEntities`, `InStep.readArguments`: arguments.
* `Aligned`: positions that stand for each other.  The text of a head is taken from the source.
* `InStep.readName`, `InStep.makeHead`, `InStep.readHead`: heads.
-/

namespace MacroMarkup

open Parse
open Placed (placeless)

instance : NamedAnywhere Interpolator := ⟨fun _ => rfl⟩

theorem longer_placeless {α : Type} [Named α] [Placed α] [NamedAnywhere α]
    (upper lower : Option α) : Registry.longer (placeless upper) (placeless lower)
      = placeless (Registry.longer upper lower) := by
  cases upper with
  | none => rfl
  | some x =>
    cases lower with
    | none => rfl
    | some y =>
      simp only [placeless_some, Registry.longer, Layer.nameLength_placeless]
      split <;> rfl

namespace Mend

variable {M : Mend} {K : Lasting} {S : Stage → Prop} {P : List Char → Prop}

/-! ### Names -/

section Names

theorem advance_min (c : Cursor) (n : Nat) : c.advance n = c.advance (min n c.rest.length) := by
  rw [Cursor.advance, Cursor.advance, ← List.take_eq_take_min, ← List.drop_eq_drop_min]

theorem InStep.advance (n : Nat) {Q : List Char → Prop}
    (hback : ∀ passed w, Q w → P (passed ++ w)) (hne : ∀ w, Q w → w ≠ []) :
    M.InStep K (M.Tied S) P (moveCursor fun cursor => cursor.advance n)
      (moveCursor fun cursor => cursor.advance n) (fun _ => Q) Eq := by
  refine .scan (fun _ => ()) (fun rest => min n rest.length) (fun r => ?_)
    (fun rest => Nat.min_le_right _ _) (fun _ passed w _ => hback passed w) ?_
  · show Except.ok ((), ({ r with cursor := r.cursor.advance n } : Reader)) = _
    rw [advance_min]
    rfl
  · intro hM passed w hpassed hQ
    have hw := List.length_pos_iff.mpr (hne w hQ)
    simp only [List.length_append] at hpassed ⊢
    exact ⟨trivial, by omega⟩

variable {name : String}

theorem LeadsBack.peekName : M.LeadsBack K P (peekName name) fun _ => P :=
  .of_still fun r b r' hrun => by
    have hstill : Ensures anyFault (Parse.peekName name) r fun _ r' => r' = r :=
      ensures_peekName (fun _ => trivial) rfl
    exact hstill.of_ok hrun

theorem InStep.peekName (hclosed : ∀ w, P w → ']' ∈ w) (hname : Unclosing name) :
    M.InStep K (M.Tied S) P (peekName name) (peekName name) (fun _ => P) Eq := by
  simp only [Parse.peekName]
  refine .ite Iff.rfl (fun _ => .throw) fun _ => ?_
  refine .scan (fun rest => name.toList.isPrefixOf rest) (fun _ => 0)
    (fun _ => rfl) (fun _ => Nat.zero_le _) ?_ ?_
  · intro _ passed w hpassed hP
    rwa [List.length_eq_zero_iff.mp hpassed.symm]
  · intro hM passed w hpassed hP
    rw [List.length_eq_zero_iff.mp hpassed.symm]
    have hsame : ∀ t, name.toList.isPrefixOf (w ++ t) = name.toList.isPrefixOf w :=
      isPrefixOf_name_append (hclosed w hP) hname
    exact ⟨(hsame _).trans (hsame _).symm, rfl⟩

variable (hclosed : ∀ w, P w → ']' ∈ w) (happend : ∀ passed w, P w → P (passed ++ w))

include happend hclosed

theorem InStep.passName (found : Bool) :
    M.InStep K (M.Tied S) P
      (do
        if found then moveCursor fun cursor => cursor.advance name.toList.length
        return found)
      (do
        if found then moveCursor fun cursor => cursor.advance name.toList.length
        return found) (fun _ => P) Eq := by
  cases found with
  | false => exact .pure rfl fun _ _ => id
  | true =>
    refine InStep.bind_of_refl (R := Eq) ?_ (fun _ => rfl) fun _ _ _ => .pure rfl fun _ _ => id
    exact .advance _ happend fun w hw hnil => by
      have := hclosed w hw
      rw [hnil] at this
      cases this

theorem LeadsBack.acceptName : M.LeadsBack K P (acceptName name) fun _ => P :=
  LeadsBack.bind .peekName fun found =>
    (InStep.passName (S := fun _ => True) hclosed happend found).back

theorem InStep.acceptName (hname : Unclosing name) :
    M.InStep K (M.Tied S) P (acceptName name) (acceptName name) (fun _ => P) Eq := by
  refine InStep.bind_of_refl (.peekName hclosed hname) (fun _ => rfl) fun found _ hfound => ?_
  subst hfound
  exact .passName hclosed happend found

theorem InStep.acceptClosing {closing : Option String}
    (hclosing : ∀ mark, closing = some mark → Unclosing mark) :
    M.InStep K (M.Tied S) P (acceptClosing closing) (acceptClosing closing) (fun _ => P) Eq := by
  cases closing with
  | none => exact .pure rfl fun _ _ => id
  | some mark => exact .acceptName hclosed happend (hclosing mark rfl)

end Names

section Lookup

theorem all_of_findLongestM? {α : Type} [Named α] {A : α → Prop} {registry : Registry α}
    {r r' : Reader} {found : Option α} (h : registry.All A)
    (hrun : registry.findLongestM? Parse.peekName r = .ok (found, r')) :
    ∀ x, found = some x → A x := by
  have hfound : Ensures anyFault (registry.findLongestM? Parse.peekName) r fun found r' =>
      r' = r ∧ ∀ x, found = some x → A x ∧ r.cursor.peek (Named.name x) = true :=
    ensures_findLongestM? h fun _ _ _ => trivial
  exact fun x hx => ((hfound.of_ok hrun).2 x hx).1

theorem LeadsBack.findLongestM? {α : Type} [Named α] {registry : Registry α} :
    M.LeadsBack K P (registry.findLongestM? Parse.peekName) fun _ => P :=
  .of_still fun r found r' hrun => by
    have hstill : Ensures anyFault (registry.findLongestM? Parse.peekName) r fun _ r' => r' = r :=
      (ensures_findLongestM? (P := fun _ => True) (fun _ _ _ _ => trivial)
        fun _ _ _ => trivial).mono fun _ _ h => h.1
    exact hstill.of_ok hrun

variable {α : Type} [Named α] [Placed α] [NamedAnywhere α]

theorem InStep.findM? (hclosed : ∀ w, P w → ']' ∈ w) {entries entries' : List α}
    (halike : Alike entries entries') (hname : ∀ x ∈ entries, Unclosing (Named.name x)) :
    M.InStep K (M.Tied S) P (entries.findM? fun x => Parse.peekName (Named.name x))
      (entries'.findM? fun x => Parse.peekName (Named.name x)) (fun _ => P) Alike := by
  induction entries generalizing entries' with
  | nil =>
    cases entries' with
    | nil => exact .pure rfl fun _ _ => id
    | cons x' rest' => cases halike
  | cons x rest ih =>
    cases entries' with
    | nil => cases halike
    | cons x' rest' =>
      obtain ⟨hx, hrest⟩ := List.cons.inj halike
      have hnames : Named.name x' = Named.name x := by
        rw [← NamedAnywhere.name_placeless x', hx, NamedAnywhere.name_placeless]
      rw [List.findM?, List.findM?, hnames]
      refine InStep.bind_of_refl (.peekName hclosed (hname x List.mem_cons_self)) (fun _ => rfl)
        fun found _ hfound => ?_
      subst hfound
      cases found with
      | true => exact .pure (congrArg some hx) fun _ _ => id
      | false => exact ih hrest fun y hy => hname y (List.mem_cons_of_mem _ hy)

theorem InStep.findLongestInM? (hclosed : ∀ w, P w → ']' ∈ w) {layers layers' : List (Layer α)}
    (halike : Alike layers layers')
    (hname : ∀ layer ∈ layers, ∀ x ∈ layer, Unclosing (Named.name x)) :
    M.InStep K (M.Tied S) P (Registry.findLongestInM? Parse.peekName layers)
      (Registry.findLongestInM? Parse.peekName layers') (fun _ => P) Alike := by
  induction layers generalizing layers' with
  | nil =>
    cases layers' with
    | nil => exact .pure rfl fun _ _ => id
    | cons layer' rest' => cases halike
  | cons layer rest ih =>
    cases layers' with
    | nil => cases halike
    | cons layer' rest' =>
      obtain ⟨hlayer, hrest⟩ := List.cons.inj halike
      refine InStep.bind_of_refl (.findM? hclosed (congrArg Layer.byLength hlayer)
          fun x hx => hname layer List.mem_cons_self x (.inr hx))
        (fun _ => rfl) fun upper upper' hupper => ?_
      refine InStep.bind_of_refl (ih hrest fun layer hl => hname layer (List.mem_cons_of_mem _ hl))
        (fun _ => rfl) fun lower lower' hlower => ?_
      refine .pure ?_ fun _ _ => id
      rw [Alike, ← longer_placeless, ← longer_placeless, hupper, hlower]

/-- **The longest registered name that is next** is the same in both sources. -/
theorem InStep.findLongestM? (hclosed : ∀ w, P w → ']' ∈ w) {registry registry' : Registry α}
    (halike : Alike registry registry') (hname : registry.All fun x => Unclosing (Named.name x)) :
    M.InStep K (M.Tied S) P (registry.findLongestM? Parse.peekName)
      (registry'.findLongestM? Parse.peekName) (fun _ => P) Alike := by
  have hlayers : Alike registry.layers registry'.layers :=
    congrArg Registry.layers halike
  exact .findLongestInM? hclosed hlayers hname

theorem InStep.configuration {β γ : Type} {T : Reader → Reader → Prop}
    {Q : β → List Char → Prop} {R : β → γ → Prop}
    {f : Configuration → Parse β} {g : Configuration → Parse γ}
    (hback : ∀ c, M.LeadsBack K P (f c) Q)
    (hsame : ∀ r s, M.Inv K r → M.Fine P r → T r s → M.InStep K T P
      (f r.engine.context.configuration) (g s.engine.context.configuration) Q R) :
    M.InStep K T P (configuration >>= f) (configuration >>= g) Q R :=
  .get (f := fun r => f r.engine.context.configuration)
    (g := fun s => g s.engine.context.configuration) (fun _ => hback _) hsame

theorem Tied.context {r s : Reader} (h : M.Tied S r s) :
    Alike r.engine.context s.engine.context := by
  obtain ⟨φ, -, hat⟩ := h
  exact congrArg Engine.context hat.engine

theorem Inv.unclosing {r : Reader} (hr : M.Inv K r) (h : Clean r) (kind : ModifierKind) :
    (r.engine.context.configuration.modifiers kind).All fun d => Unclosing (Named.name d) := by
  have hrecalls : ∀ d : Definition, r.engine.context.configuration.Recalls Unclosing d →
      Unclosing d.name := fun d hd => hd.holds h.history
  cases kind with
  | block => exact hr.traced.registries.1.mono hrecalls
  | inline => exact hr.traced.registries.2.mono hrecalls
  | system => exact hr.traced.systems.mono hrecalls

theorem InStep.findInterpolator? (hclosed : ∀ w, P w → ']' ∈ w) :
    M.InStep K (M.Tied S) P findInterpolator? findInterpolator? (fun _ => P) fun found found' =>
      found' = found ∧ ∀ i, found = some i → Unclosing i.name ∧ Unclosing i.closing := by
  refine InStep.knowing ?_ fun r found r' hr hrun => all_of_findLongestM? hr.marks hrun
  refine InStep.configuration (fun _ => .findLongestM?) fun r s hr _ hT => ?_
  refine (InStep.findLongestM? hclosed ?_ (hr.marks.mono fun i hi => hi.1)).weaken ?_
  · have hsame : s.engine.context.configuration.interpolators
        = r.engine.context.configuration.interpolators :=
      congrArg (fun cx => cx.configuration.interpolators) hT.context
    exact congrArg placeless hsame
  · intro found found' halike
    cases found <;> cases found' <;> cases halike <;> rfl

end Lookup

/-! ### Arguments -/

/-- The text before the gap goes on behind the end of the head. -/
def InHead (M : Mend) (w : List Char) : Prop := ']' ∈ w ∧ M.Firm w

section Arguments

variable {w : List Char}

theorem InHead.append (h : M.InHead w) (passed : List Char) : M.InHead (passed ++ w) :=
  ⟨List.mem_append_right _ h.1, h.2.append passed⟩

theorem InHead.head?_append (h : M.InHead w) (t : List Char) : (w ++ t).head? = w.head? :=
  List.head?_append_of_ne_nil w h.2.ne_nil

theorem InStep.acceptInHead (mark : Mark) :
    M.InStep K (M.Tied S) M.InHead (Parse.accept mark) (Parse.accept mark) (fun _ => M.InHead) Eq :=
  .accept (fun _ _ h => h.append _) (fun _ _ h => h) fun hM _ h => h.2.isPrefixOf hM.place mark

theorem InStep.peekInHead (mark : Mark) :
    M.InStep K (M.Tied S) M.InHead (Parse.peek mark) (Parse.peek mark) (fun _ => M.InHead) Eq :=
  .peek (fun _ _ h => h) fun hM _ h => h.2.isPrefixOf hM.place mark

theorem InStep.isAtEndInHead :
    M.InStep K (M.Tied S) M.InHead Parse.isAtEnd Parse.isAtEnd (fun _ => M.InHead) Eq :=
  .isAtEnd (fun _ _ h => List.append_ne_nil_of_left_ne_nil h.2.ne_nil _) (fun _ _ h => h)
    fun _ _ h => List.append_ne_nil_of_left_ne_nil h.2.ne_nil _

theorem InStep.takeCharInHead :
    M.InStep K (M.Tied S) M.InHead Parse.takeChar? Parse.takeChar? (fun _ => M.InHead) Eq :=
  .takeChar? (fun _ _ _ h => h.append [_])
    fun _ _ h => List.append_ne_nil_of_left_ne_nil h.2.ne_nil _

theorem appendEntityText_placeless (text : String) (span : Span) (entities : List Entity) :
    placeless (appendEntityText text span entities)
      = appendEntityText text .nowhere (placeless entities) := by
  rcases entities with _ | ⟨_ | _ | _, rest⟩ <;> rfl

theorem alike_appendEntityText {text : String} {span span' : Span} {parts parts' : List Entity}
    (h : Alike parts parts') :
    Alike (appendEntityText text span parts) (appendEntityText text span' parts') := by
  rw [Alike, appendEntityText_placeless, appendEntityText_placeless, h]

theorem alike_cons {α : Type} [Placed α] {a b : α} {as bs : List α} (h : Alike a b)
    (hs : Alike as bs) : Alike (a :: as) (b :: bs) := by
  rw [Alike, placeless_cons, placeless_cons, h, hs]

theorem alike_interpolation {span span' innerSpan innerSpan' : Span} {i : Interpolator}
    {content content' : List Entity} (h : Alike content content') :
    Alike (Entity.interpolation span i ⟨innerSpan, content, none⟩ none)
      (Entity.interpolation span' i ⟨innerSpan', content', none⟩ none) := by
  show Entity.interpolation .nowhere i ⟨.nowhere, placelessEntities content', none⟩ none
    = .interpolation .nowhere i ⟨.nowhere, placelessEntities content, none⟩ none
  rw [placelessEntities_eq, placelessEntities_eq, h]

theorem alike_reverse {α : Type} [Placed α] {as bs : List α} (h : Alike as bs) :
    Alike as.reverse bs.reverse := by
  have hreverse : ∀ as : List α, placeless as.reverse = (placeless as).reverse :=
    fun as => List.map_reverse
  rw [Alike, hreverse, hreverse, h]

def Same (text text' : ArgumentText) : Prop :=
  Alike text.content text'.content ∧ text'.continues = text.continues

theorem InStep.endArgument {parts parts' : List Entity} (h : Alike parts parts')
    (stop stop' : Nat) (continues : Bool) : M.InStep K (M.Tied S) M.InHead
      (Pure.pure ⟨parts.reverse, stop, continues⟩ : Parse ArgumentText)
      (Pure.pure ⟨parts'.reverse, stop', continues⟩) (fun _ => M.InHead) Same :=
  .pure ⟨alike_reverse h, rfl⟩ fun _ _ => id

variable (M K S) in
/-- The parts of an argument are in step, with these bounds on how many there are. -/
def EntitiesInStep (fuel fuel' : Nat) : Prop :=
  ∀ {closing : Option String} {parts parts' : List Entity}, Alike parts parts' →
    (∀ mark, closing = some mark → Unclosing mark) → ∀ stop stop',
    M.InStep K (M.Tied S) M.InHead (Parse.readEntities fuel closing parts stop)
      (Parse.readEntities fuel' closing parts' stop') (fun _ => M.InHead) Same

section Parts

variable {fuel fuel' : Nat} {closing : Option String} {parts parts' : List Entity}
  (ih : M.EntitiesInStep K S fuel fuel') (hparts : Alike parts parts')
  (hclosing : ∀ mark, closing = some mark → Unclosing mark) (start start' : Nat)

include ih hparts hclosing

theorem InStep.readEscapedPart :
    M.InStep K (M.Tied S) M.InHead (Parse.readEscapedPart fuel closing parts start)
      (Parse.readEscapedPart fuel' closing parts' start') (fun _ => M.InHead) Same := by
  refine .bind_of_refl .takeCharInHead (fun _ => rfl) fun taken _ htaken => ?_
  subst htaken
  cases taken with
  | some c =>
    refine .bind_of_refl (.spanFrom _ _) (fun _ => rfl) fun span span' hspan => ?_
    exact ih (alike_cons (by rfl) hparts) hclosing _ _
  | none =>
    refine .bind_of_refl (.spanFrom _ _) (fun _ => rfl) fun span span' hspan => ?_
    exact .endArgument (alike_appendEntityText hparts) _ _ _

theorem InStep.readInterpolationPart {interpolator : Interpolator}
    (hname : Unclosing interpolator.name) (hcloses : Unclosing interpolator.closing) :
    M.InStep K (M.Tied S) M.InHead
      (Parse.readInterpolationPart fuel closing parts start interpolator)
      (Parse.readInterpolationPart fuel' closing parts' start' interpolator)
      (fun _ => M.InHead) Same := by
  refine .bind_of_refl (.acceptName (fun _ h => h.1) (fun _ _ h => h.append _) hname)
    (fun _ => rfl) fun _ _ _ => ?_
  refine .bind_of_refl .position (fun _ => trivial) fun innerStart innerStart' _ => ?_
  refine .bind_of_refl (.enter _) (fun _ => trivial) fun _ _ _ => ?_
  refine .bind_of_refl (ih rfl (fun mark h => by cases h; exact hcloses) _ _)
    (fun _ => ⟨rfl, rfl⟩) fun inner inner' hinner => ?_
  rw [hinner.2]
  refine .bind_of_refl (.leave _) (fun _ => trivial) fun _ _ _ => ?_
  refine .bind_of_refl (.checked _ _ _ _) (fun _ => rfl) fun innerSpan innerSpan' _ => ?_
  refine .bind_of_refl (.spanFrom _ _) (fun _ => rfl) fun span span' _ => ?_
  have hparts' : Alike
      (Entity.interpolation span interpolator ⟨innerSpan, inner.content, none⟩ none :: parts)
      (Entity.interpolation span' interpolator ⟨innerSpan', inner'.content, none⟩ none
        :: parts') := alike_cons (alike_interpolation hinner.1) hparts
  refine .ite Iff.rfl (fun _ => ih hparts' hclosing _ _) fun _ => ?_
  exact .bind_of_refl (R := Eq) .expected (fun _ => rfl) fun _ _ _ => .endArgument hparts' _ _ _

theorem InStep.readTextPart (stop stop' : Nat) :
    M.InStep K (M.Tied S) M.InHead (Parse.readTextPart fuel closing parts start stop)
      (Parse.readTextPart fuel' closing parts' start' stop') (fun _ => M.InHead) Same := by
  refine .bind_of_refl .takeCharInHead (fun _ => rfl) fun taken _ htaken => ?_
  subst htaken
  cases taken with
  | some c =>
    refine .bind_of_refl (.spanFrom _ _) (fun _ => rfl) fun span span' hspan => ?_
    exact ih (alike_appendEntityText hparts) hclosing _ _
  | none => exact .endArgument hparts _ _ _

end Parts

theorem InStep.readEntities (fuel fuel' : Nat) : M.EntitiesInStep K S fuel fuel' := by
  intro closing parts parts' hparts hclosing stop stop'
  induction fuel generalizing fuel' closing parts parts' stop stop' with
  | zero => exact .throw
  | succ fuel ih =>
    refine .of_succ (y := fun fuel' => Parse.readEntities fuel' closing parts' stop') rfl
      (fun fuel' => ?_) fuel'
    have hdeeper : M.EntitiesInStep K S fuel fuel' := fun hparts hclosing _ _ =>
      ih _ hparts hclosing _ _
    rw [readEntities_succ, readEntities_succ]
    refine .bind_of_refl (.acceptClosing (fun _ h => h.1) (fun _ _ h => h.append _) hclosing)
      (fun _ => rfl) fun closed _ hclosed => ?_
    subst hclosed
    refine .ite Iff.rfl (fun _ => .endArgument hparts _ _ _) fun _ => ?_
    refine .bind_of_refl (.acceptInHead _) (fun _ => rfl) fun separated _ hseparated => ?_
    subst hseparated
    refine .ite Iff.rfl (fun _ => .endArgument hparts _ _ _) fun _ => ?_
    refine .bind_of_refl (.peekInHead _) (fun _ => rfl) fun ended _ hended => ?_
    subst hended
    refine .bind_of_refl (.peekInHead _) (fun _ => rfl) fun closes _ hcloses => ?_
    subst hcloses
    refine .bind_of_refl .isAtEndInHead (fun _ => rfl) fun atEnd _ hatEnd => ?_
    subst hatEnd
    refine .ite Iff.rfl (fun _ => .endArgument hparts _ _ _) fun _ => ?_
    refine .bind_of_refl .position (fun _ => trivial) fun start start' _ => ?_
    refine .bind_of_refl (.acceptInHead _) (fun _ => rfl) fun escaped _ hescaped => ?_
    subst hescaped
    refine .ite Iff.rfl (fun _ => .readEscapedPart hdeeper hparts hclosing _ _) fun _ => ?_
    refine .bind_of_exists (.findInterpolator? fun _ h => h.1)
      (fun r found r' hr hrun => ⟨found, rfl, all_of_findLongestM? hr.marks hrun⟩)
      fun _ found hfound => ?_
    obtain ⟨hsame, hmarks⟩ := hfound
    subst hsame
    cases found with
    | some interpolator =>
      obtain ⟨hname, hcloses⟩ := hmarks interpolator rfl
      exact .readInterpolationPart hdeeper hparts hclosing _ _ hname hcloses
    | none => exact .readTextPart hdeeper hparts hclosing _ _ _ _

theorem InStep.readArgument :
    M.InStep K (M.Tied S) M.InHead Parse.readArgument Parse.readArgument (fun _ => M.InHead)
      Alike := by
  refine .bind_of_refl .position (fun _ => trivial) fun start start' _ => ?_
  refine .get_any fun r s => ?_
  refine .bind_of_refl (.readEntities _ _ rfl (fun _ h => by cases h) _ _) (fun _ => ⟨rfl, rfl⟩)
    fun text text' htext => ?_
  refine .bind_of_refl (.checked _ _ _ _) (fun _ => rfl) fun span span' _ => ?_
  refine .pure ?_ fun _ _ => id
  show ((⟨.nowhere, placelessEntities text'.content, none⟩, text'.continues) : Argument × Bool)
    = (⟨.nowhere, placelessEntities text.content, none⟩, text.continues)
  rw [placelessEntities_eq, placelessEntities_eq, htext.1, htext.2]

theorem alike_isEmpty {α : Type} [Placed α] {as bs : List α} (h : Alike as bs) :
    bs.isEmpty = as.isEmpty := by
  have hisEmpty : ∀ as : List α, (placeless as).isEmpty = as.isEmpty := fun _ => List.isEmpty_map
  rw [← hisEmpty bs, h, hisEmpty]

theorem alike_content {a b : Argument} (h : Alike a b) : Alike a.content b.content := by
  have hcontent : ∀ a : Argument, placeless a.content = (placeless a).content := by
    intro a
    obtain ⟨span, content, value⟩ := a
    exact (placelessEntities_eq content).symm
  rw [Alike, hcontent, h, hcontent]

theorem InStep.readArgumentList (leadingSeparator : Bool) (fuel fuel' : Nat)
    {before before' : List Argument} (hbefore : Alike before before') :
    M.InStep K (M.Tied S) M.InHead (Parse.readArgumentList leadingSeparator fuel before)
      (Parse.readArgumentList leadingSeparator fuel' before') (fun _ => M.InHead) Alike := by
  induction fuel generalizing fuel' before before' with
  | zero => exact .throw
  | succ fuel ih =>
    refine .of_succ (y := fun fuel' => Parse.readArgumentList leadingSeparator fuel' before') rfl
      (fun fuel' => ?_) fuel'
    rw [Parse.readArgumentList, Parse.readArgumentList]
    refine .bind_of_refl .readArgument (fun _ => rfl) fun read read' hread => ?_
    obtain ⟨hargument, hcontinues⟩ := Prod.mk.inj hread
    have hboth : Alike (read.1 :: before) (read'.1 :: before') := alike_cons hargument hbefore
    have hcontent := alike_content hargument
    refine .ite (by rw [show read'.2 = read.2 from hcontinues]) (fun _ => ih _ hboth) fun _ => ?_
    refine .ite (by rw [alike_isEmpty hbefore, alike_isEmpty hcontent])
      (fun _ => .pure rfl fun _ _ => id) fun _ => ?_
    exact .pure (alike_reverse hboth) fun _ _ => id

theorem InStep.readArguments :
    M.InStep K (M.Tied S) M.InHead Parse.readArguments Parse.readArguments (fun _ => M.InHead)
      Alike := by
  refine .bind_of_refl (.acceptInHead _) (fun _ => rfl) fun leading _ hleading => ?_
  subst hleading
  have list : M.InStep K (M.Tied S) M.InHead
      (do Parse.readArgumentList leading ((← MonadState.get).cursor.rest.length + 1) [])
      (do Parse.readArgumentList leading ((← MonadState.get).cursor.rest.length + 1) [])
      (fun _ => M.InHead) Alike :=
    .get_any fun r s => .readArgumentList leading _ _ rfl
  cases leading with
  | true => exact list
  | false =>
    refine .bind_of_refl (.skipWhile (fun _ passed w _ h => h.append passed) fun _ w h hstop => ?_)
      (fun _ => rfl) fun _ _ _ => list
    rwa [h.head?_append] at hstop ⊢

end Arguments

/-! ### Heads -/

def Aligned (M : Mend) : Stage → Nat → Nat → Prop
  | .ahead, a, b => a ≤ M.before.length ∧ b = a
  | .behind, a, b => ∃ k, a = M.before.length + M.gap.length + k ∧
      b = M.before.length + M.fill.length + k

section Heads

variable {φ : Stage} {r s : Reader}

theorem At.aligned (hat : M.At φ r s) (hr : M.Inv K r) :
    M.Aligned φ r.cursor.position s.cursor.position := by
  have hposition := hr.anchored.position_add_length
  have hposition' := hat.anchored.position_add_length
  obtain ⟨w, hw, hw'⟩ := hat.rest
  cases φ with
  | ahead =>
    simp only [hw, hw', tail, tail', M.source_eq, mended, List.length_append]
      at hposition hposition'
    exact ⟨by omega, by omega⟩
  | behind =>
    have hlate := (hat.late rfl).length_le
    rw [hw] at hlate
    simp only [hw, hw', tail, tail', M.source_eq, mended, List.length_append, List.length_nil]
      at hposition hposition' hlate
    exact ⟨M.after.length - w.length, by omega, by omega⟩

/-- The text between two positions is the same in the two sources. -/
theorem Aligned.take_drop {a b c d : Nat} (h : M.Aligned φ a b) (h' : M.Aligned φ c d) :
    (M.mended.drop b).take (d - b) = (M.source.drop a).take (c - a) := by
  cases φ with
  | ahead =>
    obtain ⟨ha, rfl⟩ := h
    obtain ⟨hc, rfl⟩ := h'
    have htake : ∀ t, ((M.before ++ t).drop b).take (d - b) = (M.before.drop b).take (d - b) := by
      intro t
      rw [List.drop_append_of_le_length ha, List.take_append_of_le_length]
      rw [List.length_drop]
      omega
    rw [M.source_eq]
    exact (htake _).trans (htake _).symm
  | behind =>
    obtain ⟨k, rfl, rfl⟩ := h
    obtain ⟨l, rfl, rfl⟩ := h'
    have hdrop : ∀ middle : List Char,
        (M.before ++ (middle ++ M.after)).drop (M.before.length + middle.length + k)
          = M.after.drop k := by
      intro middle
      rw [← List.append_assoc, ← List.length_append, List.drop_length_add_append]
    rw [mended, source_eq, hdrop, hdrop]
    congr 1
    omega

theorem InStep.fromHere {α β : Type} {f : Nat → Parse α} {g : Nat → Parse β}
    {Q : α → List Char → Prop} {R : α → β → Prop}
    (h : ∀ a b, M.InStep K (M.Tied fun φ => S φ ∧ M.Aligned φ a b) P (f a) (g b) Q R) :
    M.InStep K (M.Tied S) P (Parse.position >>= f) (Parse.position >>= g) Q R where
  back r a r' hr hrun := (h r.cursor.position r.cursor.position).back r a r' hr hrun
  same := by
    rintro r a r' s hr hrun hfine ⟨φ, hφ, hat⟩
    refine ((h _ _).same r a r' s hr hrun hfine ⟨φ, ⟨hφ, hat.aligned hr⟩, hat⟩).mono ?_
    rintro b s' ⟨hR, ψ, hψ, hat'⟩
    exact ⟨hR, ψ, hψ.1, hat'⟩

def unknownName : Parse String := do
  let (name, count) := unknownHead (← get).cursor.rest
  moveCursor fun cursor => cursor.advance count
  return String.ofList name

theorem InStep.unknownName :
    M.InStep K (M.Tied S) M.InHead unknownName unknownName (fun _ => M.InHead) Eq := by
  refine .scan (fun rest => String.ofList (unknownHead rest).1)
    (fun rest => min (unknownHead rest).2 rest.length) (fun r => ?_)
    (fun rest => Nat.min_le_right _ _) (fun _ passed w _ h => h.append passed) ?_
  · show Except.ok
      (_, ({ r with cursor := r.cursor.advance (unknownHead r.cursor.rest).2 } : Reader)) = _
    rw [advance_min]
    rfl
  · intro hM passed w hpassed h
    have hw := List.length_pos_iff.mpr h.2.ne_nil
    simp only [← List.append_assoc] at hpassed ⊢
    have hlt : (unknownHead (passed ++ w ++ M.tail .ahead)).2 < (passed ++ w).length := by
      simp only [List.length_append] at hpassed ⊢
      omega
    have hsame : unknownHead (passed ++ w ++ M.tail' .ahead)
        = unknownHead (passed ++ w ++ M.tail .ahead) := unknownHead_append hlt
    rw [hsame]
    refine ⟨rfl, ?_⟩
    simp only [List.length_append] at hpassed ⊢
    omega

/-- Passes the name that was found, or an unknown one. -/
def passFound (start : Nat) : Option Definition → Parse (Option Definition)
  | some d => do
    let _ ← acceptName d.name
    return some d
  | none => do
    let name ← unknownName
    emit [(Problem.unknownModifier name).message (← spanFrom start)]
    return none

theorem readName_eq (kind : ModifierKind) (start : Nat) : Parse.readName kind start =
    configuration >>= fun c => (c.modifiers kind).findLongestM? peekName >>= passFound start := by
  simp only [Parse.readName]
  refine bind_congr fun c => bind_congr fun found => ?_
  cases found <;> rfl

theorem InStep.passUnknown (start start' : Nat) :
    M.InStep K (M.Tied S) M.InHead (passFound start none) (passFound start' none)
      (fun _ => M.InHead) Alike := by
  refine .bind_of_refl .unknownName (fun _ => rfl) fun name _ hname => ?_
  subst hname
  refine .bind_of_refl (.spanFrom _ _) (fun _ => rfl) fun span span' _ => ?_
  exact .bind_of_refl (.emit rfl _ _) (fun _ => trivial) fun _ _ _ => .pure rfl fun _ _ => id

theorem LeadsBack.passFound (start : Nat) (found : Option Definition) :
    M.LeadsBack K M.InHead (passFound start found) fun _ => M.InHead := by
  cases found with
  | none => exact (InStep.passUnknown (S := fun _ => True) start start).back
  | some d =>
    exact .bind (.acceptName (fun _ h => h.1) fun _ _ h => h.append _) fun _ => .pure fun _ _ => id

/-- **The name of a modifier** is the same in both sources. -/
theorem InStep.readName (kind : ModifierKind) (start start' : Nat) :
    M.InStep K (M.Tied S) M.InHead (Parse.readName kind start) (Parse.readName kind start')
      (fun _ => M.InHead) Alike := by
  rw [readName_eq, readName_eq]
  refine .configuration (fun _ => .bind .findLongestM? fun found => .passFound start found)
    fun r s hr hfine hT => ?_
  have halike : Alike (r.engine.context.configuration.modifiers kind)
      (s.engine.context.configuration.modifiers kind) := by
    have hconfiguration : Alike r.engine.context.configuration s.engine.context.configuration :=
      congrArg Context.configuration hT.context
    rw [Alike, ← Configuration.modifiers_placeless, ← Configuration.modifiers_placeless,
      hconfiguration]
  have hnames := hr.unclosing hfine.clean kind
  refine InStep.bind
    (R := fun found found' => Alike found found' ∧ ∀ d, found = some d → Unclosing d.name) ?_
    (fun found => .passFound start found) ?_
  · exact (InStep.findLongestM? (fun _ h => h.1) halike hnames).knowing
      fun _ _ _ _ hrun => all_of_findLongestM? hnames hrun
  · intro found found' hfound
    cases found with
    | none =>
      cases found' with
      | none => exact .passUnknown _ _
      | some d' => cases hfound.1
    | some d =>
      cases found' with
      | none => cases hfound.1
      | some d' =>
        have hd : Alike d d' := Option.some.inj hfound.1
        have hname : d'.name = d.name := by
          show (placeless d').name = (placeless d).name
          rw [hd]
        show M.InStep K _ _ (Parse.acceptName d.name >>= fun _ => Pure.pure (some d))
          (Parse.acceptName d'.name >>= fun _ => Pure.pure (some d')) _ _
        rw [hname]
        refine .bind_of_refl (.acceptName (fun _ h => h.1) (fun _ _ h => h.append _)
          (hfound.2 d rfl)) (fun _ => rfl) fun _ _ _ => ?_
        exact .pure hfound.1 fun _ _ => id

def headText (start : Nat) : Parse (Span × String) := do
  let head ← spanFrom start
  let reader ← get
  return (head, reader.cursor.slice head.start head.stop)

theorem InStep.headText (start start' : Nat) :
    M.InStep K (M.Tied fun φ => S φ ∧ M.Aligned φ start start') P (headText start) (headText start')
      (fun _ => P) Alike := by
  have hrun : ∀ (start : Nat) (r : Reader) {post : Span × String → Reader → Prop},
      (start ≤ r.cursor.position → post
        (⟨start, r.cursor.position⟩, r.cursor.slice start r.cursor.position) r) →
      Ensures (· ≠ .missingSlot) (Mend.headText start) r post := by
    intro start r post h
    simp only [Mend.headText, Parse.spanFrom, ensures_bind, ensures_position]
    by_cases hle : start ≤ r.cursor.position
    · exact ensures_checked hle (h hle)
    · simp only [Span.checked, if_neg hle, ensures_lift_error]
      intro hfault
      cases hfault
  have hstill : ∀ start r a r', Mend.headText start r = .ok (a, r') → r' = r ∧
      a.2 = r.cursor.slice start r.cursor.position := by
    intro start r a r' hheld
    have hpost : Ensures (· ≠ .missingSlot) (Mend.headText start) r fun a r' =>
        r' = r ∧ a.2 = r.cursor.slice start r.cursor.position :=
      hrun start r fun _ => ⟨rfl, rfl⟩
    exact hpost.of_ok hheld
  refine .of_still (fun r a r' hheld => (hstill start r a r' hheld).1) fun r s a hr hT hheld => ?_
  obtain ⟨φ, ⟨-, haligned⟩, hat⟩ := hT
  refine hrun start' s fun _ => ⟨rfl, ?_⟩
  have htext : s.cursor.slice start' s.cursor.position = a.2 := by
    rw [(hstill start r a r hheld).2, Cursor.slice, Cursor.slice, hr.source, hat.source,
      haligned.take_drop (hat.aligned hr)]
  exact congrArg (Prod.mk Span.nowhere) htext

theorem makeHead_eq (kind : ModifierKind) (start : Nat) (found : Option Definition)
    (arguments : List Argument) (ended : Bool) :
    Parse.makeHead kind start found arguments ended = (do
      let (head, text) ← headText start
      let arguments ← expanding (expandArguments arguments)
      return ⟨.ofHead (found.getD (.unknown kind text)) head arguments, ended⟩) := by
  simp only [Parse.makeHead, headText, bind_assoc, pure_bind]
  cases found <;> rfl

instance : Placed Head := ⟨fun head => ⟨placeless head.modifier, head.ended⟩⟩

theorem InStep.expandArguments {arguments arguments' : List Argument}
    (h : Alike arguments arguments') :
    M.InStep K (M.Tied S) P (Parse.expanding (MacroMarkup.expandArguments arguments))
      (Parse.expanding (MacroMarkup.expandArguments arguments')) (fun _ => P) Alike := by
  refine (InStep.expanding (fun e he _ => ?_) (fun _ => mirrors_expandArguments arguments)
    fun _ => h ▸ mirrors_expandArguments arguments').weaken ?_
  · exact (ensures_expandArguments arguments e fun _ _ => trivial).mono
      fun _ _ hanswer => hanswer.1.reports.upholds he
  · rintro as bs ⟨cs, hcs, hcs'⟩
    exact hcs'.symm.trans hcs

theorem InStep.makeHead (kind : ModifierKind) (start start' : Nat)
    {found found' : Option Definition} (hfound : Alike found found')
    {arguments arguments' : List Argument}
    (harguments : Alike arguments arguments') (ended : Bool) :
    M.InStep K (M.Tied fun φ => S φ ∧ M.Aligned φ start start') P
      (Parse.makeHead kind start found arguments ended)
      (Parse.makeHead kind start' found' arguments' ended) (fun _ => P) Alike := by
  rw [makeHead_eq, makeHead_eq]
  refine .bind_of_refl (.headText start start') (fun _ => rfl) fun read read' hread => ?_
  obtain ⟨hspan, htext⟩ := Prod.mk.inj hread
  refine .bind_of_refl (.expandArguments harguments) (fun _ => rfl)
    fun arguments arguments' harguments => .pure ?_ fun _ _ => id
  have htext : read'.2 = read.2 := htext
  have hgetD : ∀ (found : Option Definition) (d : Definition),
      placeless (found.getD d) = (placeless found).getD (placeless d) :=
    fun found d => by cases found <;> rfl
  show (⟨⟨.nowhere, .nowhere, placeless (found'.getD (.unknown kind read'.2)), placeless arguments',
    [], none⟩, ended⟩ : Head)
    = ⟨⟨.nowhere, .nowhere, placeless (found.getD (.unknown kind read.2)), placeless arguments,
      [], none⟩, ended⟩
  rw [hgetD, hgetD, hfound, htext, harguments]

theorem InStep.readHeadFrom (kind : ModifierKind) (start start' : Nat) :
    M.InStep K (M.Tied fun φ => S φ ∧ M.Aligned φ start start') M.InHead
      (Parse.readHeadFrom kind start) (Parse.readHeadFrom kind start') (fun _ => M.AtBody)
      Alike := by
  refine .bind_of_refl (.readName kind start start') (fun _ => rfl) fun found found' hfound => ?_
  refine .bind_of_refl .readArguments (fun _ => rfl) fun arguments arguments' harguments => ?_
  refine .bind_of_refl (.acceptInHead _) (fun _ => rfl) fun ended _ hended => ?_
  subst hended
  have hclose : M.InStep K (M.Tied fun φ => S φ ∧ M.Aligned φ start start') M.InHead
      (Parse.accept .headClose) (Parse.accept .headClose)
      (fun closed w => closed = true ∧ M.AtBody w) Eq :=
    .accept (fun _ w h => ⟨List.mem_cons_self, h.2.firm_headClose⟩)
      (fun _ w h => absurd h.1 Bool.false_ne_true) fun hM _ h => h.2.isPrefixOf hM.place _
  refine .bind_of_refl hclose (fun _ => rfl) fun closed _ hclosed => ?_
  subst hclosed
  have made := InStep.makeHead (M := M) (K := K) (S := S) (P := M.AtBody) kind start start' hfound
    harguments ended
  cases closed with
  | false =>
    refine .bind_of_refl .position (fun _ => trivial) fun _ _ _ => ?_
    exact .bind_of_refl (R := Eq) .expected (fun _ => rfl) fun _ _ _ => made
  | true => exact made.mono (fun _ w h => ⟨rfl, h⟩) fun _ _ _ h => h

theorem InStep.readHead (kind : ModifierKind) :
    M.InStep K (M.Tied S) M.Firm (Parse.readHead kind) (Parse.readHead kind) (fun _ => M.AtBody)
      Alike := by
  refine .fromHere fun start start' => ?_
  refine .bind_of_refl (.accept (fun _ _ h => h.2.append _) (fun _ _ h => h.2)
    fun hM _ h => h.isPrefixOf hM.place _)
    (fun _ => rfl) fun _ _ _ => .readHeadFrom kind start start'

end Heads

end Mend

end MacroMarkup
