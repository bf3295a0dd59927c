import MacroMarkup.Proofs.LockstepText
import MacroMarkup.Proofs.World

/-!
# Blocks in lockstep

What a modifier remembers from one point of its life to the next depends on its behaviour; both
runs compare it with what the modifier without places remembers.  What is known of the registries
that it keeps stays known while its body is read.

* `Lasting.and`: something more that stays known.
* `Portrays`: a modifier and what it is without places.
* `InStep.bind_remembering`: what a modifier remembers stays known.
* `InStep.closeModifier`, `InStep.liveOn`: the life of a modifier behind its head.
* `LockstepConstructs`, `lockstepConstructs`: **all constructs are read in step**.
* `InStep.readSource`: and so is a source.
-/

namespace MacroMarkup

open Parse
open Placed (placeless)

def Lasting.and (K : Lasting) (H : Context → Prop)
    (stays : ∀ {cx cx'}, H cx → (Upkeep.history Unclosing).Keeps cx cx' → H cx') : Lasting where
  Holds cx := K.Holds cx ∧ H cx
  stays h hkeeps := ⟨K.stays h.1 hkeeps, stays h.2 hkeeps⟩

namespace Mend

variable {M : Mend} {K : Lasting} {P : List Char → Prop}

/-! ### Modifiers -/

section Known

variable {H : Context → Prop} {r : Reader}
  {stays : ∀ {cx cx'}, H cx → (Upkeep.history Unclosing).Keeps cx cx' → H cx'}

theorem Inv.with (h : M.Inv K r) (hknown : H r.engine.context) : M.Inv (K.and H stays) r :=
  ⟨h.anchored, h.source, h.referring, h.traced, h.marks, h.lasting, hknown⟩

theorem Inv.without (h : M.Inv (K.and H stays) r) : M.Inv K r :=
  ⟨h.anchored, h.source, h.referring, h.traced, h.marks, h.lasting.1⟩

end Known

/-- `p` is the modifier without places, and `R` relates what they remember. -/
structure Portrays (p m : Modifier)
    (R : m.definition.behaviour.lifecycle.State → p.definition.behaviour.lifecycle.State → Prop) :
    Prop where
  same : placeless m = p
  mirrors : m.definition.behaviour.lifecycle.Mirrors p.definition.behaviour.lifecycle R

theorem exists_portrays {p m : Modifier} (h : placeless m = p) : ∃ R, Portrays p m R := by
  subst h
  obtain ⟨R, hR⟩ := mirrors m.definition.behaviour
  exact ⟨R, rfl, hR⟩

def Remembered (m : Modifier) (state : m.definition.behaviour.lifecycle.State) (cx : Context) :
    Prop := m.definition.behaviour.RestsRecalled Unclosing state cx

theorem Remembered.stays (m : Modifier) (state : m.definition.behaviour.lifecycle.State)
    {cx cx' : Context} (h : Remembered m state cx)
    (hkeeps : (Upkeep.history Unclosing).Keeps cx cx') : Remembered m state cx' :=
  (upholds_history Unclosing m.definition.behaviour).stays h hkeeps

abbrev remembering (K : Lasting) (m : Modifier)
    (state : m.definition.behaviour.lifecycle.State) : Lasting :=
  K.and (Remembered m state) (Remembered.stays m state)

/-- Two steps one after the other; what the modifier remembers behind the first one stays known. -/
theorem InStep.bind_remembering {m : Modifier} {β γ δ : Type} {T : Reader → Reader → Prop}
    {x : Parse m.definition.behaviour.lifecycle.State} {y : Parse β}
    {f : m.definition.behaviour.lifecycle.State → Parse γ} {g : β → Parse δ}
    {Mid : m.definition.behaviour.lifecycle.State → List Char → Prop} {Q : γ → List Char → Prop}
    {R : m.definition.behaviour.lifecycle.State → β → Prop} {R' : γ → δ → Prop}
    (hx : M.InStep K T P x y Mid R)
    (hknown : ∀ r a r', M.Inv K r → x r = .ok (a, r') → Remembered m a r'.engine.context)
    (hback : ∀ r a r', M.Inv K r → x r = .ok (a, r') →
      M.LeadsBack (remembering K m a) (Mid a) (f a) Q)
    (hf : ∀ a b, R a b → M.InStep (remembering K m a) T (Mid a) (f a) (g b) Q R') :
    M.InStep K T P (x >>= f) (y >>= g) Q R' := by
  constructor
  · intro r c r'' hr hrun
    obtain ⟨a, r', hx', hf'⟩ := ok_of_bind hrun
    obtain ⟨hr', hback'⟩ := hx.back r a r' hr hx'
    obtain ⟨hr'', hback''⟩ := hback r a r' hr hx' r' c r''
      (hr'.with (hknown r a r' hr hx')) hf'
    exact ⟨hr''.without, fun h => hback' (hback'' h)⟩
  · intro r c r'' s hr hrun hfine hT
    obtain ⟨a, r', hx', hf'⟩ := ok_of_bind hrun
    obtain ⟨hr', -⟩ := hx.back r a r' hr hx'
    have hr' : M.Inv (remembering K m a) r' := hr'.with (hknown r a r' hr hx')
    have hmid := (hback r a r' hr hx' r' c r'' hr' hf').2 hfine
    rw [ensures_bind]
    refine (hx.same r a r' s hr hx' hmid hT).mono ?_
    intro b s' hanswer
    exact (hf a b hanswer.1).same r' c r'' s' hr' hf' hfine hanswer.2

section Modifiers

variable {p m m' : Modifier}
  {R : m.definition.behaviour.lifecycle.State → p.definition.behaviour.lifecycle.State → Prop}
  {R' : m'.definition.behaviour.lifecycle.State → p.definition.behaviour.lifecycle.State → Prop}

/-- Both modifiers remember what this stands for. -/
def Recalls
    (R : m.definition.behaviour.lifecycle.State → p.definition.behaviour.lifecycle.State → Prop)
    (R' : m'.definition.behaviour.lifecycle.State → p.definition.behaviour.lifecycle.State → Prop)
    (state : m.definition.behaviour.lifecycle.State)
    (state' : m'.definition.behaviour.lifecycle.State) : Prop := ∃ c, R state c ∧ R' state' c

theorem Portrays.delaysContent (hp : Portrays p m R) :
    m.definition.delaysContent = p.definition.delaysContent := by
  obtain ⟨rfl, -⟩ := hp
  rfl

theorem exists_answer {α γ : Type} {x : Expand α} {z : Expand γ} {A : α → γ → Prop} {r r' : Reader}
    {a : α} (hx : ∀ before, Mirrors (Engine.Mirror before []) A x z)
    (hrun : Parse.expanding x r = .ok (a, r')) : ∃ c, A a c := by
  simp only [Parse.expanding, Bind.bind, Except.bind] at hrun
  cases hx' : x r.engine with
  | error fault =>
    rw [hx'] at hrun
    cases hrun
  | ok answer =>
    rw [hx'] at hrun
    cases hrun
    obtain ⟨c, -, -, -, hR, -⟩ := Engine.news_of_mirrors (hx _) hx'
    exact ⟨c, hR⟩

section Opening

variable (immediate : Bool)

def openModifier (m : Modifier) : Parse m.definition.behaviour.lifecycle.State :=
  Parse.expanding (Expand.reporting (m.definition.behaviour.lifecycle.beforeContent m immediate))

theorem Portrays.opens (hp : Portrays p m R) (before : List Message) :
    Mirrors (Engine.Mirror before []) R
      (Expand.reporting (m.definition.behaviour.lifecycle.beforeContent m immediate))
      (Expand.reporting (p.definition.behaviour.lifecycle.beforeContent p immediate)) := by
  obtain ⟨rfl, hlife⟩ := hp
  exact .reporting (hlife.beforeContent m immediate)

theorem upholds_opening (m : Modifier) {e : Engine} (he : e.context.Traced Unclosing) :
    Ensures anyFault
      (Expand.reporting (m.definition.behaviour.lifecycle.beforeContent m immediate)) e
      fun state e' => e.Upholds (.history Unclosing) e' ∧ Remembered m state e'.context :=
  @upholds_reporting (.history Unclosing) _ e (Remembered m) _
    ((upholds_history Unclosing m.definition.behaviour).beforeContent m immediate _ he)

theorem InStep.openModifier (hp : Portrays p m R) (hp' : Portrays p m' R') :
    M.InStep K M.Together P (Mend.openModifier immediate m) (Mend.openModifier immediate m')
      (fun _ => P) (Recalls R R') :=
  .expanding (fun _ he _ => (upholds_opening immediate m he).mono fun _ _ h => h.1)
    (hp.opens immediate) (hp'.opens immediate)

theorem remembered_opening {r r' : Reader} {state : m.definition.behaviour.lifecycle.State}
    (hr : M.Inv K r) (hrun : Mend.openModifier immediate m r = .ok (state, r')) :
    Remembered m state r'.engine.context := by
  have hopens := upholds_opening immediate m hr.traced
  have hkept : Ensures anyFault (Mend.openModifier immediate m) r
      fun state r' => Remembered m state r'.engine.context :=
    ensures_expanding.mpr (hopens.mono fun _ _ h => h.2)
  exact hkept.of_ok hrun

end Opening

section Closing

variable {state : m.definition.behaviour.lifecycle.State}
  {state' : m'.definition.behaviour.lifecycle.State}

def leaveModifier (m : Modifier) (state : m.definition.behaviour.lifecycle.State) :
    Parse m.definition.behaviour.lifecycle.State :=
  Parse.expanding (Expand.inContext (m.definition.behaviour.lifecycle.afterContent state))

theorem Portrays.leaves {c : p.definition.behaviour.lifecycle.State} (hp : Portrays p m R)
    (h : R state c) (before : List Message) :
    Mirrors (Engine.Mirror before []) R
      (Expand.inContext (m.definition.behaviour.lifecycle.afterContent state))
      (Expand.inContext (p.definition.behaviour.lifecycle.afterContent c)) :=
  .inContext (hp.mirrors.afterContent state c h)

theorem upholds_leaving {e : Engine} (he : e.context.Traced Unclosing)
    (h : Remembered m state e.context) :
    Ensures anyFault (Expand.inContext (m.definition.behaviour.lifecycle.afterContent state)) e
      fun state e' => e.Upholds (.history Unclosing) e' ∧ Remembered m state e'.context :=
  @upholds_inContext (.history Unclosing) _ e (Remembered m) _
    ((upholds_history Unclosing m.definition.behaviour).afterContent state _ he h)

theorem InStep.leaveModifier (hp : Portrays p m R) (hp' : Portrays p m' R')
    (h : Recalls R R' state state') :
    M.InStep (remembering K m state) M.Together P (Mend.leaveModifier m state)
      (Mend.leaveModifier m' state') (fun _ => P) (Recalls R R') := by
  obtain ⟨c, hc, hc'⟩ := h
  exact .expanding (fun _ he hknown => (upholds_leaving he hknown.2).mono fun _ _ h => h.1)
    (hp.leaves hc) (hp'.leaves hc')

theorem remembered_leaving {r r' : Reader} {later : m.definition.behaviour.lifecycle.State}
    (hr : M.Inv (remembering K m state) r) (hrun : Mend.leaveModifier m state r = .ok (later, r')) :
    Remembered m later r'.engine.context := by
  have hkept : Ensures anyFault (Mend.leaveModifier m state) r
      fun state r' => Remembered m state r'.engine.context :=
    ensures_expanding.mpr ((upholds_leaving hr.traced hr.lasting.2).mono fun _ _ h => h.2)
  exact hkept.of_ok hrun

def expandModifier (m : Modifier) (span : Span) (content : List Node)
    (state : m.definition.behaviour.lifecycle.State) : Parse Modifier := do
  let levels := (← get).engine.levels
  let (m, _) ← Parse.expanding
    (expandRead (process levels) { m with span := span, content := content } state)
  return m

variable {content content' : List Node}

theorem InStep.expandModifier (span span' : Span) (hp : Portrays p m R) (hp' : Portrays p m' R')
    (h : Recalls R R' state state') (hcontent : Alike content content') :
    M.InStep (remembering K m state) M.Together P (Mend.expandModifier m span content state)
      (Mend.expandModifier m' span' content' state') (fun _ => P) Alike := by
  obtain ⟨c, hc, hc'⟩ := h
  -- both modifiers come to what the one without places comes to
  have hexpands : ∀ {m : Modifier} {R} {state} {content : List Node} (span : Span), Portrays p m R →
      R state c → placeless content = placeless content' → ∀ levels before,
      Mirrors (Engine.Mirror before []) Flagged
        (expandRead (process levels) { m with span := span, content := content } state)
        (expandRead (process levels)
          { p with span := .nowhere, content := placeless content' } c) := by
    intro m R state content span hp hstate hcontent levels before
    obtain ⟨rfl, hlife⟩ := hp
    rw [← hcontent]
    exact mirrors_expandRead (mirrors_process levels)
      (m := { m with span := span, content := content }) hlife hstate
  have hread : ∀ levels, M.InStep (remembering K m state) M.Together P
      (Parse.expanding (expandRead (process levels) { m with span := span, content := content }
        state))
      (Parse.expanding (expandRead (process levels) { m' with span := span', content := content' }
        state')) (fun _ => P) fun a b => Alike a.1 b.1 := by
    intro levels
    refine (InStep.expanding (fun e he hknown => ?_) (hexpands span hp hc hcontent.symm levels)
      (hexpands span' hp' hc' rfl levels)).weaken ?_
    · exact upholds_expandRead (upholds_history Unclosing)
        (upholds_process (upholds_history Unclosing) _)
        (m := { m with span := span, content := content }) hknown.2 he
    · rintro a b ⟨d, hd, hd'⟩
      exact (congrArg Prod.fst hd').symm.trans (congrArg Prod.fst hd)
  have hall : ∀ levels, M.InStep (remembering K m state) M.Together P
      (do
        let (m, _) ← Parse.expanding
          (expandRead (process levels) { m with span := span, content := content } state)
        return m)
      (do
        let (m, _) ← Parse.expanding
          (expandRead (process levels) { m' with span := span', content := content' } state')
        return m) (fun _ => P) Alike :=
    fun levels => .bind_of_refl (hread levels) (fun _ => rfl) fun _ _ hsame =>
      .pure hsame fun _ _ => id
  refine .get (fun r => (hall r.engine.levels).back) fun r s _ _ hT => ?_
  have hlevels := congrArg (fun cx : Context => cx.configuration.depthLimit + 1) hT.context
  change s.engine.levels = r.engine.levels at hlevels
  rw [hlevels]
  exact hall _

def closeModifier (m : Modifier) (state : m.definition.behaviour.lifecycle.State) (span : Span)
    (content : List Node) : Parse Modifier := do
  Parse.expanding (Expand.leaveBody m.definition.delaysContent)
  let state ← leaveModifier m state
  Mend.expandModifier m span content state

/-- A step that leaves the context alone and does not look at places. -/
theorem InStep.bookkeeping {α : Type} {x : Expand α}
    (hstill : ∀ e, Ensures anyFault x e fun _ e' => e'.context = e.context ∧
      e'.referring = e.referring)
    (hx : ∀ before, Mirrors (Engine.Mirror before []) Eq x x) :
    M.InStep K M.Together P (Parse.expanding x) (Parse.expanding x) (fun _ => P) Eq := by
  refine (InStep.expanding (fun e he _ => (hstill e).mono fun _ e' h => ⟨?_, h.2⟩) hx hx).weaken
    fun a b h => ?_
  · rw [h.1]
    exact (Upkeep.history Unclosing).refl he
  · obtain ⟨c, rfl, rfl⟩ := h
    rfl

theorem InStep.closeModifier (span span' : Span) (hp : Portrays p m R) (hp' : Portrays p m' R')
    (h : Recalls R R' state state') (hcontent : Alike content content') :
    M.InStep (remembering K m state) M.Together P (Mend.closeModifier m state span content)
      (Mend.closeModifier m' state' span' content') (fun _ => P) Alike := by
  rw [Mend.closeModifier, Mend.closeModifier, hp.delaysContent, hp'.delaysContent]
  refine .bind_of_refl (.bookkeeping (fun _ => ⟨rfl, rfl⟩) fun _ => .leaveBody _) (fun _ => rfl)
    fun _ _ _ => ?_
  refine .bind_remembering (.leaveModifier hp hp' h) (fun _ _ _ => remembered_leaving) ?_ ?_
  · intro r later r' hr hrun
    obtain ⟨c, hc, -⟩ := h
    obtain ⟨d, hd⟩ := exists_answer (hp.leaves hc) hrun
    exact (InStep.expandModifier span span hp hp ⟨d, hd, hd⟩ rfl).back
  · exact fun later later' hlater => .expandModifier span span' hp hp' hlater hcontent

end Closing

end Modifiers

/-- Where a modifier of this kind may end. -/
def AtClose (M : Mend) : ModifierKind → Bool → List Char → Prop
  | .inline, continues => M.AtRest continues
  | _, _ => M.AtLines

def liveOn (fuel : Nat) (kind : ModifierKind) (head : Head)
    (state : head.modifier.definition.behaviour.lifecycle.State) : Parse (Modifier × Bool) := do
  Parse.expanding (Expand.enterBody head.modifier.definition.delaysContent)
  let (content, continues) ← readBody fuel kind head
  let span ← wholeSpan head
  let m ← closeModifier head.modifier state span content
  return (m, continues)

theorem readModifier_eq (fuel : Nat) (kind : ModifierKind) :
    Parse.readModifier (fuel + 1) kind = (do
    let head ← readHead kind
    let immediate ← Parse.expanding Expand.immediate
    let state ← openModifier immediate head.modifier
    liveOn fuel kind head state) := by
  simp only [Parse.readModifier, openModifier, liveOn, closeModifier, leaveModifier, expandModifier,
    bind_assoc, pure_bind]

section Heads

variable {head head' : Head}

theorem alike_head (h : Alike head head') :
    Alike head.modifier head'.modifier ∧ head'.ended = head.ended := by
  have hended := congrArg Head.ended h
  exact ⟨congrArg Head.modifier h, hended⟩

theorem alike_isWhole (h : Alike head head') : head'.isWhole = head.isWhole := by
  obtain ⟨hm, hended⟩ := alike_head h
  have hslot := congrArg (fun m : Modifier => m.definition.slot) hm
  change head'.modifier.definition.slot = head.modifier.definition.slot at hslot
  rw [Head.isWhole, Head.isWhole, Definition.isMarker, Definition.isMarker, hslot, hended]

theorem InStep.wholeSpan (h : Alike head head') :
    M.InStep K M.Together P (Parse.wholeSpan head) (Parse.wholeSpan head') (fun _ => P) Alike := by
  rw [Parse.wholeSpan, Parse.wholeSpan, alike_isWhole h]
  exact .ite Iff.rfl (fun _ => .pure rfl fun _ _ => id) fun _ => .spanFrom _ _

end Heads

/-! ### All constructs -/

/-- The constructs are read in step, for one bound on how deep they may call each other in the
first run. -/
structure LockstepConstructs (M : Mend) (fuel : Nat) : Prop where
  modifier : ∀ (K : Lasting) (kind : ModifierKind) (fuel' : Nat),
    M.InStep K M.Together M.Firm (readModifier fuel kind) (readModifier fuel' kind)
      (fun read => M.AtClose kind read.2) Alike
  inline : ∀ (K : Lasting) (fuel' : Nat) {nodes nodes' : List Node}, Alike nodes nodes' →
    M.InStep K M.Together M.AtPiece (readInline fuel nodes) (readInline fuel' nodes')
      (fun read => M.AtRest read.2) Alike
  paragraph : ∀ (K : Lasting) (fuel' : Nat) {nodes nodes' : List Node}, Alike nodes nodes' →
    M.InStep K M.Together M.AtPiece (readParagraph fuel nodes) (readParagraph fuel' nodes')
      (fun _ => M.AtLines) Alike
  inlineBody : ∀ (K : Lasting) (fuel' : Nat) {d d' : Definition} {nodes nodes' : List Node},
    Alike d d' → Alike nodes nodes' →
    M.InStep K M.Together M.AtPiece (readInlineBody fuel d nodes) (readInlineBody fuel' d' nodes')
      (fun read => M.AtRest read.2) Alike
  block : ∀ (K : Lasting) (fuel' : Nat),
    M.InStep K M.Together M.Firm (readBlock fuel) (readBlock fuel') (fun _ => M.AtLines) Alike
  group : ∀ (K : Lasting) (fuel' : Nat) {nodes nodes' : List Node}, Alike nodes nodes' →
    M.InStep K M.Together M.Firm (readGroup fuel nodes) (readGroup fuel' nodes')
      (fun _ => M.AtLines) Alike
  body : ∀ (K : Lasting) (kind : ModifierKind) (fuel' : Nat) {head head' : Head},
    Alike head head' →
    M.InStep K M.Together M.AtBody (readBody fuel kind head) (readBody fuel' kind head')
      (fun read => M.AtClose kind read.2) Alike

section Constructs

variable {fuel : Nat}

/-- Where more text stands before the gap, the source does not end. -/
theorem InStep.isAtEndFirm {P : List Char → Prop}
    (hP : M.Arises → ∀ w, P w → w ++ M.tail .ahead ≠ []) :
    M.InStep K M.Together M.Firm Parse.isAtEnd Parse.isAtEnd
      (fun ended w => if ended then P w else M.Firm w) Eq :=
  .isAtEnd (fun hM w h => hP hM w h) (fun _ _ h => h) fun _ _ h => h.append_tail_ne_nil _

theorem InStep.isAtEndPiece :
    M.InStep K M.Together M.AtPiece Parse.isAtEnd Parse.isAtEnd
      (fun ended w => if ended then M.AtBody w else M.AtPiece w) Eq := by
  refine .isAtEnd (fun hM w h => ?_) (fun _ _ h => h)
    fun hM _ h => (AtPiece.append_tail_ne_nil hM.place h).2
  rcases h with h | h
  · exact AtLines.append_tail_ne_nil hM.place h
  · exact (AtPiece.append_tail_ne_nil hM.place h).1

theorem LockstepConstructs.readParagraph (h : M.LockstepConstructs fuel) (K : Lasting)
    (fuel' : Nat) {nodes nodes' : List Node} (hnodes : Alike nodes nodes') :
    M.InStep K M.Together M.AtPiece (Parse.readParagraph (fuel + 1) nodes)
      (Parse.readParagraph fuel' nodes') (fun _ => M.AtLines) Alike := by
  refine .of_succ (y := fun fuel' => Parse.readParagraph fuel' nodes') rfl (fun fuel' => ?_) fuel'
  rw [Parse.readParagraph, Parse.readParagraph]
  refine .bind_of_refl .isAtEndPiece (fun _ => rfl) fun ended _ hsame => ?_
  subst hsame
  cases ended with
  | true => exact .pure (alike_reverse hnodes) fun _ _ hw => .inl hw
  | false =>
    refine .bind_of_refl (h.inline K fuel' hnodes) (fun _ => rfl) fun read read' hread => ?_
    obtain ⟨nodes, nodes', continues, rfl, rfl, hnodes⟩ := exists_read hread
    cases continues with
    | true => exact h.paragraph K fuel' hnodes
    | false => exact .pure (alike_reverse hnodes) fun _ _ hw => hw

theorem LockstepConstructs.readInlineBody (h : M.LockstepConstructs fuel) (K : Lasting)
    (fuel' : Nat) {d d' : Definition} {nodes nodes' : List Node} (hd : Alike d d')
    (hnodes : Alike nodes nodes') :
    M.InStep K M.Together M.AtPiece (Parse.readInlineBody (fuel + 1) d nodes)
      (Parse.readInlineBody fuel' d' nodes') (fun read => M.AtRest read.2) Alike := by
  refine .of_succ (y := fun fuel' => Parse.readInlineBody fuel' d' nodes') rfl (fun fuel' => ?_)
    fuel'
  have hname := congrArg Definition.name hd
  change d'.name = d.name at hname
  have hslot := congrArg Definition.slot hd
  change d'.slot = d.slot at hslot
  rw [Parse.readInlineBody, Parse.readInlineBody, hname, hslot]
  -- a body that is not closed is reported in both runs
  have unclosed : ∀ {nodes nodes' : List Node} (continues : Bool), Alike nodes nodes' →
      M.InStep K M.Together (M.AtRest continues)
        (do
          Parse.emit [(Problem.unclosedInline d.name).message (.empty (← Parse.position))]
          return (nodes.reverse, continues))
        (do
          Parse.emit [(Problem.unclosedInline d.name).message (.empty (← Parse.position))]
          return (nodes'.reverse, continues)) (fun read => M.AtRest read.2) Alike := by
    intro nodes nodes' continues hnodes
    refine .bind_of_refl .position (fun _ => trivial) fun _ _ _ => ?_
    refine .bind_of_refl (.emit rfl _ _) (fun _ => trivial) fun _ _ _ => ?_
    exact .pure (alike_read (alike_reverse hnodes)) fun _ _ hw => hw
  refine .bind_of_refl .acceptInlineClose (fun _ => rfl) fun closed _ hsame => ?_
  subst hsame
  cases closed with
  | true => exact .pure (alike_read (alike_reverse hnodes)) fun _ _ hw => hw
  | false =>
    refine .bind_of_refl .isAtEndPiece (fun _ => rfl) fun ended _ hsame => ?_
    subst hsame
    cases ended with
    | true => exact (unclosed true hnodes).mono (fun _ _ hw => .inr hw) fun _ _ _ hw => hw
    | false =>
      have hpiece : M.InStep K M.Together M.AtPiece
          (if d.slot = .preformatted then readCharacter nodes else Parse.readInline fuel nodes)
          (if d.slot = .preformatted then readCharacter nodes' else Parse.readInline fuel' nodes')
          (fun read => M.AtRest read.2) Alike := by
        refine .ite Iff.rfl (fun _ => ?_) fun _ => h.inline K fuel' hnodes
        exact (InStep.readCharacter hnodes).mono (fun _ _ hw => .inl hw) fun _ _ _ hw => hw
      refine .bind_of_refl hpiece (fun _ => rfl) fun read read' hread => ?_
      obtain ⟨nodes, nodes', continues, rfl, rfl, hnodes⟩ := exists_read hread
      cases continues with
      | true => exact h.inlineBody K fuel' hd hnodes
      | false => exact unclosed false hnodes

def openGroup (fuel : Nat) : Parse (List Node) := do
  modify fun reader => { reader with openGroups := reader.openGroups + 1 }
  endLine
  enter .blocks
  skipLines 1
  let nodes ← Parse.readGroup fuel []
  modify fun reader => { reader with openGroups := reader.openGroups - 1 }
  return nodes

theorem LockstepConstructs.openGroup (h : M.LockstepConstructs fuel) (K : Lasting) (fuel' : Nat) :
    M.InStep K M.Together M.AtLineEnd (Mend.openGroup fuel) (Mend.openGroup fuel')
      (fun _ => M.AtLines) Alike := by
  refine .bind_of_refl (.openGroups (· + 1)) (fun _ => trivial) fun _ _ _ => ?_
  refine .bind_of_refl .endLine (fun _ => rfl) fun _ _ _ => ?_
  refine .bind_of_refl (.enter .blocks) (fun _ => trivial) fun _ _ _ => ?_
  refine .bind_of_refl (.mono (.skipLines 1) (fun _ _ h => h) fun _ _ _ h => .inl h) (fun _ => rfl)
    fun _ _ _ => ?_
  refine .bind_of_refl (h.group K fuel' rfl) (fun _ => rfl) fun nodes nodes' hnodes => ?_
  exact .bind_of_refl (.openGroups (· - 1)) (fun _ => trivial) fun _ _ _ =>
    .pure hnodes fun _ _ h => h

theorem LockstepConstructs.readBlock (h : M.LockstepConstructs fuel) (K : Lasting) (fuel' : Nat) :
    M.InStep K M.Together M.Firm (Parse.readBlock (fuel + 1)) (Parse.readBlock fuel')
      (fun _ => M.AtLines) Alike := by
  refine .of_succ (y := Parse.readBlock) rfl (fun fuel' => ?_) fuel'
  rw [Parse.readBlock, Parse.readBlock]
  have hmodifier : ∀ kind, kind ≠ .inline → M.InStep K M.Together M.Firm
      (do
        let (m, _) ← Parse.readModifier fuel kind
        return [Node.modifier m])
      (do
        let (m, _) ← Parse.readModifier fuel' kind
        return [Node.modifier m]) (fun _ => M.AtLines) Alike := by
    intro kind hkind
    refine .bind_of_refl (h.modifier K kind fuel') (fun _ => rfl) fun read read' hread => ?_
    obtain ⟨m, m', continues, rfl, rfl, hm⟩ := exists_read hread
    refine .pure (alike_cons (alike_modifier hm) rfl) fun _ w hw => ?_
    cases kind with
    | inline => exact absurd rfl hkind
    | block => exact hw
    | system => exact hw
  have hblock : M.InStep K M.Together M.Firm (Parse.peek .blockOpen) (Parse.peek .blockOpen)
      (fun found w => if found then M.Firm w else M.AtPiece w) Eq := by
    refine .peek (fun hM w h => ?_) fun hM _ h => h.isPrefixOf hM.place _
    split at h
    · exact h
    · rename_i hnot
      exact AtPiece.firm_of_not_block hM.place h (Bool.eq_false_iff.mpr hnot)
  have hsystem : M.InStep K M.Together M.AtPiece (Parse.peek .systemOpen) (Parse.peek .systemOpen)
      (fun found w => if found then M.Firm w else M.AtPiece w) Eq := by
    refine .peek (fun _ w h => ?_)
      fun hM _ h => AtPiece.isPrefixOf hM.place h (by decide) (by decide)
    split at h
    · exact .inl h
    · exact h
  have hgroup : M.InStep K M.Together M.AtPiece (Parse.accept .groupOpen) (Parse.accept .groupOpen)
      (fun found w => if found then M.AtLineEnd w else M.AtPiece w) Eq :=
    .accept (fun _ w h => .inl (AtLineEnd.firm_groupOpen h)) (fun _ _ h => h)
      fun hM _ h => AtPiece.isPrefixOf hM.place h (by decide) (by decide)
  refine .bind_of_refl .fireInspectors (fun _ => trivial) fun _ _ _ => ?_
  refine .bind_of_refl hblock (fun _ => rfl) fun block _ hsame => ?_
  subst hsame
  cases block with
  | true => exact hmodifier .block (by decide)
  | false =>
    refine .bind_of_refl hsystem (fun _ => rfl) fun system _ hsame => ?_
    subst hsame
    cases system with
    | true => exact hmodifier .system (by decide)
    | false =>
      refine .bind_of_refl hgroup (fun _ => rfl) fun grouped _ hsame => ?_
      subst hsame
      cases grouped with
      | true => exact h.openGroup K fuel'
      | false =>
        refine .bind_of_refl .position (fun _ => trivial) fun _ _ _ => ?_
        refine .bind_of_refl (h.paragraph K fuel' rfl) (fun _ => rfl) fun nodes nodes' hnodes => ?_
        refine .bind_of_refl (.spanFrom _ _) (fun _ => rfl) fun _ _ _ => .pure ?_ fun _ _ hw => hw
        rw [Alike, placeless_cons, placeless_cons, placeless_paragraph, placeless_paragraph, hnodes]

theorem LockstepConstructs.readGroup (h : M.LockstepConstructs fuel) (K : Lasting) (fuel' : Nat)
    {nodes nodes' : List Node} (hnodes : Alike nodes nodes') :
    M.InStep K M.Together M.Firm (Parse.readGroup (fuel + 1) nodes) (Parse.readGroup fuel' nodes')
      (fun _ => M.AtLines) Alike := by
  refine .of_succ (y := fun fuel' => Parse.readGroup fuel' nodes') rfl (fun fuel' => ?_) fuel'
  rw [Parse.readGroup, Parse.readGroup]
  have hclose : M.InStep K M.Together M.Firm (Parse.accept .groupClose) (Parse.accept .groupClose)
      (fun closed w => if closed then M.AtLines w else M.Firm w) Eq :=
    .accept (fun _ w h => AtLines.firm_groupClose h) (fun _ _ h => h)
      fun hM _ h => h.isPrefixOf hM.place _
  refine .bind_of_refl (.isAtEndFirm fun hM w h => AtLines.append_tail_ne_nil hM.place h)
    (fun _ => rfl) fun ended _ hsame => ?_
  subst hsame
  cases ended with
  | true =>
    refine .bind_of_refl (.leave false) (fun _ => trivial) fun _ _ _ => ?_
    refine .bind_of_refl .position (fun _ => trivial) fun _ _ _ => ?_
    exact .bind_of_refl (R := Eq) .expected (fun _ => rfl) fun _ _ _ =>
      .pure (alike_reverse hnodes) fun _ _ hw => hw
  | false =>
    refine .bind_of_refl hclose (fun _ => rfl) fun closed _ hsame => ?_
    subst hsame
    cases closed with
    | true =>
      exact .bind_of_refl (.leave true) (fun _ => trivial) fun _ _ _ =>
        .pure (alike_reverse hnodes) fun _ _ hw => hw
    | false =>
      refine .bind_of_refl (h.block K fuel') (fun _ => rfl) fun read read' hread => ?_
      refine .bind_of_refl (.mono (.skipLines 1) (fun _ _ h => h) fun _ _ _ h => .inl h)
        (fun _ => rfl) fun _ _ _ => ?_
      refine h.group K fuel' ?_
      rw [Alike, placeless_append, placeless_append, alike_reverse hread, hnodes]

theorem LockstepConstructs.readBody (h : M.LockstepConstructs fuel) (K : Lasting)
    (kind : ModifierKind) (fuel' : Nat) {head head' : Head} (hhead : Alike head head') :
    M.InStep K M.Together M.AtBody (Parse.readBody (fuel + 1) kind head)
      (Parse.readBody fuel' kind head') (fun read => M.AtClose kind read.2) Alike := by
  refine .of_succ (y := fun fuel' => Parse.readBody fuel' kind head') rfl (fun fuel' => ?_) fuel'
  have hd : Alike head.modifier.definition head'.modifier.definition :=
    congrArg Modifier.definition (alike_head hhead).1
  have hslot := congrArg Definition.slot hd
  change head'.modifier.definition.slot = head.modifier.definition.slot at hslot
  rw [Parse.readBody, Parse.readBody, alike_isWhole hhead, hslot]
  have hblocks : M.InStep K M.Together M.AtLines
      (do
        skipLines 1
        if ← Parse.isAtEnd then return ([], true)
        if head.modifier.definition.slot = .preformatted then return ([← readPreformatted], true)
        return (← Parse.readBlock fuel, true))
      (do
        skipLines 1
        if ← Parse.isAtEnd then return ([], true)
        if head.modifier.definition.slot = .preformatted then return ([← readPreformatted], true)
        return (← Parse.readBlock fuel', true)) (fun _ => M.AtLines) Alike := by
    refine .bind_of_refl (.mono (.skipLines 1) (fun _ _ h => h) fun _ _ _ h => .inl h)
      (fun _ => rfl) fun _ _ _ => ?_
    refine .bind_of_refl (.isAtEndFirm fun hM w h => AtLines.append_tail_ne_nil hM.place h)
      (fun _ => rfl) fun ended _ hsame => ?_
    subst hsame
    cases ended with
    | true => exact .pure rfl fun _ _ hw => hw
    | false =>
      simp only [Bool.false_eq_true, if_false]
      refine .ite Iff.rfl (fun _ => ?_) fun _ => ?_
      · refine .bind_of_refl .readPreformatted (fun _ => rfl) fun _ _ hnode => ?_
        exact .pure (alike_read (alike_cons hnode rfl)) fun _ _ hw => hw
      · refine .bind_of_refl (h.block K fuel') (fun _ => rfl) fun _ _ hread => ?_
        exact .pure (alike_read hread) fun _ _ hw => hw
  refine .ite Iff.rfl (fun _ => ?_) fun _ => ?_
  · refine .pure rfl fun _ w hw => ?_
    cases kind with
    | inline => exact .inr hw
    | block => exact .inl hw
    | system => exact .inl hw
  · cases kind with
    | inline =>
      exact (h.inlineBody K fuel' hd rfl).mono (fun _ _ hw => .inr hw) fun _ _ _ hw => hw
    | block => exact hblocks.mono (fun _ _ hw => .inl hw) fun _ _ _ hw => hw
    | system => exact hblocks.mono (fun _ _ hw => .inl hw) fun _ _ _ hw => hw

theorem LockstepConstructs.liveOn (h : M.LockstepConstructs fuel) (K : Lasting)
    (kind : ModifierKind) (fuel' : Nat) {head head' : Head} (hhead : Alike head head')
    {p : Modifier}
    {R : head.modifier.definition.behaviour.lifecycle.State →
      p.definition.behaviour.lifecycle.State → Prop}
    {R' : head'.modifier.definition.behaviour.lifecycle.State →
      p.definition.behaviour.lifecycle.State → Prop}
    (hp : Portrays p head.modifier R) (hp' : Portrays p head'.modifier R')
    {state : head.modifier.definition.behaviour.lifecycle.State}
    {state' : head'.modifier.definition.behaviour.lifecycle.State}
    (hstate : Recalls R R' state state') :
    M.InStep (remembering K head.modifier state) M.Together M.AtBody
      (Mend.liveOn fuel kind head state) (Mend.liveOn fuel' kind head' state')
      (fun read => M.AtClose kind read.2) Alike := by
  rw [Mend.liveOn, Mend.liveOn, hp.delaysContent, hp'.delaysContent]
  refine .bind_of_refl (.bookkeeping (fun _ => ⟨rfl, rfl⟩) fun _ => .enterBody _) (fun _ => rfl)
    fun _ _ _ => ?_
  refine .bind_of_refl (h.body _ kind fuel' hhead) (fun _ => rfl) fun read read' hread => ?_
  obtain ⟨content, content', continues, rfl, rfl, hcontent⟩ := exists_read hread
  refine .bind_of_refl (.wholeSpan hhead) (fun _ => rfl) fun span span' _ => ?_
  exact .bind_of_refl (.closeModifier span span' hp hp' hstate hcontent) (fun _ => rfl)
    fun _ _ hm => .pure (Prod.ext hm rfl) fun _ _ hw => hw

theorem LockstepConstructs.readModifier (h : M.LockstepConstructs fuel) (K : Lasting)
    (kind : ModifierKind) (fuel' : Nat) :
    M.InStep K M.Together M.Firm (Parse.readModifier (fuel + 1) kind)
      (Parse.readModifier fuel' kind) (fun read => M.AtClose kind read.2) Alike := by
  refine .of_succ (y := fun fuel' => Parse.readModifier fuel' kind) rfl (fun fuel' => ?_) fuel'
  rw [readModifier_eq, readModifier_eq]
  refine .bind_of_refl (.readHead kind) (fun _ => rfl) fun head head' hhead => ?_
  refine .bind_of_refl (.bookkeeping (fun _ => ⟨rfl, rfl⟩) fun _ => .immediate) (fun _ => rfl)
    fun immediate _ hsame => ?_
  subst hsame
  obtain ⟨R, hp⟩ := exists_portrays (rfl : placeless head.modifier = placeless head.modifier)
  obtain ⟨R', hp'⟩ := exists_portrays (alike_head hhead).1
  refine .bind_remembering (.openModifier immediate hp hp')
    (fun _ _ _ => remembered_opening immediate) ?_
    fun _ _ hstate => h.liveOn K kind fuel' hhead hp hp' hstate
  intro r state r' hr hrun
  obtain ⟨c, hc⟩ := exists_answer (hp.opens immediate) hrun
  exact (h.liveOn K kind fuel rfl hp hp ⟨c, hc, hc⟩).back

/-- **All constructs are read in step**, however deep they may call each other. -/
theorem lockstepConstructs (M : Mend) (fuel : Nat) : M.LockstepConstructs fuel := by
  induction fuel with
  | zero =>
    exact ⟨fun _ _ _ => .throw, fun _ _ _ _ _ => .throw, fun _ _ _ _ _ => .throw,
      fun _ _ _ _ _ _ _ _ => .throw, fun _ _ => .throw, fun _ _ _ _ _ => .throw,
      fun _ _ _ _ _ _ => .throw⟩
  | succ fuel ih =>
    exact ⟨ih.readModifier,
      fun K fuel' _ _ hnodes => .readInline (ih.modifier K .inline) fuel' hnodes,
      fun K fuel' _ _ => ih.readParagraph K fuel',
      fun K fuel' _ _ _ _ => ih.readInlineBody K fuel', ih.readBlock,
      fun K fuel' _ _ => ih.readGroup K fuel',
      fun K kind fuel' _ _ => ih.readBody K kind fuel'⟩

end Constructs

/-! ### The whole source -/

section Source

/-- Spacing that is not reported lies before the gap. -/
theorem InStep.skipSpacing {P : List Char → Prop}
    (hP : M.Arises → ∀ passed w, M.Firm w → P (passed ++ w)) :
    M.InStep K M.Together P Parse.skipSpacing Parse.skipSpacing (fun _ => M.Firm) Eq := by
  refine .skipWhile (fun hM passed w _ h => hP hM passed w h) fun _ w h hstop => ?_
  rwa [List.head?_append_of_ne_nil w h.ne_nil] at hstop ⊢

theorem InStep.readBlocks (fuel fuel' : Nat) {nodes nodes' : List Node}
    (hnodes : Alike nodes nodes') :
    M.InStep K M.Together M.Firm (Parse.readBlocks fuel nodes) (Parse.readBlocks fuel' nodes')
      (fun _ _ => False) Alike := by
  induction fuel generalizing fuel' nodes nodes' with
  | zero => exact .throw
  | succ fuel ih =>
    refine .of_succ (y := fun fuel' => Parse.readBlocks fuel' nodes') rfl (fun fuel' => ?_) fuel'
    rw [Parse.readBlocks, Parse.readBlocks]
    refine .bind_of_refl (.isAtEndFirm (P := fun _ => False) fun _ _ h => h.elim) (fun _ => rfl)
      fun ended _ hsame => ?_
    subst hsame
    cases ended with
    | true => exact .pure (alike_reverse hnodes) fun _ _ hw => hw
    | false =>
      refine .bind_of_refl ((lockstepConstructs M fuel).block K fuel') (fun _ => rfl)
        fun read read' hread => ?_
      refine .bind_of_refl (.skipSpacing fun _ passed w h => .inl (h.append passed)) (fun _ => rfl)
        fun _ _ _ => ih fuel' ?_
      rw [Alike, placeless_append, placeless_append, alike_reverse hread, hnodes]

/-- **A source is read in step with the mended one.** -/
theorem InStep.readSource (fuel fuel' : Nat) :
    M.InStep K M.Together M.Firm (Parse.readSource fuel) (Parse.readSource fuel')
      (fun _ _ => False) Alike := by
  refine .bind_of_refl (.skipSpacing fun _ passed w h => h.append passed) (fun _ => rfl)
    fun _ _ _ => ?_
  refine .bind_of_refl (.readBlocks fuel fuel' rfl) (fun _ => rfl) fun _ _ hnodes => ?_
  exact .bind_of_refl .fireInspectors (fun _ => trivial) fun _ _ _ => .pure hnodes fun _ _ h => h

end Source

end Mend

end MacroMarkup
