import MacroMarkup.Proofs.Undisturbed
import MacroMarkup.Proofs.World

/-!
# What reading leaves behind

The constructs of a source call each other, and each is given a bound on how deep this may
go.  The bound is counted in steps of eight for each character that is left to read: on the
way from a construct back to itself at least one character is passed, and there are at most
eight calls.

* `Reader.Yields`: the reader moved on, and the engine yields what was read.
* `Reader.Adds`, `Reader.Ends`: the same behind nodes that were read before.
* `Reader.Lays`, `Reader.Completes`: what was read lies where it was read.
* `Constructs`: the laws of all constructs in a world for one bound, which `constructs` proves
  for every bound.
* `ensures_readSource`, `read_law`: the law of a whole source.
-/

namespace MacroMarkup

open Parse

namespace Reader

/-- From the first to the second reader these nodes were read. -/
structure Yields (W : World) (r : Reader) (nodes : List Node) (r' : Reader) : Prop where
  passes : r.cursor.Passes r'.cursor
  yields : W.Yields r.engine nodes r'.engine
  openGroups : r'.openGroups = r.openGroups

/-- From the first to the second reader nodes were read and put behind those before, the last
one first. -/
def Adds (W : World) (r : Reader) (before nodes : List Node) (r' : Reader) : Prop :=
  ∃ new, r.Yields W new r' ∧ compounds nodes = (compounds new).reverse ++ compounds before

/-- From the first to the second reader nodes were read, which are all now, in order, with
those before. -/
def Ends (W : World) (r : Reader) (before nodes : List Node) (r' : Reader) : Prop :=
  ∃ new, r.Yields W new r' ∧ compounds nodes = (compounds before).reverse ++ compounds new

def Lays (r r' : Reader) (nodes : List Node) : Prop :=
  ∀ source, r.cursor.Anchored source →
    Node.Laid source r.cursor.position r'.cursor.position nodes

/-- The nodes, in order, lie behind those that were read before, the last one first. -/
def Completes (r : Reader) (before : List Node) (r' : Reader) (nodes : List Node) : Prop :=
  ∀ source lo, r.cursor.Anchored source → Node.Written source lo r.cursor.position before →
    Node.Laid source lo r'.cursor.position nodes

def CompletesBlocks (r : Reader) (before : List Node) (r' : Reader) (nodes : List Node) : Prop :=
  ∀ source lo, r.cursor.Anchored source →
    Node.Blocks source lo r.cursor.position before.reverse →
    Node.Blocks source lo r'.cursor.position nodes

variable {W : World} {r r' r'' : Reader} {before nodes nodes' : List Node}

theorem Yields.left_le (h : r.Yields W nodes r') : r'.left ≤ r.left := h.passes.length_le

theorem Yields.sound (h : r.Yields W nodes r') : W.Sound r'.engine := W.sound h.yields

theorem Yields.append (h : r.Yields W nodes r') (g : r'.Yields W nodes' r'') :
    r.Yields W (nodes ++ nodes') r'' :=
  ⟨h.passes.trans g.passes, W.append h.yields g.yields, g.openGroups.trans h.openGroups⟩

theorem Yields.same (h : r.Yields W nodes r') (hsame : compounds nodes' = compounds nodes) :
    r.Yields W nodes' r' :=
  ⟨h.passes, W.same h.yields hsame, h.openGroups⟩

theorem Scans.sound (h : r.Scans r') (he : W.Sound r.engine) : W.Sound r'.engine :=
  W.reports h.reports he

theorem Scans.yields (h : r.Scans r') (he : W.Sound r.engine)
    (hnodes : ∀ n ∈ nodes, n.isLeaf = true) : r.Yields W nodes r' :=
  ⟨h.passes, W.later (W.leaves he hnodes) h.reports, h.openGroups⟩

theorem Yields.behind (h : r.Scans r') (g : r'.Yields W nodes r'') : r.Yields W nodes r'' :=
  ⟨h.passes.trans g.passes, W.earlier h.reports g.yields, g.openGroups.trans h.openGroups⟩

theorem Yields.scans (h : r.Yields W nodes r') (g : r'.Scans r'') : r.Yields W nodes r'' :=
  ⟨h.passes.trans g.passes, W.later h.yields g.reports, g.openGroups.trans h.openGroups⟩

theorem Adds.passes (h : r.Adds W before nodes r') : r.cursor.Passes r'.cursor := by
  obtain ⟨new, hnew, -⟩ := h
  exact hnew.passes

theorem Adds.sound (h : r.Adds W before nodes r') : W.Sound r'.engine := by
  obtain ⟨new, hnew, -⟩ := h
  exact hnew.sound

theorem Ends.left_le (h : r.Ends W before nodes r') : r'.left ≤ r.left := by
  obtain ⟨new, hnew, -⟩ := h
  exact hnew.left_le

theorem Ends.yields (h : r.Ends W [] nodes r') : r.Yields W nodes r' := by
  obtain ⟨new, hnew, hnodes⟩ := h
  exact hnew.same hnodes

theorem Adds.ends (h : r.Adds W before nodes r') (g : r'.Ends W nodes nodes' r'') :
    r.Ends W before nodes' r'' := by
  obtain ⟨new, hnew, hnodes⟩ := h
  obtain ⟨new', hnew', hnodes'⟩ := g
  refine ⟨new ++ new', hnew.append hnew', ?_⟩
  rw [hnodes', hnodes, compounds_append, List.reverse_append, List.reverse_reverse,
    List.append_assoc]

theorem Scans.adds (h : r.Scans r') (he : W.Sound r.engine)
    (hnodes : compounds nodes = compounds before) : r.Adds W before nodes r' :=
  ⟨[], h.yields he (List.forall_mem_nil _), hnodes⟩

theorem Yields.adds {node : Node} (h : r.Yields W [node] r') :
    r.Adds W before (node :: before) r' :=
  ⟨[node], h, by rw [← List.singleton_append, compounds_append, ← compounds_reverse]; rfl⟩

theorem Yields.addsBlocks (h : r.Yields W nodes r') :
    r.Adds W before (nodes.reverse ++ before) r' :=
  ⟨nodes, h, by rw [compounds_append, compounds_reverse]⟩

theorem Scans.ends (h : r.Scans r') (he : W.Sound r.engine) :
    r.Ends W before before.reverse r' :=
  ⟨[], h.yields he (List.forall_mem_nil _), by
    rw [compounds_reverse]
    exact (List.append_nil _).symm⟩

/-- The nodes that were there before are complete, wherever reading goes on. -/
theorem Scans.completes (h : r.Scans r') : r.Completes before r' before.reverse :=
  fun _ _ _ hbefore => hbefore.laid.widen (Nat.le_refl _) h.position_le

theorem Extends.completes {continues : Bool} (h : r.Extends before r' nodes continues)
    (g : r'.Scans r'') : r.Completes before r'' nodes.reverse :=
  fun source lo hanchored hbefore =>
    (h source lo hanchored hbefore).1.widen (Nat.le_refl _) g.position_le

theorem Extends.trans_completes (hpasses : r.cursor.Passes r'.cursor)
    (h : r.Extends before r' nodes true) (g : r'.Completes nodes r'' nodes') :
    r.Completes before r'' nodes' :=
  fun source lo hanchored hbefore =>
    g source lo (hpasses.anchored hanchored) ((h source lo hanchored hbefore).2 rfl)

/-- What is complete behind nothing lies between the readers. -/
theorem Completes.lays (h : r.Completes [] r' nodes) : r.Lays r' nodes :=
  fun source hanchored => h source _ hanchored (.nil (Nat.le_refl _))

theorem Lays.behind (h : r.Scans r') (g : r'.Lays r'' nodes) : r.Lays r'' nodes :=
  fun source hanchored =>
    (g source (h.anchored hanchored)).widen h.position_le (Nat.le_refl _)

theorem Scans.lays_nothing (h : r.Scans r') : r.Lays r' [] := fun _ _ => .nil h.position_le

end Reader

/-- A mark of a block that is next. -/
def Reader.StartsBlock (r : Reader) : Prop :=
  r.cursor.peek Mark.blockOpen.text = true ∨ r.cursor.peek Mark.systemOpen.text = true

/-- The laws of the constructs, for one bound on how deep they may call each other.  The bound
is large enough, unless a world puts up with one that is not. -/
structure Constructs (W : World) (fuel : Nat) : Prop where
  modifier : ∀ (kind : ModifierKind) (r : Reader), W.Sound r.engine →
    r.cursor.peek kind.opening.text = true → (W.allows .outOfFuel ∨ 8 * r.left ≤ fuel) →
    Ensures W.allows (readModifier fuel kind) r fun read r' =>
      r.Yields W [.modifier read.1] r' ∧ r'.left < r.left ∧ r.Lays r' [.modifier read.1]
  inline : ∀ (before : List Node) (r : Reader), W.Sound r.engine →
    (W.allows .outOfFuel ∨ 8 * r.left + 1 ≤ fuel) →
    Ensures W.allows (readInline fuel before) r fun read r' =>
      r.Adds W before read.1 r' ∧ (read.2 = true → r'.left < r.left) ∧
        (0 < r.left → ¬ r.StartsBlock → r'.left < r.left) ∧ r.Extends before r' read.1 read.2
  paragraph : ∀ (before : List Node) (r : Reader), W.Sound r.engine →
    (W.allows .outOfFuel ∨ 8 * r.left + 2 ≤ fuel) →
    Ensures W.allows (readParagraph fuel before) r fun nodes r' =>
      r.Ends W before nodes r' ∧ (0 < r.left → ¬ r.StartsBlock → r'.left < r.left) ∧
        r.Completes before r' nodes
  inlineBody : ∀ (d : Definition) (before : List Node) (r : Reader), W.Sound r.engine →
    (W.allows .outOfFuel ∨ 8 * r.left + 2 ≤ fuel) →
    Ensures W.allows (readInlineBody fuel d before) r fun read r' =>
      r.Ends W before read.1 r' ∧ r.Completes before r' read.1
  block : ∀ r : Reader, W.Sound r.engine → (W.allows .outOfFuel ∨ 8 * r.left + 3 ≤ fuel) →
    Ensures W.allows (readBlock fuel) r fun nodes r' =>
      r.Yields W nodes r' ∧ (0 < r.left → r'.left < r.left) ∧ r.CompletesBlocks [] r' nodes
  group : ∀ (before : List Node) (r : Reader), W.Sound r.engine →
    (W.allows .outOfFuel ∨ 8 * r.left + 4 ≤ fuel) →
    Ensures W.allows (readGroup fuel before) r fun nodes r' =>
      r.Ends W before nodes r' ∧ r.CompletesBlocks before r' nodes
  body : ∀ (kind : ModifierKind) (head : Head) (r : Reader), W.Sound r.engine →
    (W.allows .outOfFuel ∨ 8 * r.left + 4 ≤ fuel) →
    Ensures W.allows (readBody fuel kind head) r fun read r' =>
      r.Yields W read.1 r' ∧ (head.isWhole = true → read.1 = []) ∧ r.Lays r' read.1

section Steps

variable {W : World} {fuel : Nat}

/-- A modifier ends with its head, if that is all of it, or else at the cursor, and it starts
where its head does. -/
theorem ensures_wholeSpan {allows : Fault → Prop} {head : Head} {r : Reader}
    {post : Span → Reader → Prop} (hstart : head.modifier.head.start ≤ r.cursor.position)
    (h : ∀ span : Span, span.start = head.modifier.head.start →
      (head.isWhole = true ∧ span.stop = head.modifier.head.stop ∨
        span.stop = r.cursor.position) → post span r) :
    Ensures allows (wholeSpan head) r post := by
  rw [wholeSpan, ensures_ite]
  exact ⟨fun hwhole => h _ rfl (.inl ⟨hwhole, rfl⟩),
    fun _ => ensures_spanFrom hstart (h _ rfl (.inr rfl))⟩

/-- A modifier whose body was read up to the second reader lies between the readers. -/
theorem lays_modifier {F : Definition → Prop} {head : Head} {r r₁ r₂ : Reader} {span : Span}
    {content : List Node} (h₁ : r.Scans r₁) (h₂ : r₁.cursor.Passes r₂.cursor)
    (hmade : head.Made F r.cursor.position r)
    (hstop : head.modifier.head.stop = r₁.cursor.position)
    (hstart : span.start = head.modifier.head.start)
    (hspan : head.isWhole = true ∧ span.stop = head.modifier.head.stop ∨
      span.stop = r₂.cursor.position)
    (hwhole : head.isWhole = true → content = [])
    (hcontent : ∀ source, r₁.cursor.Anchored source →
      Node.Laid source r₁.cursor.position r₂.cursor.position content) :
    r.Lays r₂ [.modifier { head.modifier with span := span, content := content }] := by
  intro source hanchored
  have hbody : Node.Laid source head.modifier.head.stop span.stop content := by
    rcases hspan with hspan | hspan
    · rw [hwhole hspan.1, hspan.2]
      exact .nil (Nat.le_refl _)
    · rw [hstop, hspan]
      exact hcontent source (h₁.anchored hanchored)
  have hle : span.stop ≤ r₂.cursor.position := by
    have := h₂.position_le
    rcases hspan with hspan | hspan
    · omega
    · omega
  have hinside : span.start ≤ span.stop := by
    have := hbody.inOrder.le
    have := hmade.placed
    omega
  refine .single (.modifier hstart.symm (hmade.laid source hanchored) hbody.inOrder hbody.apart
    hbody.faithful) ?_ hinside hle
  rw [Node.span, hstart, hmade.starts]

theorem readModifier_law (ih : Constructs W fuel) (kind : ModifierKind) (r : Reader)
    (he : W.Sound r.engine) (hpeek : r.cursor.peek kind.opening.text = true)
    (hfuel : W.allows .outOfFuel ∨ 8 * r.left ≤ fuel + 1) :
    Ensures W.allows (readModifier (fuel + 1) kind) r fun read r' =>
      r.Yields W [.modifier read.1] r' ∧ r'.left < r.left ∧ r.Lays r' [.modifier read.1] := by
  rw [ensures_readModifier_iff]
  refine (ensures_readHead (W.readable he)).mono ?_
  intro head r₁ hanswer
  obtain ⟨h₁, hmoves, hstop, hmade⟩ := hanswer
  have hlt₁ : r₁.left < r.left := hmoves hpeek
  refine (W.modifier (h₁.sound he) (W.fits h₁.reports hmade.fits)
    (hmade.whole ▸ hmade.placed) hmade.content hmade.waits fun hfinal =>
      hmade.values (h₁.reports.isFinal_back hfinal)).mono ?_
  intro state opened hanswer
  obtain ⟨hopened, hclose⟩ := hanswer
  have hfuel₁ : W.allows .outOfFuel ∨ 8 * r₁.left + 4 ≤ fuel := hfuel.imp_right fun h => by omega
  refine (ih.body kind head
    { r₁ with engine := opened.inBody head.modifier.definition.delaysContent } hopened
    hfuel₁).mono ?_
  intro answer r₂ hanswer
  obtain ⟨content, continues⟩ := answer
  obtain ⟨h₂, hwhole, hcontent⟩ := hanswer
  have hpasses : r₁.cursor.Passes r₂.cursor := h₂.passes
  have hstart : head.modifier.head.start ≤ r₂.cursor.position := by
    rw [hmade.starts]
    exact Nat.le_trans h₁.position_le hpasses.position_le
  refine ensures_wholeSpan hstart fun span hspan hends => ?_
  have hplaced : span.start ≤ head.modifier.head.stop := hspan ▸ hmade.placed
  have hlays := lays_modifier h₁ hpasses hmade hstop hspan hends hwhole hcontent
  refine (hclose content r₂.engine span h₂.yields hplaced).mono ?_
  intro state outside hexpand
  refine (hexpand.and
    (ensures_expandRead_alike (undisturbing_process .stays _) hmade.waits)).mono ?_
  intro answer e' hanswer
  obtain ⟨m, complete⟩ := answer
  obtain ⟨hyields, hstays⟩ := hanswer
  refine ⟨⟨h₁.passes.trans hpasses, W.earlier h₁.reports hyields,
    h₂.openGroups.trans h₁.openGroups⟩, ?_, fun source hanchored => ?_⟩
  · exact Nat.lt_of_le_of_lt h₂.left_le hlt₁
  · exact (hlays source hanchored).stays (.cons hstays .nil)

theorem readInline_law (ih : Constructs W fuel) (before : List Node) (r : Reader)
    (he : W.Sound r.engine) (hfuel : W.allows .outOfFuel ∨ 8 * r.left + 1 ≤ fuel + 1) :
    Ensures W.allows (readInline (fuel + 1) before) r fun read r' =>
      r.Adds W before read.1 r' ∧ (read.2 = true → r'.left < r.left) ∧
        (0 < r.left → ¬ r.StartsBlock → r'.left < r.left) ∧
        r.Extends before r' read.1 read.2 := by
  simp only [readInline, ensures_bind, ensures_peek]
  rw [ensures_ite]
  refine ⟨fun hblock => ?_, fun _ => ?_⟩
  · simp only [ensures_bind, ensures_position]
    refine ensures_emit rfl fun r₁ h₁ _ => ?_
    exact ⟨h₁.adds he rfl, fun h => absurd h Bool.false_ne_true,
      fun _ hstarts => absurd (.inl hblock) hstarts, h₁.extends_nothing⟩
  simp only [ensures_bind, ensures_peek]
  rw [ensures_ite]
  refine ⟨fun hinline => ?_, fun _ => ?_⟩
  · rw [ensures_bind]
    refine (ih.modifier .inline r he hinline (hfuel.imp_right fun h => by omega)).mono ?_
    intro answer r₁ hanswer
    obtain ⟨m, continues⟩ := answer
    obtain ⟨h₁, hlt, hlays⟩ := hanswer
    refine ⟨h₁.adds, fun _ => hlt, fun _ _ => hlt, ?_⟩
    refine Reader.extends_of_written fun source lo hanchored hwritten => ?_
    have hlaid := hlays source hanchored
    obtain ⟨hstart, hspan, hstop⟩ := hlaid.inOrder
    exact hwritten.push (hlaid.faithful _ List.mem_cons_self) rfl hstart hspan hstop
  simp only [ensures_bind, ensures_peek]
  rw [ensures_ite]
  refine ⟨fun hsystem => ?_, fun _ => ?_⟩
  · have hstays := Reader.Scans.refl r
    exact ⟨hstays.adds he rfl, fun h => absurd h Bool.false_ne_true,
      fun _ hstarts => absurd (.inr hsystem) hstarts, hstays.extends_nothing⟩
  simp only [ensures_bind, ensures_position]
  refine ensures_acceptMark (fun r₁ h₁ hlt hmark => ?_) fun _ => ?_
  · simp only [if_true, ensures_bind]
    refine (ensures_readEscaped h₁ hmark before).mono ?_
    intro nodes r₂ hanswer
    obtain ⟨h₂, hle, hnodes, hextends⟩ := hanswer
    have hlt₂ : r₂.left < r.left := Nat.lt_of_le_of_lt hle hlt
    exact ⟨h₂.adds he hnodes, fun _ => hlt₂, fun _ _ => hlt₂, hextends⟩
  · simp only [Bool.false_eq_true, if_false]
    refine (ensures_readCharacter before).mono ?_
    intro answer r₁ hanswer
    obtain ⟨nodes, continues⟩ := answer
    obtain ⟨h₁, hnodes, hmoves, hlt, hextends⟩ := hanswer
    exact ⟨h₁.adds he hnodes, hmoves, fun hleft _ => hlt (List.length_pos_iff.mp hleft), hextends⟩

theorem isAtEnd_eq_false {r : Reader} (h : r.cursor.isAtEnd ≠ true) : 0 < r.left := by
  rw [Cursor.isAtEnd, ne_eq, List.isEmpty_iff] at h
  exact List.length_pos_iff.mpr h

theorem readParagraph_law (ih : Constructs W fuel) (before : List Node) (r : Reader)
    (he : W.Sound r.engine) (hfuel : W.allows .outOfFuel ∨ 8 * r.left + 2 ≤ fuel + 1) :
    Ensures W.allows (readParagraph (fuel + 1) before) r fun nodes r' =>
      r.Ends W before nodes r' ∧ (0 < r.left → ¬ r.StartsBlock → r'.left < r.left) ∧
        r.Completes before r' nodes := by
  simp only [readParagraph, ensures_bind, ensures_isAtEnd]
  rw [ensures_ite]
  refine ⟨fun hend => ?_, fun _ => ?_⟩
  · have hstays := Reader.Scans.refl r
    refine ⟨hstays.ends he, fun hleft => ?_, hstays.completes⟩
    rw [Cursor.isAtEnd, List.isEmpty_iff] at hend
    exact absurd (List.length_pos_iff.mp hleft) (fun h => h hend)
  rw [ensures_bind]
  refine (ih.inline before r he (hfuel.imp_right fun h => by omega)).mono ?_
  intro answer r₁ hanswer
  obtain ⟨nodes, continues⟩ := answer
  obtain ⟨h₁, hmoves, hlt, hextends⟩ := hanswer
  simp only [ensures_ite]
  refine ⟨fun hcontinues => ?_, fun _ => ?_⟩
  · have hlt₁ : r₁.left < r.left := hmoves hcontinues
    subst hcontinues
    refine (ih.paragraph nodes r₁ h₁.sound (hfuel.imp_right fun h => by omega)).mono ?_
    intro nodes' r₂ hanswer
    obtain ⟨h₂, -, hcompletes⟩ := hanswer
    exact ⟨h₁.ends h₂, fun _ _ => Nat.lt_of_le_of_lt h₂.left_le hlt₁,
      hextends.trans_completes h₁.passes hcompletes⟩
  · have hstays := Reader.Scans.refl r₁
    exact ⟨h₁.ends (hstays.ends h₁.sound), hlt, hextends.completes hstays⟩

theorem readInlineBody_law (ih : Constructs W fuel) (d : Definition) (before : List Node)
    (r : Reader) (he : W.Sound r.engine) (hfuel : W.allows .outOfFuel ∨ 8 * r.left + 2 ≤ fuel + 1) :
    Ensures W.allows (readInlineBody (fuel + 1) d before) r fun read r' =>
      r.Ends W before read.1 r' ∧ r.Completes before r' read.1 := by
  simp only [readInlineBody, ensures_bind]
  refine ensures_acceptInlineClose (fun r₁ h₁ => ?_) ?_
  · exact ⟨h₁.ends he, h₁.completes⟩
  simp only [Bool.false_eq_true, if_false, ensures_bind, ensures_isAtEnd]
  rw [ensures_ite]
  refine ⟨fun _ => ?_, fun _ => ?_⟩
  · simp only [ensures_bind, ensures_position]
    exact ensures_emit rfl fun r₁ h₁ _ => ⟨h₁.ends he, h₁.completes⟩
  rw [ensures_bind]
  -- a piece of the body, which may be raw
  have piece : Ensures W.allows
      (if d.slot = .preformatted then readCharacter before else readInline fuel before) r
      fun read r₁ => r.Adds W before read.1 r₁ ∧ (read.2 = true → r₁.left < r.left) ∧
        r.Extends before r₁ read.1 read.2 := by
    rw [ensures_ite]
    refine ⟨fun _ => ?_, fun _ => ?_⟩
    · refine (ensures_readCharacter before).mono ?_
      intro answer r₁ hanswer
      obtain ⟨nodes, continues⟩ := answer
      obtain ⟨h₁, hnodes, hmoves, -, hextends⟩ := hanswer
      exact ⟨h₁.adds he hnodes, hmoves, hextends⟩
    · refine (ih.inline before r he (hfuel.imp_right fun h => by omega)).mono ?_
      exact fun read r₁ h₁ => ⟨h₁.1, h₁.2.1, h₁.2.2.2⟩
  refine piece.mono ?_
  intro answer r₁ hanswer
  obtain ⟨nodes, continues⟩ := answer
  obtain ⟨h₁, hmoves, hextends⟩ := hanswer
  rw [ensures_ite]
  refine ⟨fun hcontinues => ?_, fun _ => ?_⟩
  · have hlt := hmoves hcontinues
    cases hcontinues
    refine (ih.inlineBody d nodes r₁ h₁.sound (hfuel.imp_right fun h => by omega)).mono ?_
    intro read r₂ hanswer
    obtain ⟨h₂, hcompletes⟩ := hanswer
    exact ⟨h₁.ends h₂, hextends.trans_completes h₁.passes hcompletes⟩
  · simp only [ensures_bind, ensures_position]
    refine ensures_emit rfl fun r₂ h₂ _ => ?_
    exact ⟨h₁.ends (h₂.ends h₁.sound), hextends.completes h₂⟩

theorem blockModifier_law (ih : Constructs W fuel) {kind : ModifierKind} {r r₁ : Reader}
    (h₁ : r.Scans r₁) (hleft : r₁.left = r.left) (he₁ : W.Sound r₁.engine)
    (hpeek : r₁.cursor.peek kind.opening.text = true)
    (hfuel : W.allows .outOfFuel ∨ 8 * r₁.left ≤ fuel) :
    Ensures W.allows (readModifier fuel kind >>= fun read => pure [.modifier read.1]) r₁
      fun nodes r' => r.Yields W nodes r' ∧ (0 < r.left → r'.left < r.left) ∧
        r.CompletesBlocks [] r' nodes := by
  rw [ensures_bind]
  refine (ih.modifier kind r₁ he₁ hpeek hfuel).mono ?_
  intro answer r₂ hanswer
  obtain ⟨m, continues⟩ := answer
  obtain ⟨h₂, hlt, hlays⟩ := hanswer
  refine ⟨h₂.behind h₁, fun _ => hleft ▸ hlt, fun source lo hanchored hbefore => ?_⟩
  refine ⟨(hlays.behind h₁ source hanchored).widen hbefore.inOrder.le (Nat.le_refl _),
    fun n hn => ?_⟩
  rw [List.mem_singleton.mp hn]
  rfl

theorem readBlock_law (ih : Constructs W fuel) (r : Reader) (he : W.Sound r.engine)
    (hfuel : W.allows .outOfFuel ∨ 8 * r.left + 3 ≤ fuel + 1) :
    Ensures W.allows (readBlock (fuel + 1)) r fun nodes r' =>
      r.Yields W nodes r' ∧ (0 < r.left → r'.left < r.left) ∧
        r.CompletesBlocks [] r' nodes := by
  simp only [readBlock, ensures_bind]
  refine ensures_fireInspectors fun r₁ h₁ hrest => ?_
  have he₁ : W.Sound r₁.engine := h₁.sound he
  have hleft : r₁.left = r.left := by rw [Reader.left, hrest]
  have hfuel₁ : W.allows .outOfFuel ∨ 8 * r₁.left ≤ fuel := hfuel.imp_right fun h => by omega
  simp only [ensures_peek]
  rw [ensures_ite]
  refine ⟨fun hblock => blockModifier_law ih h₁ hleft he₁ hblock hfuel₁, fun hblock => ?_⟩
  simp only [ensures_bind, ensures_peek]
  rw [ensures_ite]
  refine ⟨fun hsystem => blockModifier_law ih h₁ hleft he₁ hsystem hfuel₁, fun hsystem => ?_⟩
  simp only [ensures_bind]
  refine ensures_accept (fun _ r₂ h₂ hlt => ?_) fun _ => ?_
  · simp only [if_true, ensures_bind, ensures_modify]
    refine ensures_endLine fun r₃ h₃ => ensures_enter.mpr (ensures_skipLines fun r₄ h₄ => ?_)
    have hopen := h₃.trans ((Reader.scans_enter .blocks).trans h₄)
    have hle₄ : r₄.left ≤ r₂.left := hopen.left_le
    have hlt₄ : r₄.left < r.left := Nat.lt_of_le_of_lt hle₄ (hleft ▸ hlt)
    refine (ih.group [] r₄ (hopen.sound (h₂.sound he₁)) (hfuel.imp_right fun h => by omega)).mono ?_
    intro nodes r₅ hanswer
    obtain ⟨h₅, hcompletes⟩ := hanswer
    have hyields := h₅.yields
    have hgroups : r₅.openGroups - 1 = r₂.openGroups := by
      rw [hyields.openGroups, hopen.openGroups, Nat.add_sub_cancel]
    have hpasses : r₁.cursor.Passes r₄.cursor := h₂.passes.trans hopen.passes
    refine ⟨Reader.Yields.behind h₁ ⟨?_, ?_, hgroups.trans h₂.openGroups⟩, fun _ => ?_, ?_⟩
    · exact hpasses.trans hyields.passes
    · exact W.earlier (h₂.reports.trans hopen.reports) hyields.yields
    · exact Nat.lt_of_le_of_lt h₅.left_le hlt₄
    · intro source lo hanchored hbefore
      have hpasses' := h₁.passes.trans hpasses
      refine hcompletes source lo (hpasses'.anchored hanchored) (.nil ?_)
      exact Nat.le_trans hbefore.inOrder.le hpasses'.position_le
  · simp only [Bool.false_eq_true, if_false, ensures_bind, ensures_position]
    refine (ih.paragraph [] r₁ he₁ (hfuel.imp_right fun h => by omega)).mono ?_
    intro nodes r₂ hanswer
    obtain ⟨h₂, hlt, hcompletes⟩ := hanswer
    have hyields := h₂.yields
    refine ensures_spanFrom hyields.passes.position_le ?_
    refine ⟨Reader.Yields.behind h₁ ⟨hyields.passes, W.paragraph _ hyields.yields,
      hyields.openGroups⟩, fun hpos => ?_, fun source lo hanchored hbefore => ?_⟩
    · exact hleft ▸ hlt (hleft ▸ hpos) (not_or.mpr ⟨hblock, hsystem⟩)
    · have hlaid := hcompletes.lays source (h₁.anchored hanchored)
      refine ⟨.single (.paragraph hlaid.inOrder hlaid.apart hlaid.faithful) ?_
        hlaid.inOrder.le (Nat.le_refl _), fun n hn => ?_⟩
      · exact Nat.le_trans hbefore.inOrder.le h₁.position_le
      · rw [List.mem_singleton.mp hn]
        rfl

theorem Reader.completesBlocks_cons {r r₁ r₂ r₃ : Reader} {before nodes nodes' : List Node}
    (h₁ : r.cursor.Passes r₁.cursor) (h₂ : r₁.Scans r₂) (h : r.CompletesBlocks [] r₁ nodes)
    (g : r₂.CompletesBlocks (nodes.reverse ++ before) r₃ nodes') :
    r.CompletesBlocks before r₃ nodes' := by
  intro source lo hanchored hbefore
  have hnodes : Node.Blocks source r.cursor.position r₁.cursor.position nodes :=
    h source _ hanchored (.nil (Nat.le_refl _))
  refine g source lo (h₂.anchored (h₁.anchored hanchored)) ?_
  rw [List.reverse_append, List.reverse_reverse]
  exact hbefore.append ⟨hnodes.toLaid.widen (Nat.le_refl _) h₂.position_le, hnodes.noText⟩

theorem Reader.Scans.completesBlocks {r r' : Reader} {before : List Node} (h : r.Scans r') :
    r.CompletesBlocks before r' before.reverse :=
  fun _ _ _ hbefore =>
    ⟨hbefore.toLaid.widen (Nat.le_refl _) h.position_le, hbefore.noText⟩

theorem readGroup_law (ih : Constructs W fuel) (before : List Node) (r : Reader)
    (he : W.Sound r.engine) (hfuel : W.allows .outOfFuel ∨ 8 * r.left + 4 ≤ fuel + 1) :
    Ensures W.allows (readGroup (fuel + 1) before) r fun nodes r' =>
      r.Ends W before nodes r' ∧ r.CompletesBlocks before r' nodes := by
  simp only [readGroup, ensures_bind, ensures_isAtEnd]
  rw [ensures_ite]
  refine ⟨fun _ => ?_, fun hend => ?_⟩
  · simp only [ensures_bind, ensures_leave, ensures_position]
    refine ensures_emit rfl fun r₁ h₁ _ => ?_
    have hs := (Reader.scans_leave false).trans h₁
    exact ⟨hs.ends he, hs.completesBlocks⟩
  simp only [ensures_bind]
  refine ensures_accept (fun _ r₁ h₁ _ => ?_) fun _ => ?_
  · have hs := h₁.trans (Reader.scans_leave true)
    exact ⟨hs.ends he, hs.completesBlocks⟩
  simp only [Bool.false_eq_true, if_false, ensures_bind]
  refine (ih.block r he (hfuel.imp_right fun h => by omega)).mono ?_
  intro nodes r₁ hanswer
  obtain ⟨h₁, hlt, hblocks⟩ := hanswer
  refine ensures_skipLines fun r₂ h₂ => ?_
  have hlt₁ : r₁.left < r.left := hlt (isAtEnd_eq_false hend)
  have hle₂ := h₂.left_le
  have hadds : r.Adds W before (nodes.reverse ++ before) r₂ := (h₁.scans h₂).addsBlocks
  refine (ih.group _ r₂ hadds.sound (hfuel.imp_right fun h => by omega)).mono ?_
  intro nodes' r₃ hanswer
  obtain ⟨h₃, hcompletes⟩ := hanswer
  exact ⟨hadds.ends h₃, Reader.completesBlocks_cons h₁.passes h₂ hblocks hcompletes⟩

theorem readBody_law (ih : Constructs W fuel) (kind : ModifierKind) (head : Head) (r : Reader)
    (he : W.Sound r.engine) (hfuel : W.allows .outOfFuel ∨ 8 * r.left + 4 ≤ fuel + 1) :
    Ensures W.allows (readBody (fuel + 1) kind head) r fun read r' =>
      r.Yields W read.1 r' ∧ (head.isWhole = true → read.1 = []) ∧ r.Lays r' read.1 := by
  have nothing : ∀ r', r.Scans r' →
      r.Yields W [] r' ∧ (head.isWhole = true → ([] : List Node) = []) ∧ r.Lays r' [] :=
    fun r' h => ⟨h.yields he (List.forall_mem_nil _), fun _ => rfl, h.lays_nothing⟩
  simp only [readBody]
  rw [ensures_ite]
  refine ⟨fun _ => nothing r (.refl r), fun hpart => ?_⟩
  rw [ensures_ite]
  refine ⟨fun _ => ?_, fun _ => ?_⟩
  · refine (ih.inlineBody _ [] r he (hfuel.imp_right fun h => by omega)).mono ?_
    intro read r₁ hanswer
    obtain ⟨h₁, hcompletes⟩ := hanswer
    exact ⟨h₁.yields, fun h => absurd h hpart, hcompletes.lays⟩
  simp only [ensures_bind]
  refine ensures_skipLines fun r₁ h₁ => ?_
  have he₁ : W.Sound r₁.engine := h₁.sound he
  have hle₁ := h₁.left_le
  simp only [ensures_isAtEnd]
  rw [ensures_ite]
  refine ⟨fun _ => nothing r₁ h₁, fun _ => ?_⟩
  rw [ensures_ite]
  refine ⟨fun _ => ?_, fun _ => ?_⟩
  · rw [ensures_bind]
    refine ensures_readPreformatted.mono ?_
    intro node r₂ hanswer
    obtain ⟨h₂, hleaf, hlaid⟩ := hanswer
    exact ⟨(h₁.trans h₂).yields he fun n hn => List.mem_singleton.mp hn ▸ hleaf,
      fun h => absurd h hpart, Reader.Lays.behind h₁ hlaid⟩
  · rw [ensures_bind]
    refine (ih.block r₁ he₁ (hfuel.imp_right fun h => by omega)).mono ?_
    intro nodes r₂ hanswer
    obtain ⟨h₂, -, hblocks⟩ := hanswer
    refine ⟨h₂.behind h₁, fun h => absurd h hpart, Reader.Lays.behind h₁ fun source hanchored => ?_⟩
    exact (hblocks source _ hanchored (.nil (Nat.le_refl _))).toLaid

/-- **The laws of all constructs hold for every bound.** -/
theorem constructs (W : World) (fuel : Nat) : Constructs W fuel := by
  induction fuel with
  | zero =>
    refine ⟨fun kind r _ hpeek hfuel => ?_, fun _ r _ hfuel => ?_, fun _ r _ hfuel => ?_,
      fun _ _ r _ hfuel => ?_, fun r _ hfuel => ?_, fun _ r _ hfuel => ?_,
      fun _ _ r _ hfuel => ?_⟩
    · have hlt := Cursor.length_advance_lt (mark_text_ne_empty kind.opening) hpeek
      exact hfuel.resolve_right (by simp only [Reader.left]; omega)
    all_goals exact hfuel.resolve_right (by omega)
  | succ fuel ih =>
    exact ⟨readModifier_law ih, readInline_law ih, readParagraph_law ih, readInlineBody_law ih,
      readBlock_law ih, readGroup_law ih, readBody_law ih⟩

end Steps

/-! ### A whole source -/

section Source

variable {W : World}

theorem ensures_readBlocks (fuel : Nat) : ∀ (before : List Node) (r : Reader),
    W.Sound r.engine → 8 * r.left + 4 ≤ fuel →
    Ensures W.allows (readBlocks fuel before) r fun nodes r' =>
      r.Ends W before nodes r' ∧ r'.cursor.rest = [] ∧ r.CompletesBlocks before r' nodes := by
  induction fuel with
  | zero => intro _ r _ hfuel; omega
  | succ fuel ih =>
    intro before r he hfuel
    simp only [readBlocks, ensures_bind, ensures_isAtEnd]
    rw [ensures_ite]
    refine ⟨fun hend => ?_, fun hend => ?_⟩
    · have hstays := Reader.Scans.refl r
      exact ⟨hstays.ends he, List.isEmpty_iff.mp hend, hstays.completesBlocks⟩
    rw [ensures_bind]
    refine ((constructs W fuel).block r he (.inr (by omega))).mono ?_
    intro nodes r₁ hanswer
    obtain ⟨h₁, hlt, hblocks⟩ := hanswer
    rw [ensures_bind]
    refine ensures_skipSpacing fun r₂ h₂ => ?_
    have hlt₁ : r₁.left < r.left := hlt (isAtEnd_eq_false hend)
    have hle₂ := h₂.left_le
    have hadds : r.Adds W before (nodes.reverse ++ before) r₂ := (h₁.scans h₂).addsBlocks
    refine (ih _ r₂ hadds.sound (by omega)).mono ?_
    intro nodes' r₃ hanswer
    obtain ⟨h₃, hend₃, hcompletes⟩ := hanswer
    exact ⟨hadds.ends h₃, hend₃,
      Reader.completesBlocks_cons h₁.passes h₂ hblocks hcompletes⟩

/-- **A whole source is read up to its end**, and its nodes lie where they were read. -/
theorem ensures_readSource {fuel : Nat} {r : Reader} (he : W.Sound r.engine)
    (hfuel : 8 * r.left + 4 ≤ fuel) :
    Ensures W.allows (readSource fuel) r fun nodes r' =>
      r.Yields W nodes r' ∧ r'.cursor.rest = [] ∧ r.Lays r' nodes := by
  simp only [readSource, ensures_bind]
  refine ensures_skipSpacing fun r₁ h₁ => ?_
  have hle₁ := h₁.left_le
  refine (ensures_readBlocks fuel [] r₁ (h₁.sound he) (by omega)).mono ?_
  intro nodes r₂ hanswer
  obtain ⟨h₂, hend, hcompletes⟩ := hanswer
  refine ensures_fireInspectors fun r₃ h₃ hrest => ?_
  refine ⟨(h₂.yields.scans h₃).behind h₁, hrest.trans hend, fun source hanchored => ?_⟩
  have hlaid := hcompletes source _ (h₁.anchored hanchored) (.nil h₁.position_le)
  exact hlaid.toLaid.widen (Nat.le_refl _) h₃.position_le

/-- **The law of a parse in a world**: it ends with a document of the whole source, whose nodes
lie where they were read, or with a fault that is allowed. -/
theorem read_law {cx : Context} (he : W.Sound (Engine.start cx)) (source : String)
    (inspectors : List Inspector) :
    (∀ d, cx.read source inspectors = .ok d → ∃ e, W.Yields (Engine.start cx) d.content e ∧
      d.context = e.context ∧ d.messages = e.messages ∧ d.refusals = e.refusals ∧
      d.anticipations = e.anticipations ∧ d.span = ⟨0, source.toList.length⟩ ∧
      Node.Laid source.toList 0 source.toList.length d.content) ∧
    ∀ fault, cx.read source inspectors = .error fault → W.allows fault := by
  have hfuel : 8 * (Reader.start cx source inspectors).left + 4
      ≤ readingDepth (Reader.start cx source inspectors).left := by
    rw [readingDepth]
    omega
  have hanchored : (Reader.start cx source inspectors).cursor.Anchored source.toList :=
    ⟨rfl, Nat.zero_le _⟩
  obtain ⟨hok, herror⟩ := ensures_iff.mp
    (ensures_readSource (r := Reader.start cx source inspectors) he hfuel)
  simp only [Context.read, bind, Except.bind]
  cases hread : readSource (readingDepth (Reader.start cx source inspectors).cursor.rest.length)
      (Reader.start cx source inspectors) with
  | error fault =>
    refine ⟨fun d hd => absurd hd (by simp), fun fault' hfault => ?_⟩
    cases hfault
    exact herror fault hread
  | ok answer =>
    obtain ⟨content, r⟩ := answer
    obtain ⟨hyields, hend, hlays⟩ := hok content r hread
    refine ⟨fun d hd => ?_, fun fault hfault => absurd hfault (by simp [pure, Except.pure])⟩
    cases hd
    have hlast := hyields.passes.anchored hanchored
    have hlength := congrArg List.length hlast.rest
    rw [hend, List.length_drop, List.length_nil] at hlength
    have hposition : r.cursor.position = source.toList.length := by
      have := hlast.position
      omega
    have hlaid := hlays source.toList hanchored
    rw [hposition] at hlaid
    exact ⟨r.engine, hyields.yields, rfl, rfl, rfl, rfl, congrArg (Span.mk 0) hposition, hlaid⟩

end Source

end MacroMarkup
