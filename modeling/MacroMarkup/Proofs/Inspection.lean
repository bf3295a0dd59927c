import MacroMarkup.Proofs.Balance
import MacroMarkup.Proofs.Finality
import MacroMarkup.Proofs.Primitives

/-!
# Inspectors only observe

A reader shows the context to inspectors where a block starts and where the document ends.  What
it reads does not depend on them, and each of them is shown the first of these contexts that
stands at its position or behind it.

* `Parse.Alike`: a step that runs alike without inspectors.
* `watch`: what inspectors see at boundaries that come one after another.
* `Reader.Sees`: from one reader to another these boundaries were passed, and the inspectors
  that were due saw them.
* `Cursor.pairwise_queue`, `Cursor.filter_queue`: inspectors are handed out in the order of their
  positions, those of one position in the order in which they were given.
* `Context.boundaries`: the boundaries of a source, without anybody watching.
* `inspectors_only_observe`: what inspectors see of a parse, and that they change nothing of it.
-/

namespace MacroMarkup

open Parse

/-! ### Reading does not depend on inspectors -/

/-- Without inspectors the step does the same: it meets the same fault, or has the same result
and leaves the same behind, apart from what inspectors saw. -/
def Parse.Alike {α : Type} (x : Parse α) : Prop :=
  ∀ r : Reader, x r.alone = (x r).map fun answer => (answer.1, answer.2.alone)

theorem alike_of_expand {α : Type} (step : Expand α) : (expanding step).Alike := by
  intro r
  have hengine : r.alone.engine = r.engine := rfl
  simp only [expanding, bind, Except.bind, hengine]
  cases step r.engine with
  | error fault => rfl
  | ok answer => rfl

/-- **The primitive steps run alike without inspectors**, and so do sequences. -/
theorem closed_alike : Closed fun _ => Parse.Alike where
  pure := fun _ => rfl
  throw := fun _ => rfl
  lift := by
    intro α x r
    cases x with
    | error fault => rfl
    | ok a => rfl
  bind := by
    intro α β x f hx hf r
    cases hrun : x r with
    | error fault =>
      have halone : x r.alone = .error fault := by rw [hx r, hrun]; rfl
      rw [bind_of_error hrun, bind_of_error halone]
      rfl
    | ok answer =>
      have halone : x r.alone = .ok (answer.1, answer.2.alone) := by rw [hx r, hrun]; rfl
      rw [bind_of_ok hrun, bind_of_ok halone]
      exact hf answer.1 answer.2
  look := by
    intro α f hsame hf r
    show f r.alone r.alone = (f r r).map _
    rw [hsame r]
    exact hf r r
  advance := fun _ _ => rfl
  skipWhile := fun _ _ => rfl
  accept := by
    intro mark r
    have hpeek : r.alone.cursor.peek mark.text = r.cursor.peek mark.text := rfl
    simp only [Parse.accept, Cursor.accept, hpeek]
    split
    · rfl
    · rfl
  takeChar? := by
    rintro ⟨⟨source, rest, position, queue⟩, engine, openGroups, sightings⟩
    cases rest with
    | nil => rfl
    | cons c rest => rfl
  regroup := fun _ _ => rfl
  enter := fun _ _ => rfl
  leave := fun _ _ => rfl
  emit := fun _ _ => rfl
  evaluate := fun arguments => alike_of_expand (expandArguments arguments)
  fireInspectors := fun _ => rfl

/-- **Inspectors do not steer**: a source is read alike without them. -/
theorem alike_readSource (fuel : Nat) : (readSource fuel).Alike :=
  closed_alike.readSource closed_alike.encloses
    (fun _ hbody kind => closed_alike.readModifier closed_alike.readEntities alike_of_expand
      (hbody kind)) fuel

/-! ### The order of inspectors -/

namespace Cursor

/-- The inspectors that are not handed out yet, in the order in which they will be. -/
def queue (inspectors : List Inspector) : List Inspector :=
  inspectors.foldl (fun sorted x => insertInspector x sorted) []

theorem mem_insertInspector {x y : Inspector} {ys : List Inspector} :
    y ∈ insertInspector x ys ↔ y = x ∨ y ∈ ys := by
  induction ys with
  | nil => simp [insertInspector]
  | cons z zs ih =>
    unfold insertInspector
    split
    · simp only [List.mem_cons, ih]
      exact or_left_comm
    · exact List.mem_cons

theorem pairwise_insertInspector (x : Inspector) {ys : List Inspector}
    (h : ys.Pairwise (·.position ≤ ·.position)) :
    (insertInspector x ys).Pairwise (·.position ≤ ·.position) := by
  induction ys with
  | nil => exact List.pairwise_singleton _ x
  | cons y ys ih =>
    obtain ⟨hy, hys⟩ := List.pairwise_cons.mp h
    unfold insertInspector
    split
    · rename_i hle
      refine List.pairwise_cons.mpr ⟨fun z hz => ?_, ih hys⟩
      rcases mem_insertInspector.mp hz with rfl | hz
      · exact hle
      · exact hy z hz
    · rename_i hlt
      refine List.pairwise_cons.mpr ⟨fun z hz => ?_, h⟩
      rcases List.mem_cons.mp hz with rfl | hz
      · omega
      · have hyz := hy z hz
        omega

theorem filter_insertInspector (x : Inspector) (p : Nat) {ys : List Inspector}
    (h : ys.Pairwise (·.position ≤ ·.position)) :
    (insertInspector x ys).filter (·.position = p)
      = ys.filter (·.position = p) ++ [x].filter (·.position = p) := by
  induction ys with
  | nil => rfl
  | cons y ys ih =>
    obtain ⟨hy, hys⟩ := List.pairwise_cons.mp h
    unfold insertInspector
    split
    · rw [List.filter_cons, List.filter_cons, ih hys]
      split
      · rfl
      · rfl
    · rename_i hlt
      by_cases hx : x.position = p
      · have hbehind : (y :: ys).filter (·.position = p) = [] := by
          refine List.filter_eq_nil_iff.mpr fun z hz => ?_
          rcases List.mem_cons.mp hz with rfl | hz
          · simp only [decide_eq_true_eq]
            omega
          · have hyz := hy z hz
            simp only [decide_eq_true_eq]
            omega
        rw [List.filter_cons, if_pos (by simpa using hx), hbehind]
        simp [hx]
      · rw [List.filter_cons, if_neg (by simpa using hx)]
        simp [hx]

/-- Inspectors are handed out in the order of their positions. -/
theorem pairwise_queue (inspectors : List Inspector) :
    (queue inspectors).Pairwise (·.position ≤ ·.position) := by
  have hfold : ∀ xs sorted : List Inspector, sorted.Pairwise (·.position ≤ ·.position) →
      (xs.foldl (fun sorted x => insertInspector x sorted) sorted).Pairwise
        (·.position ≤ ·.position) := by
    intro xs
    induction xs with
    | nil => exact fun _ h => h
    | cons x xs ih => exact fun sorted h => ih _ (pairwise_insertInspector x h)
  exact hfold inspectors [] .nil

/-- Inspectors of one position are handed out in the order in which they were given. -/
theorem filter_queue (inspectors : List Inspector) (p : Nat) :
    (queue inspectors).filter (·.position = p) = inspectors.filter (·.position = p) := by
  have hfold : ∀ xs sorted : List Inspector, sorted.Pairwise (·.position ≤ ·.position) →
      (xs.foldl (fun sorted x => insertInspector x sorted) sorted).filter (·.position = p)
        = sorted.filter (·.position = p) ++ xs.filter (·.position = p) := by
    intro xs
    induction xs with
    | nil => exact fun sorted _ => (List.append_nil _).symm
    | cons x xs ih =>
      intro sorted h
      rw [List.foldl_cons, ih _ (pairwise_insertInspector x h), filter_insertInspector x p h,
        List.append_assoc, ← List.filter_append, List.singleton_append]
  exact hfold inspectors [] .nil

end Cursor

/-! ### What inspectors see at boundaries -/

/-- What inspectors see, who are handed out in this order, at boundaries that come one after
another; and who is left. -/
def watch : List Inspector → List Boundary → List Sighting × List Inspector
  | queue, [] => ([], queue)
  | queue, b :: later =>
    let due := queue.takeWhile (·.position ≤ b.position)
    let (seen, left) := watch (queue.dropWhile (·.position ≤ b.position)) later
    (due.map (fun x => ⟨x, b.position, b.context⟩) ++ seen, left)

theorem watch_append (bs bs' : List Boundary) : ∀ queue : List Inspector,
    watch queue (bs ++ bs') = ((watch queue bs).1 ++ (watch (watch queue bs).2 bs').1,
      (watch (watch queue bs).2 bs').2) := by
  induction bs with
  | nil => exact fun _ => rfl
  | cons b bs ih =>
    intro queue
    simp only [List.cons_append, watch, ih, List.append_assoc]

theorem inspectors_watch (bs : List Boundary) : ∀ queue : List Inspector,
    (watch queue bs).1.map (·.inspector) ++ (watch queue bs).2 = queue := by
  induction bs with
  | nil => exact fun _ => rfl
  | cons b bs ih =>
    intro queue
    have hdue : (queue.takeWhile (·.position ≤ b.position)).map
        ((·.inspector) ∘ fun x => (⟨x, b.position, b.context⟩ : Sighting))
          = queue.takeWhile (·.position ≤ b.position) := List.map_id _
    simp only [watch, List.map_append, List.map_map, hdue, List.append_assoc, ih,
      List.takeWhile_append_dropWhile]

theorem lt_of_mem_dropWhile {p : Nat} {x : Inspector} {queue : List Inspector}
    (h : queue.Pairwise (·.position ≤ ·.position))
    (hx : x ∈ queue.dropWhile (·.position ≤ p)) : p < x.position := by
  induction queue with
  | nil => cases hx
  | cons y ys ih =>
    obtain ⟨hy, hys⟩ := List.pairwise_cons.mp h
    by_cases hdue : y.position ≤ p
    · rw [List.dropWhile_cons_of_pos (by simpa using hdue)] at hx
      exact ih hys hx
    · rw [List.dropWhile_cons_of_neg (by simpa using hdue)] at hx
      rcases List.mem_cons.mp hx with rfl | hx
      · omega
      · have hyx := hy x hx
        omega

/-- Who is left comes behind all boundaries. -/
theorem lt_of_left (bs : List Boundary) : ∀ {queue : List Inspector},
    queue.Pairwise (·.position ≤ ·.position) → ∀ x ∈ (watch queue bs).2, ∀ b ∈ bs,
      b.position < x.position := by
  induction bs with
  | nil => exact fun _ _ _ b hb => by cases hb
  | cons c bs ih =>
    intro queue h x hx b hb
    have hlater := h.sublist (List.dropWhile_sublist fun x => decide (x.position ≤ c.position))
    rcases List.mem_cons.mp hb with rfl | hb
    · refine lt_of_mem_dropWhile h ?_
      rw [← inspectors_watch bs (queue.dropWhile (·.position ≤ b.position))]
      exact List.mem_append_right _ hx
    · exact ih hlater x hx b hb

/-- **An inspector sees the first boundary that reaches its position.** -/
theorem first_of_mem_watch (bs : List Boundary) : ∀ {queue : List Inspector},
    queue.Pairwise (·.position ≤ ·.position) → ∀ s ∈ (watch queue bs).1,
      ∃ earlier later, bs = earlier ++ ⟨s.position, s.context⟩ :: later ∧
        s.inspector.position ≤ s.position ∧
        ∀ b ∈ earlier, b.position < s.inspector.position := by
  induction bs with
  | nil => exact fun _ s hs => by cases hs
  | cons c bs ih =>
    intro queue h s hs
    rcases List.mem_append.mp hs with hs | hs
    · obtain ⟨x, hx, rfl⟩ := List.mem_map.mp hs
      have hdue := List.all_eq_true.mp List.all_takeWhile x hx
      exact ⟨[], bs, rfl, by simpa using hdue, List.forall_mem_nil _⟩
    · have hlater := h.sublist (List.dropWhile_sublist fun x => decide (x.position ≤ c.position))
      obtain ⟨earlier, later, hsplit, hreached, hfirst⟩ := ih hlater s hs
      refine ⟨c :: earlier, later, congrArg (c :: ·) hsplit, hreached, fun b hb => ?_⟩
      rcases List.mem_cons.mp hb with rfl | hb
      · -- who saw this boundary would not be in the queue any more
        refine lt_of_mem_dropWhile h ?_
        rw [← inspectors_watch bs (queue.dropWhile (·.position ≤ b.position))]
        exact List.mem_append_left _ (List.mem_map_of_mem hs)
      · exact hfirst b hb

/-! ### From one reader to another -/

/-- From the first reader to the second these boundaries were passed, one behind the other, the
inspectors that were due saw them, and no character of the source was lost. -/
structure Reader.Sees (r r' : Reader) (passed : List Boundary) : Prop where
  boundaries : r'.boundaries = passed.reverse ++ r.boundaries
  sightings : r'.sightings = (watch r.cursor.inspectors passed).1.reverse ++ r.sightings
  left : r'.cursor.inspectors = (watch r.cursor.inspectors passed).2
  length : r'.cursor.position + r'.cursor.rest.length = r.cursor.position + r.cursor.rest.length
  forward : r.cursor.position ≤ r'.cursor.position
  between : ∀ b ∈ passed, r.cursor.position ≤ b.position ∧ b.position ≤ r'.cursor.position
  inOrder : passed.Pairwise (·.position ≤ ·.position)

namespace Reader.Sees

variable {r r' r'' : Reader}

theorem refl (r : Reader) : r.Sees r [] :=
  ⟨rfl, rfl, rfl, rfl, Nat.le_refl _, List.forall_mem_nil _, .nil⟩

theorem of_advance (r : Reader) (n : Nat) : r.Sees { r with cursor := r.cursor.advance n } [] := by
  refine ⟨rfl, rfl, rfl, ?_, Nat.le_add_right _ _, List.forall_mem_nil _, .nil⟩
  simp only [Cursor.advance, List.length_take, List.length_drop]
  omega

theorem of_skipWhile (r : Reader) (p : Char → Bool) :
    r.Sees { r with cursor := r.cursor.skipWhile p } [] := by
  refine ⟨rfl, rfl, rfl, ?_, Nat.le_add_right _ _, List.forall_mem_nil _, .nil⟩
  have hsplit := congrArg List.length (r.cursor.takeWhile_append_rest_skipWhile p)
  rw [List.length_append] at hsplit
  simp only [Cursor.skipWhile] at hsplit ⊢
  omega

theorem trans {passed more : List Boundary} (h : r.Sees r' passed) (g : r'.Sees r'' more) :
    r.Sees r'' (passed ++ more) where
  boundaries := by
    rw [g.boundaries, h.boundaries, List.reverse_append, List.append_assoc]
  sightings := by
    rw [g.sightings, h.sightings, h.left, watch_append, List.reverse_append, List.append_assoc]
  left := by rw [g.left, h.left, watch_append]
  length := g.length.trans h.length
  forward := Nat.le_trans h.forward g.forward
  between := by
    intro b hb
    rcases List.mem_append.mp hb with hb | hb
    · exact ⟨(h.between b hb).1, Nat.le_trans (h.between b hb).2 g.forward⟩
    · exact ⟨Nat.le_trans h.forward (g.between b hb).1, (g.between b hb).2⟩
  inOrder := by
    refine List.pairwise_append.mpr ⟨h.inOrder, g.inOrder, fun b hb c hc => ?_⟩
    exact Nat.le_trans (h.between b hb).2 (g.between c hc).1

end Reader.Sees

/-- Whatever fault it may meet, the step shows the boundaries that it passes. -/
def Parse.Watched {α : Type} (x : Parse α) : Prop :=
  ∀ r : Reader, Ensures anyFault x r fun _ r' => ∃ passed, r.Sees r' passed

theorem watched_of_expand {α : Type} (step : Expand α) : (expanding step).Watched := by
  intro r
  rw [ensures_expanding]
  refine ensures_of_forall fun _ e => ⟨[], ?_⟩
  exact ⟨rfl, rfl, rfl, rfl, Nat.le_refl _, List.forall_mem_nil _, .nil⟩

/-- **The primitive steps show the boundaries that they pass**, and so do sequences. -/
theorem closed_watched : Closed fun _ => Parse.Watched where
  pure := fun r => ⟨[], .refl r⟩
  throw := fun _ => trivial
  lift := by
    intro α x r
    cases x with
    | error fault => exact trivial
    | ok a => exact ⟨[], .refl r⟩
  bind := by
    intro α β x f hx hf r
    rw [ensures_bind]
    refine (hx r).mono fun a r₁ h₁ => ?_
    obtain ⟨passed, h₁⟩ := h₁
    refine (hf a r₁).mono fun b r₂ h₂ => ?_
    obtain ⟨more, h₂⟩ := h₂
    exact ⟨passed ++ more, h₁.trans h₂⟩
  look := fun _ hf r => hf r r
  advance := fun n r => ⟨[], .of_advance r n⟩
  skipWhile := fun p r => ⟨[], .of_skipWhile r p⟩
  accept := by
    intro mark r
    cases hpeek : r.cursor.peek mark.text with
    | true =>
      simp only [Ensures, Parse.accept, Cursor.accept, hpeek, if_true]
      exact ⟨[], .of_advance r _⟩
    | false =>
      simp only [Ensures, Parse.accept, Cursor.accept_of_not_peek hpeek]
      exact ⟨[], .refl r⟩
  takeChar? := by
    rintro ⟨⟨source, rest, position, queue⟩, engine, openGroups, sightings⟩
    cases rest with
    | nil => exact ⟨[], .refl _⟩
    | cons c rest =>
      refine ⟨[], rfl, rfl, rfl, ?_, Nat.le_succ position, List.forall_mem_nil _, .nil⟩
      simp only [List.length_cons]
      omega
  regroup := fun _ _ => ⟨[], rfl, rfl, rfl, rfl, Nat.le_refl _, List.forall_mem_nil _, .nil⟩
  enter := fun _ _ => ⟨[], rfl, rfl, rfl, rfl, Nat.le_refl _, List.forall_mem_nil _, .nil⟩
  leave := fun _ _ => ⟨[], rfl, rfl, rfl, rfl, Nat.le_refl _, List.forall_mem_nil _, .nil⟩
  emit := fun messages => watched_of_expand (Expand.emit messages)
  evaluate := fun arguments => watched_of_expand (expandArguments arguments)
  fireInspectors := by
    intro r
    refine ⟨[⟨r.cursor.position, r.engine.context⟩], rfl, ?_, rfl, rfl, Nat.le_refl _, ?_, ?_⟩
    · simp only [watch, List.append_nil]
      rfl
    · intro b hb
      rw [List.mem_singleton.mp hb]
      exact ⟨Nat.le_refl _, Nat.le_refl _⟩
    · exact List.pairwise_singleton _ _

theorem watched_readModifier (fuel : Nat) (hbody : ∀ kind head, (readBody fuel kind head).Watched)
    (kind : ModifierKind) : (readModifier (fuel + 1) kind).Watched :=
  closed_watched.readModifier closed_watched.readEntities watched_of_expand (hbody kind)

theorem constructs_watched (fuel : Nat) :
    Parse.Constructs (fun _ => Parse.Watched) Parse.Watched fuel :=
  closed_watched.constructs closed_watched.encloses watched_readModifier fuel

/-- **Every block shows where it starts.** -/
theorem boundary_of_readBlock {fuel : Nat} {r r' : Reader} {nodes : List Node}
    (h : readBlock fuel r = .ok (nodes, r')) : ∃ inside,
      r'.boundaries = inside ++ ⟨r.cursor.position, r.engine.context⟩ :: r.boundaries := by
  cases fuel with
  | zero =>
    rw [readBlock] at h
    cases h
  | succ fuel =>
    obtain ⟨rest, hrest, hblock⟩ := closed_watched.exists_readBlock closed_watched.encloses
      (constructs_watched fuel)
    rw [hblock] at h
    obtain ⟨_, r₁, hfire, hrun⟩ := ok_of_bind h
    cases hfire
    obtain ⟨passed, hsees⟩ := (hrest _).of_ok hrun
    exact ⟨passed.reverse, hsees.boundaries⟩

/-! ### The boundaries of a source -/

/-- The boundaries between the blocks of a source that nobody watches, and its end. -/
def Context.boundaries (cx : Context) (source : String) : List Boundary :=
  match readSource (readingDepth source.toList.length) (.start cx source []) with
  | .ok (_, r) => r.boundaries.reverse
  | .error _ => []

theorem ensures_readBlocks_end (fuel : Nat) : ∀ (before : List Node) (r : Reader),
    Ensures anyFault (readBlocks fuel before) r fun _ r' => r'.cursor.rest = [] := by
  induction fuel with
  | zero => exact fun _ _ => trivial
  | succ fuel ih =>
    intro before r
    rw [readBlocks, ensures_bind, ensures_isAtEnd, ensures_ite]
    refine ⟨fun hend => List.isEmpty_iff.mp hend, fun _ => ?_⟩
    rw [ensures_bind]
    refine ensures_of_forall fun nodes r₁ => ?_
    rw [ensures_bind]
    exact ensures_of_forall fun _ r₂ => ih _ r₂

theorem ensures_readSource_end (fuel : Nat) (r : Reader) :
    Ensures anyFault (readSource fuel) r fun _ r' => r'.cursor.rest = [] ∧
      ∃ earlier, r'.boundaries = ⟨r'.cursor.position, r'.engine.context⟩ :: earlier := by
  rw [readSource, ensures_bind]
  refine ensures_of_forall fun _ r₁ => ?_
  rw [ensures_bind]
  refine (ensures_readBlocks_end fuel [] r₁).mono fun _ r₂ hrest => ?_
  rw [ensures_bind]
  exact ⟨hrest, r₂.boundaries, rfl⟩

def Document.unobserved (d : Document) : Document := { d with sightings := [], overdue := [] }

/-- What inspectors see of a source of `n` characters with these boundaries. -/
structure Observes (boundaries : List Boundary) (n : Nat) (inspectors : List Inspector)
    (seen : List Sighting) : Prop where
  /-- They are called in the order of their positions. -/
  inOrder : (seen.map (·.inspector)).Pairwise (·.position ≤ ·.position)
  /-- Those with a position in the source are called once, in the order in which they were
  given. -/
  once : ∀ p ≤ n, (seen.map (·.inspector)).filter (·.position = p)
    = inspectors.filter (·.position = p)
  /-- Those with a position behind the source are not called. -/
  never : ∀ s ∈ seen, s.inspector.position ≤ n
  /-- Each is shown the first boundary that reaches its position. -/
  first : ∀ s ∈ seen, ∃ earlier later, boundaries = earlier ++ ⟨s.position, s.context⟩ :: later ∧
    s.inspector.position ≤ s.position ∧ ∀ b ∈ earlier, b.position < s.inspector.position

/-- **What inspectors see** at boundaries of which the last one is the end of the source. -/
theorem observes_watch {boundaries : List Boundary} {n : Nat} (inspectors : List Inspector)
    (hwithin : ∀ b ∈ boundaries, b.position ≤ n) (hend : ∃ b ∈ boundaries, b.position = n) :
    Observes boundaries n inspectors (watch (Cursor.queue inspectors) boundaries).1 := by
  have hsorted := Cursor.pairwise_queue inspectors
  have hqueue := inspectors_watch boundaries (Cursor.queue inspectors)
  have hleft : ∀ x ∈ (watch (Cursor.queue inspectors) boundaries).2, n < x.position := by
    obtain ⟨b, hb, rfl⟩ := hend
    exact fun x hx => lt_of_left boundaries hsorted x hx b hb
  have hfirst := first_of_mem_watch boundaries hsorted
  refine ⟨?_, fun p hp => ?_, fun s hs => ?_, hfirst⟩
  · rw [← hqueue] at hsorted
    exact (List.pairwise_append.mp hsorted).1
  · have hlate : (watch (Cursor.queue inspectors) boundaries).2.filter (·.position = p) = [] := by
      refine List.filter_eq_nil_iff.mpr fun x hx => ?_
      have hbehind := hleft x hx
      simp only [decide_eq_true_eq]
      omega
    rw [← Cursor.filter_queue inspectors p, ← hqueue, List.filter_append, hqueue, hlate,
      List.append_nil]
  · obtain ⟨earlier, later, hsplit, hreached, -⟩ := hfirst s hs
    have hle : s.position ≤ n := hwithin ⟨s.position, s.context⟩ (hsplit ▸ by simp)
    omega

theorem Context.read_eq_map (cx : Context) (source : String) (inspectors : List Inspector) :
    cx.read source inspectors = (readSource (readingDepth source.toList.length)
      (.start cx source inspectors)).map fun answer => answer.2.document answer.1 := by
  show (readSource (readingDepth source.toList.length) (.start cx source inspectors) >>= _) = _
  cases readSource (readingDepth source.toList.length) (.start cx source inspectors) with
  | error fault => rfl
  | ok answer => rfl

theorem readSource_start_alone (cx : Context) (source : String) (inspectors : List Inspector) :
    readSource (readingDepth source.toList.length) (.start cx source [])
      = (readSource (readingDepth source.toList.length) (.start cx source inspectors)).map
          fun answer => (answer.1, answer.2.alone) :=
  alike_readSource (readingDepth source.toList.length) (.start cx source inspectors)

/-- Without what inspectors saw a document is the one that is read without them. -/
theorem Context.read_unobserved (cx : Context) (source : String) (inspectors : List Inspector) :
    (cx.read source inspectors).map Document.unobserved = cx.parse source := by
  rw [Context.parse_eq_read, read_eq_map, read_eq_map, readSource_start_alone cx source inspectors]
  cases readSource (readingDepth source.toList.length) (.start cx source inspectors) with
  | error fault => rfl
  | ok answer => rfl

/-- **Inspectors observe without steering**, exactly once and in order.  With inspectors a source
is read as without them: there is the same tree, with the same messages and the same context
behind it, and in a well-formed context there is one.  Every block shows where it starts and the
document shows its end, the last of the boundaries, with the context that it leaves behind.  The
boundaries are passed one behind the other.  Each inspector with a position in the source is
called once, in the order of the positions and of those at one position in the order given, at the
first boundary that reaches its position, with the context there; no other one is called. -/
theorem inspectors_only_observe (cx : Context) (source : String) (inspectors : List Inspector) :
    (cx.read source inspectors).map Document.unobserved = cx.parse source ∧
    (cx.Stores .placed → ∃ d, cx.read source inspectors = .ok d) ∧
    (∀ fuel r nodes r', readBlock fuel r = .ok (nodes, r') → ∃ inside,
      r'.boundaries = inside ++ ⟨r.cursor.position, r.engine.context⟩ :: r.boundaries) ∧
    ∀ d, cx.read source inspectors = .ok d →
      (cx.boundaries source).Pairwise (·.position ≤ ·.position) ∧
      (cx.boundaries source).getLast? = some ⟨source.toList.length, d.context⟩ ∧
      Observes (cx.boundaries source) source.toList.length inspectors d.sightings := by
  refine ⟨cx.read_unobserved source inspectors, fun hcx => ?_,
    fun _ _ _ _ h => boundary_of_readBlock h, fun d hd => ?_⟩
  · obtain ⟨d, hd, -⟩ := parse_ends hcx source
    rw [← cx.read_unobserved source inspectors] at hd
    cases hread : cx.read source inspectors with
    | error fault =>
      rw [hread] at hd
      cases hd
    | ok d => exact ⟨d, rfl⟩
  · obtain ⟨content, r, hrun, rfl⟩ := Context.exists_readSource_of_read hd
    have hwatched : (readSource (readingDepth source.toList.length)).Watched :=
      closed_watched.readSource closed_watched.encloses watched_readModifier _
    obtain ⟨passed, hsees⟩ := (hwatched _).of_ok hrun
    obtain ⟨hrest, earlier, hlast⟩ := (ensures_readSource_end _ _).of_ok hrun
    -- the boundaries are those that were passed, the last one at the end of the source
    have hreversed : r.boundaries = passed.reverse :=
      hsees.boundaries.trans (List.append_nil _)
    have hboundaries : cx.boundaries source = passed := by
      rw [Context.boundaries, readSource_start_alone cx source inspectors, hrun]
      exact (congrArg List.reverse hreversed).trans passed.reverse_reverse
    have hposition : r.cursor.position = source.toList.length := by
      have hlength := hsees.length
      rw [hrest] at hlength
      exact hlength.trans (Nat.zero_add _)
    have hpassed : passed = earlier.reverse ++ [⟨source.toList.length, r.engine.context⟩] := by
      rw [← passed.reverse_reverse, ← hreversed, hlast, List.reverse_cons, hposition]
    have hseen : (r.document content).sightings
        = (watch (Cursor.queue inspectors) passed).1 := by
      have hsightings : r.sightings = (watch (Cursor.queue inspectors) passed).1.reverse :=
        hsees.sightings.trans (List.append_nil _)
      exact (congrArg List.reverse hsightings).trans (List.reverse_reverse _)
    rw [hboundaries, hseen]
    refine ⟨hsees.inOrder, ?_, observes_watch inspectors (fun b hb => ?_) ?_⟩
    · rw [hpassed, List.getLast?_concat]
      rfl
    · exact hposition ▸ (hsees.between b hb).2
    · exact ⟨_, hpassed ▸ List.mem_concat_self, rfl⟩

/-- A definition and its use, with inspectors at the use, at the end and behind it. -/
theorem inspectors_only_observe_definition :
    let source := "[-define-block p]abc\n\n[.p]"
    let inspectors : List Inspector := [⟨26, 0⟩, ⟨22, 1⟩, ⟨27, 2⟩, ⟨22, 3⟩]
    ∃ cx d block after, Context.start Builtin.configuration .empty = .ok cx ∧ cx.Stores .placed ∧
      cx.read source inspectors = .ok d ∧ cx.parse source = .ok d.unobserved ∧
      readBlock 16 (.start cx "a" []) = .ok (block, after) ∧
      (∃ inside, after.boundaries = inside ++ [⟨0, cx⟩]) ∧
      (cx.boundaries source).getLast? = some ⟨26, d.context⟩ ∧
      Observes (cx.boundaries source) 26 inspectors d.sightings ∧
      (d.sightings.map (·.inspector)).filter (·.position = 22) = [⟨22, 1⟩, ⟨22, 3⟩] := by
  intro source inspectors
  obtain ⟨cx, hcx⟩ : ∃ cx, Context.start Builtin.configuration .empty = .ok cx := ⟨_, rfl⟩
  have hstores : cx.Stores .placed := (Builtin.placed_start hcx).1
  have hblock : ((Context.start Builtin.configuration .empty).bind fun cx =>
      readBlock 16 (.start cx "a" [])).isOk = true := by
    decide +kernel
  rw [hcx, Except.bind] at hblock
  obtain ⟨hsame, hends, hstarts, hobserves⟩ := inspectors_only_observe cx source inspectors
  obtain ⟨d, hd⟩ := hends hstores
  obtain ⟨-, hlast, hseen⟩ := hobserves d hd
  have hlength : source.toList.length = 26 := by decide
  rw [hlength] at hlast hseen
  rw [hd] at hsame
  cases hrun : readBlock 16 (.start cx "a" []) with
  | error fault =>
    rw [hrun] at hblock
    cases hblock
  | ok answer =>
    exact ⟨cx, d, answer.1, answer.2, hcx, hstores, hd, hsame.symm, hrun, hstarts _ _ _ _ hrun,
      hlast, hseen, hseen.once 22 (by decide)⟩

end MacroMarkup
