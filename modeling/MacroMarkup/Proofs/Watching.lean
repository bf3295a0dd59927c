import MacroMarkup.Proofs.Primitives
import MacroMarkup.Proofs.Upkeep

/-!
# What inspectors see

Inspectors are shown the context on the way.  What all lifecycles keep of a context is kept
between any two moments at which it is shown.

* `Reader.Upholds`: what is kept from one reader to another, and at all that was seen between.
* `Parse.Upholds`: a step of reading that keeps it; `closed_upholds` are the primitive ones.
* `upholds_readModifier`: a modifier keeps it if its body does.
* `read_upholds`: **what lifecycles keep holds between all contexts that a parse shows.**
-/

namespace MacroMarkup

open Parse

/-- From the first reader to the second `U` was kept, and so it was from the first to all that
was seen between, from one sighting to the next, and from there to the second reader. -/
structure Reader.Upholds (U : Upkeep) (r r' : Reader) : Prop where
  keeps : U.Keeps r.engine.context r'.engine.context
  seen : ∃ seen, r'.sightings = seen ++ r.sightings ∧
    (∀ s ∈ seen, U.Keeps r.engine.context s.context ∧ U.Keeps s.context r'.engine.context) ∧
    seen.Pairwise fun later earlier => U.Keeps earlier.context later.context

variable {U : Upkeep}

namespace Reader

variable {r r' r'' : Reader}

theorem Upholds.unseen (h : U.Keeps r.engine.context r'.engine.context)
    (hsame : r'.sightings = r.sightings) : r.Upholds U r' :=
  ⟨h, [], hsame, List.forall_mem_nil _, .nil⟩

theorem Upholds.refl (h : U.Holds r.engine.context) : r.Upholds U r := .unseen (U.refl h) rfl

theorem Upholds.trans (h : r.Upholds U r') (g : r'.Upholds U r'') : r.Upholds U r'' := by
  obtain ⟨hkeeps, seen, hseen, hbetween, hpairwise⟩ := h
  obtain ⟨gkeeps, more, gseen, gbetween, gpairwise⟩ := g
  refine ⟨U.trans hkeeps gkeeps, more ++ seen, ?_, fun s hs => ?_, ?_⟩
  · rw [gseen, hseen, List.append_assoc]
  · rcases List.mem_append.mp hs with hs | hs
    · exact ⟨U.trans hkeeps (gbetween s hs).1, (gbetween s hs).2⟩
    · exact ⟨(hbetween s hs).1, U.trans (hbetween s hs).2 gkeeps⟩
  · refine List.pairwise_append.mpr ⟨gpairwise, hpairwise, fun later hlater earlier hearlier => ?_⟩
    exact U.trans (hbetween earlier hearlier).2 (gbetween later hlater).1

theorem Upholds.holds (h : r.Upholds U r') : U.Holds r'.engine.context := U.holds h.keeps

end Reader

def Parse.Upholds {α : Type} (U : Upkeep) (x : Parse α) : Prop :=
  ∀ r : Reader, U.Holds r.engine.context → Ensures anyFault x r fun _ r' => r.Upholds U r'

/-- **The primitive steps keep what lifecycles keep**, and so do sequences. -/
theorem closed_upholds : Closed fun _ => Parse.Upholds U where
  pure := fun _ hr => .refl hr
  throw := fun _ _ => trivial
  lift := by
    intro α x r hr
    cases x with
    | ok a => exact .refl hr
    | error fault => exact trivial
  bind := by
    intro α β x f hx hf r hr
    rw [ensures_bind]
    refine (hx r hr).mono fun a r₁ h₁ => ?_
    exact (hf a r₁ h₁.holds).mono fun _ _ h₂ => h₁.trans h₂
  look := fun _ hf r hr => hf r r hr
  advance := fun _ _ hr => .unseen (U.refl hr) rfl
  skipWhile := fun _ _ hr => .unseen (U.refl hr) rfl
  accept := fun _ _ hr => .unseen (U.refl hr) rfl
  takeChar? := by
    rintro ⟨⟨source, rest, position, inspectors⟩, engine, openGroups, sightings⟩ hr
    cases rest with
    | nil => exact .refl hr
    | cons c rest => exact .unseen (U.refl hr) rfl
  regroup := fun _ _ hr => .unseen (U.refl hr) rfl
  enter := fun _ _ hr => .unseen (U.refl hr) rfl
  leave := fun _ _ hr => .unseen (U.refl hr) rfl
  emit := fun _ _ hr => .unseen (U.refl hr) rfl
  evaluate := by
    intro arguments r hr
    rw [ensures_expanding]
    refine (@ensures_expandArguments anyFault arguments r.engine fun _ _ => trivial).mono
      fun _ _ h => .unseen ?_ rfl
    rw [h.1.1.context]
    exact U.refl hr
  fireInspectors := by
    -- the context is shown as it is
    intro r hr
    refine ⟨U.refl hr, _, rfl, fun s hs => ?_, ?_⟩
    · obtain ⟨x, -, rfl⟩ := List.mem_map.mp (List.mem_reverse.mp hs)
      exact ⟨U.refl hr, U.refl hr⟩
    · refine List.pairwise_reverse.mpr (List.pairwise_map.mpr ?_)
      exact List.pairwise_of_forall fun _ _ => U.refl hr

section Constructs

variable {rests : (b : Behaviour) → b.lifecycle.State → Context → Prop}
  (hlife : ∀ b : Behaviour, b.lifecycle.Upholds U (rests b))

include hlife

/-- What a lifecycle remembers of the point before its body stays right while the body is
read. -/
theorem upholds_readModifier (fuel : Nat) (hread : ∀ kind head, (readBody fuel kind head).Upholds U)
    (kind : ModifierKind) : (readModifier (fuel + 1) kind).Upholds U := by
  refine closed_upholds.bind (closed_upholds.readHead closed_upholds.readEntities kind)
    fun head r hr => ?_
  have hm := hlife head.modifier.definition.behaviour
  simp only [ensures_bind, ensures_expanding, ensures_immediate, ensures_get, ensures_pure]
  refine (upholds_reporting (hm.beforeContent head.modifier r.engine.immediate _ hr)).any.mono ?_
  rintro state opened ⟨hopened, hstate⟩
  simp only [Expand.enterBody, ensures_modify]
  refine (hread kind head _ hopened.holds).mono ?_
  rintro ⟨content, continues⟩ r₁ hbody
  refine (closed_upholds.wholeSpan head r₁ hbody.holds).mono ?_
  intro span r₂ hspan
  simp only [Expand.leaveBody, ensures_modify]
  have hinside := hbody.trans hspan
  refine (upholds_inContext (e := { r₂.engine with
    delayDepth := r₂.engine.delayDepth - head.modifier.definition.delaysContent.toNat })
    (hm.afterContent state _ hspan.holds (hm.stays hstate hinside.keeps))).any.mono ?_
  rintro state' outside ⟨houtside, hstate'⟩
  refine (upholds_expandRead hlife (upholds_process hlife _)
    (m := { head.modifier with span := span, content := content }) hstate' houtside.holds).any.mono
    fun _ e h => ?_
  have hopens : r.Upholds U { r with engine := opened } := .unseen hopened.keeps rfl
  have hcloses : r₂.Upholds U { r₂ with engine := e } :=
    .unseen (U.trans houtside.keeps h.keeps) rfl
  have hreads : Reader.Upholds U { r with engine := opened } r₂ :=
    ⟨hinside.keeps, hinside.seen⟩
  exact hopens.trans (hreads.trans hcloses)

/-- **What lifecycles keep holds between all contexts that a parse shows**: the one at its start,
those that inspectors see, and the one that it leaves behind. -/
theorem read_upholds {cx : Context} (hcx : U.Holds cx) {source : String}
    {inspectors : List Inspector} {d : Document} (hd : cx.read source inspectors = .ok d) :
    (cx :: d.sightings.map (·.context) ++ [d.context]).Pairwise U.Keeps := by
  have hreads : (readSource (readingDepth source.toList.length)).Upholds U :=
    closed_upholds.readSource closed_upholds.encloses (upholds_readModifier hlife) _
  have hstart : U.Holds (Reader.start cx source inspectors).engine.context := hcx
  obtain ⟨content, r, hrun, rfl⟩ := Context.exists_readSource_of_read hd
  obtain ⟨hkeeps, seen, hseen, hbetween, hpairwise⟩ := (hreads _ hstart).of_ok hrun
  obtain rfl : r.sightings = seen := hseen.trans (List.append_nil _)
  have hsightings : (r.document content).sightings = r.sightings.reverse := rfl
  rw [hsightings, List.cons_append, List.pairwise_cons, List.pairwise_append, List.pairwise_map,
    List.pairwise_reverse]
  refine ⟨fun later hlater => ?_, hpairwise, List.pairwise_singleton _ _, ?_⟩
  · rcases List.mem_append.mp hlater with hlater | hlater
    · obtain ⟨s, hs, rfl⟩ := List.mem_map.mp hlater
      exact (hbetween s (List.mem_reverse.mp hs)).1
    · exact List.mem_singleton.mp hlater ▸ hkeeps
  · intro earlier hearlier later hlater
    obtain ⟨s, hs, rfl⟩ := List.mem_map.mp hearlier
    exact List.mem_singleton.mp hlater ▸ (hbetween s (List.mem_reverse.mp hs)).2

end Constructs

end MacroMarkup
