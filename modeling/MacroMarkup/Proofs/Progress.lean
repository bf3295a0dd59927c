import MacroMarkup.Proofs.Balance
import MacroMarkup.Proofs.Bare
import MacroMarkup.Proofs.Nesting

/-!
# Reading and expansion come to an end

A source is read up to its end, whatever stands in it.  Each construct moves on: a block and
a piece of a paragraph behind which the paragraph goes on are never empty, nor is a part of
an argument unless the head ends there, nor a step over an unknown name.  Expansion cannot
go on forever as walks nest no deeper than the limit says.

* `readBlock_advances`, `readInline_advances`, `readEntities_advances`, `unknownHead_step`:
  the constructs move on, in every state.
* `Visit.Nests`: how deep a walk lies in another one.
* `parse_reads_all`: **a parse ends at the end of its source.**
* `parse_reads_all_not_bare`: it may fail where the state of the macros was never set up.
-/

namespace MacroMarkup

open Parse

/-! ### Every construct moves on -/

theorem readBlock_advances {fuel : Nat} {r r' : Reader} {nodes : List Node} (hleft : 0 < r.left)
    (h : readBlock fuel r = .ok (nodes, r')) : r'.left < r.left :=
  (((constructs .anything fuel).block r trivial (.inl trivial)).of_ok h).2.1 hleft

theorem readInline_advances {fuel : Nat} {before : List Node} {r r' : Reader}
    {read : List Node × Bool} (h : readInline fuel before r = .ok (read, r'))
    (hcontinues : read.2 = true) : r'.left < r.left :=
  (((constructs .anything fuel).inline before r trivial (.inl trivial)).of_ok h).2.1 hcontinues

/-- What is read of an argument is not empty, unless the head ends here. -/
theorem readEntities_advances {fuel : Nat} {closing : Option String} {parts : List Entity}
    {r r' : Reader} {text : ArgumentText} (hgoes : ¬ r.EndsHead)
    (h : readEntities fuel closing parts r.cursor.position r = .ok (text, r')) :
    r'.left < r.left := by
  have hmarked : r.engine.context.configuration.Marked anyFault :=
    fun _ _ _ _ => ⟨fun _ => trivial, fun _ => trivial⟩
  exact ((ensures_readEntities fuel closing parts r (.inl trivial) (fun _ => trivial)
    hmarked).of_ok h).1.moves (.inr hgoes)

/-- A step over the name of an unknown modifier passes a character, and more steps may follow
behind it. -/
theorem unknownHead_step {c : Char} {rest : List Char} (hclose : c ≠ ']') (hend : c ≠ ';') :
    ∃ step, 0 < step ∧ step ≤ (c :: rest).length ∧ ((unknownHead (c :: rest)).2 = step ∨
      (unknownHead (c :: rest)).2 = step + (unknownHead ((c :: rest).drop step)).2) := by
  by_cases hescape : c = '\\'
  · subst hescape
    cases rest with
    | nil => exact ⟨1, Nat.one_pos, Nat.le_refl _, .inl rfl⟩
    | cons c' rest =>
      exact ⟨2, Nat.two_pos, by simp, .inr (Nat.add_comm _ _)⟩
  · refine ⟨1, Nat.one_pos, by simp, ?_⟩
    rw [unknownHead]
    · split
      · exact .inl rfl
      · rw [if_neg (by simp [hclose, hend])]
        exact .inr (Nat.add_comm _ _)
    · exact fun h _ => hescape h
    · exact fun _ _ h _ => hescape h

/-! ### Expansion does not nest deeper than the limit -/

/-- The walk of `w` lies this many walks deep in that of `v`. -/
inductive Visit.Nests (v : Visit) : Nat → Visit → Prop
  | start : v.Nests 0 v
  | ask {depth : Nat} {entered : List Processing} {w u : Visit} : v.Nests depth w →
      w.Asks entered u → v.Nests (depth + 1) u

theorem Visit.Nests.levels {v w : Visit} {depth : Nat} (h : v.Nests depth w) :
    w.levels + depth = v.levels := by
  induction h with
  | start => rfl
  | ask _ hasks ih =>
    rw [← ih, hasks.levels]
    omega

/-- **No modifier is come to at a depth above the limit and one.**  The walk over what a
modifier from the source stands for is at depth zero, and a modifier is one deeper than the
walk that comes to it. -/
theorem Visit.Nests.depth_le {e e' : Engine} {nodes : List Node} {w : Visit}
    {depth levels : Nat} {m : Modifier} (h : Visit.Nests ⟨e.levels, nodes, e⟩ depth w)
    (hmet : w.Meets levels (.modifier m) e') :
    depth + 1 ≤ e.context.configuration.depthLimit + 1 := by
  have hlevels : w.levels + depth = e.context.configuration.depthLimit + 1 := h.levels
  have hbelow := hmet.1
  omega

/-! ### A parse comes to an end -/

/-- In a bare context a parse ends at the end of its source, or it fails for want of the state
of the macros. -/
theorem parse_bare {cx : Context} (hcx : cx.Bare) (source : String) :
    (∃ d, cx.parse source = .ok d ∧ d.span = ⟨0, source.toList.length⟩) ∨
      cx.parse source = .error .missingSlot := by
  obtain ⟨hok, herror⟩ := @read_law .bare cx hcx source []
  rw [Context.parse_eq_read]
  cases hread : cx.read source [] with
  | ok d =>
    obtain ⟨-, -, -, -, -, -, hspan, -⟩ := hok d hread
    exact .inl ⟨d, rfl, hspan⟩
  | error fault => exact .inr (congrArg _ (herror fault hread))

/-- In a fresh context a parse ends at the end of its source, unless it fails for want of the
state of the macros, which the configuration does not set up. -/
theorem parse_fresh {c : Configuration} {bindings : Dict String} {cx : Context}
    (hc : c.All Stock.placed.Registered) (hcx : Context.start c bindings = .ok cx)
    (source : String) :
    (∃ d, cx.parse source = .ok d ∧ d.span = ⟨0, source.toList.length⟩) ∨
      .macros ∉ c.initializers ∧ cx.parse source = .error .missingSlot := by
  by_cases hmacros : .macros ∈ c.initializers
  · exact .inl (parse_ends (Context.stores_start hc hmacros hcx).1 source)
  · obtain ⟨rfl, hmissing⟩ := Context.missing_start hmacros hcx
    have hbare : cx.Bare := ⟨hmissing, hc.mono fun _ hd => hd.1⟩
    exact (parse_bare hbare source).imp_right fun hfails => ⟨hmacros, hfails⟩

/-- **Parsing terminates and consumes everything.**  In a fresh context, and in any
well-formed one, a parse ends at the end of the source; without the state of the macros,
asking for it is the only way to fail.  Blocks, pieces of paragraphs, parts of arguments and
steps over unknown names move on, and expansion nests no deeper than the limit. -/
theorem parse_reads_all (cx : Context) (source : String) :
    (∀ c bindings, c.All Stock.placed.Registered → Context.start c bindings = .ok cx →
      (∃ d, cx.parse source = .ok d ∧ d.span = ⟨0, source.toList.length⟩) ∨
        .macros ∉ c.initializers ∧ cx.parse source = .error .missingSlot) ∧
    (cx.Stores .placed →
      ∃ d, cx.parse source = .ok d ∧ d.span = ⟨0, source.toList.length⟩) ∧
    (cx.Bare → (∃ d, cx.parse source = .ok d ∧ d.span = ⟨0, source.toList.length⟩) ∨
      cx.parse source = .error .missingSlot) ∧
    (∀ fuel r nodes r', 0 < r.left → readBlock fuel r = .ok (nodes, r') → r'.left < r.left) ∧
    (∀ fuel before r read r', readInline fuel before r = .ok (read, r') → read.2 = true →
      r'.left < r.left) ∧
    (∀ fuel closing parts r text r', ¬ r.EndsHead →
      readEntities fuel closing parts r.cursor.position r = .ok (text, r') →
      r'.left < r.left) ∧
    (∀ c rest, c ≠ ']' → c ≠ ';' → ∃ step, 0 < step ∧ step ≤ (c :: rest).length ∧
      ((unknownHead (c :: rest)).2 = step ∨
        (unknownHead (c :: rest)).2 = step + (unknownHead ((c :: rest).drop step)).2)) ∧
    ∀ e nodes depth w levels m e', Visit.Nests ⟨e.levels, nodes, e⟩ depth w →
      w.Meets levels (.modifier m) e' → depth + 1 ≤ e.context.configuration.depthLimit + 1 := by
  refine ⟨fun _ _ hc hcx => parse_fresh hc hcx source, fun hcx => parse_ends hcx source,
    fun hcx => parse_bare hcx source, ?_, ?_, ?_, ?_, ?_⟩
  · exact fun _ _ _ _ hleft h => readBlock_advances hleft h
  · exact fun _ _ _ _ _ h hcontinues => readInline_advances h hcontinues
  · exact fun _ _ _ _ _ _ hgoes h => readEntities_advances hgoes h
  · exact fun _ _ hclose hend => unknownHead_step hclose hend
  · exact fun _ _ _ _ _ _ _ h hmet => h.depth_le hmet

/-- An unclosed group with an unknown modifier, in a fresh context of the language. -/
theorem parse_reads_all_unclosed :
    ∃ cx, Context.start Builtin.configuration .empty = .ok cx ∧ cx.Stores .placed ∧
      ∃ d, cx.parse ":--\n[.a \\" = .ok d ∧ d.span = ⟨0, 9⟩ := by
  obtain ⟨cx, hcx⟩ : ∃ cx, Context.start Builtin.configuration .empty = .ok cx := ⟨_, rfl⟩
  have hstores : cx.Stores .placed := (Builtin.placed_start hcx).1
  exact ⟨cx, hcx, hstores, (parse_reads_all cx ":--\n[.a \\").2.1 hstores⟩

/-- A configuration with an interpolator that does not set up the state of the macros. -/
def Configuration.interpolating : Configuration :=
  Configuration.empty.setInterpolator Builtin.interpolator

/-- **A parse need not end** where the state of the macros was never set up, though no name
that is registered is empty: evaluating an interpolation asks for it. -/
theorem parse_reads_all_not_bare :
    ∃ cx, Context.start .interpolating .empty = .ok cx ∧
      (cx.configuration.All fun d => d.name ≠ "") ∧
      cx.parse "[.a $(x)]" = .error .missingSlot := by
  have hnamed : Configuration.interpolating.All fun d => d.name ≠ "" :=
    Configuration.all_empty.setInterpolator (by decide)
  refine ⟨_, rfl, hnamed, (parse_bare ⟨rfl, hnamed⟩ _).resolve_left fun hends => ?_⟩
  obtain ⟨d, hd, -⟩ := hends
  have hfails : (Context.parse ⟨.interpolating, .empty, .vacant, 0⟩ "[.a $(x)]").isOk = false := by
    decide +kernel
  rw [hd] at hfails
  cases hfails

end MacroMarkup
