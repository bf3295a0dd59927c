import MacroMarkup.Proofs.Balance

/-!
# A tree lies in its source

Whatever the source is, and however malformed, the tree that is read from it lies in it: every
node inside the node around it, siblings one behind the other, arguments inside the head of
their modifier and its content behind it.  Text, escaped characters and raw text hold what
their spans cover.  Expansion adds to the tree and changes none of this.

* `parse_faithful`: the law, for every context.
-/

namespace MacroMarkup

/-- **The tree of a document lies in its source**, whatever the context is in which the source
was read; and in a well-formed one there is always a document. -/
theorem parse_faithful (cx : Context) (source : String) :
    (∀ d, cx.parse source = .ok d → d.span = ⟨0, source.toList.length⟩ ∧
      Node.Laid source.toList d.span.start d.span.stop d.content) ∧
    (cx.Stores .placed → ∃ d, cx.parse source = .ok d) := by
  constructor
  · intro d hd
    obtain ⟨hok, -⟩ := @read_law World.anything cx trivial source []
    obtain ⟨-, -, -, -, -, -, hspan, hlaid⟩ := hok d hd
    rw [hspan]
    exact ⟨rfl, hlaid⟩
  · intro hcx
    obtain ⟨d, hd, -⟩ := parse_ends hcx source
    exact ⟨d, hd⟩

/-- A paragraph over an indented line, with an unclosed modifier that has an interpolation and
an escaped character. -/
theorem parse_faithful_indented :
    let source := "a\n  b [/print x$(y\\z] c"
    ∃ cx d, Context.start Builtin.configuration .empty = .ok cx ∧ cx.parse source = .ok d ∧
      d.span = ⟨0, source.toList.length⟩ ∧
      Node.Laid source.toList d.span.start d.span.stop d.content := by
  intro source
  obtain ⟨cx, hcx⟩ : ∃ cx, Context.start Builtin.configuration .empty = .ok cx := ⟨_, rfl⟩
  have hstores : cx.Stores .placed := (Builtin.placed_start hcx).1
  obtain ⟨hfaithful, hexists⟩ := parse_faithful cx source
  obtain ⟨d, hd⟩ := hexists hstores
  exact ⟨cx, d, hcx, hd, hfaithful d hd⟩

end MacroMarkup
