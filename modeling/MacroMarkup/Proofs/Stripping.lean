import MacroMarkup.Document.Strip
import MacroMarkup.Proofs.Stock

/-!
# Stripping is a projection

A tree is stripped if what a renderer finds in it is text and modifiers that stay: at no level
is there a system modifier, or one that stands for something else.  Stripping makes every tree
so and leaves alone what is so already, and it keeps the text: what the leaves of the result
say is what the tree shows, read from left to right with everything expanded.

* `Reached`: the nodes of a list, those in the content of one of them, and so on.
* `Node.IsStripped`: nothing is left to strip.  A stripped node stands for itself
  (`stripNode_of_isStripped`), and every node of a result is stripped
  (`isStripped_of_mem_stripNodes`).
* `leaves`, `shownLeaves`: the leaves of a tree, read through content only, or with what a
  modifier stands for in its place (`leaves_stripNodes`).
* `stripping_projects`: all of it for lists of nodes, and for the tree of a document.
-/

namespace MacroMarkup

/-! ### What is reached -/

/-- The node is one of the list, or in the content of a node reached from it. -/
inductive Reached (nodes : List Node) : Node → Prop
  | here {n : Node} : n ∈ nodes → Reached nodes n
  | paragraph {span : Span} {content : List Node} {n : Node} :
    Reached nodes (.paragraph span content) → n ∈ content → Reached nodes n
  | modifier {m : Modifier} {n : Node} :
    Reached nodes (.modifier m) → n ∈ m.content → Reached nodes n

/-- No system modifier is left in the node, and none that stands for something else. -/
inductive Node.IsStripped : Node → Prop
  | leaf {n : Node} : n.isLeaf = true → IsStripped n
  | paragraph {span : Span} {content : List Node} :
    (∀ n ∈ content, IsStripped n) → IsStripped (.paragraph span content)
  | modifier {m : Modifier} : m.definition.kind ≠ .system → m.expansion = none →
    (∀ n ∈ m.content, IsStripped n) → IsStripped (.modifier m)

namespace Node.IsStripped

theorem content_of_paragraph {span : Span} {content : List Node}
    (h : IsStripped (.paragraph span content)) : ∀ n ∈ content, IsStripped n := by
  cases h with
  | leaf hleaf => cases hleaf
  | paragraph hcontent => exact hcontent

theorem of_modifier {m : Modifier} (h : IsStripped (.modifier m)) :
    m.definition.kind ≠ .system ∧ m.expansion = none ∧ ∀ n ∈ m.content, IsStripped n := by
  cases h with
  | leaf hleaf => cases hleaf
  | modifier hkind hexpansion hcontent => exact ⟨hkind, hexpansion, hcontent⟩

/-- From stripped nodes only stripped nodes are reached. -/
theorem of_reached {nodes : List Node} (h : ∀ n ∈ nodes, IsStripped n) {n : Node}
    (hn : Reached nodes n) : IsStripped n := by
  induction hn with
  | here hmem => exact h _ hmem
  | paragraph _ hmem ih => exact ih.content_of_paragraph _ hmem
  | modifier _ hmem ih => exact ih.of_modifier.2.2 _ hmem

end Node.IsStripped

/-! ### What stripping leaves -/

mutual

theorem isStripped_of_mem_stripNode : ∀ node : Node, ∀ n ∈ stripNode node, n.IsStripped
  | .paragraph span content => by
    intro n hn
    rw [stripNode, List.mem_singleton] at hn
    subst hn
    exact .paragraph (isStripped_of_mem_stripNodes content)
  | .preformatted _ _ _ => by
    intro n hn
    rw [stripNode, List.mem_singleton] at hn
    exact .leaf (hn ▸ rfl)
  | .text _ _ => by
    intro n hn
    rw [stripNode, List.mem_singleton] at hn
    exact .leaf (hn ▸ rfl)
  | .escaped _ _ => by
    intro n hn
    rw [stripNode, List.mem_singleton] at hn
    exact .leaf (hn ▸ rfl)
  | .modifier ⟨_, _, definition, _, content, expansion⟩ => by
    intro n hn
    by_cases hkind : definition.kind = .system
    · rw [stripNode_system hkind] at hn
      cases hn
    · cases expansion with
      | some nodes =>
        -- what it stands for is stripped in its turn
        rw [stripNode_expanded hkind rfl] at hn
        exact isStripped_of_mem_stripNodes nodes n hn
      | none =>
        rw [stripNode_waiting hkind rfl, List.mem_singleton] at hn
        subst hn
        exact .modifier hkind rfl (isStripped_of_mem_stripNodes content)

theorem isStripped_of_mem_stripNodes : ∀ nodes : List Node,
    ∀ n ∈ stripNodes nodes, n.IsStripped
  | [] => by
    intro n hn
    cases hn
  | node :: rest => by
    intro n hn
    rw [stripNodes, List.mem_append] at hn
    rcases hn with hn | hn
    · exact isStripped_of_mem_stripNode node n hn
    · exact isStripped_of_mem_stripNodes rest n hn

end

theorem stripNodes_of_forall {nodes : List Node} (h : ∀ n ∈ nodes, stripNode n = [n]) :
    stripNodes nodes = nodes := by
  induction nodes with
  | nil => rfl
  | cons node rest ih =>
    have hrest : stripNodes rest = rest := ih fun n hn => h n (List.mem_cons_of_mem node hn)
    rw [stripNodes, h node List.mem_cons_self, hrest, List.singleton_append]

theorem stripNode_of_isStripped {node : Node} (h : node.IsStripped) : stripNode node = [node] := by
  induction h with
  | @leaf n hleaf =>
    cases n with
    | paragraph => cases hleaf
    | modifier => cases hleaf
    | preformatted => rfl
    | text => rfl
    | escaped => rfl
  | paragraph _ ih => rw [stripNode, stripNodes_of_forall ih]
  | @modifier m hkind hexpansion _ ih =>
    rw [stripNode_waiting hkind hexpansion, stripNodes_of_forall ih]
    cases m
    rfl

theorem stripNodes_stripNodes (nodes : List Node) :
    stripNodes (stripNodes nodes) = stripNodes nodes :=
  stripNodes_of_forall fun n hn =>
    stripNode_of_isStripped (isStripped_of_mem_stripNodes nodes n hn)

/-! ### The text of a tree -/

mutual

/-- The leaves of a node from left to right, whatever a modifier stands for. -/
def Node.leaves : Node → List Node
  | .paragraph _ content => leaves content
  | .modifier ⟨_, _, _, _, content, _⟩ => leaves content
  | leaf => [leaf]

def leaves : List Node → List Node
  | [] => []
  | node :: rest => node.leaves ++ leaves rest

end

mutual

/-- The leaves that a node shows: a system modifier shows nothing, and an expanded modifier
what it stands for. -/
def Node.shownLeaves : Node → List Node
  | .paragraph _ content => shownLeaves content
  | .modifier ⟨_, _, definition, _, content, expansion⟩ =>
    if definition.kind = .system then []
    else
      match expansion with
      | some nodes => shownLeaves nodes
      | none => shownLeaves content
  | leaf => [leaf]

def shownLeaves : List Node → List Node
  | [] => []
  | node :: rest => node.shownLeaves ++ shownLeaves rest

end

theorem shownLeaves_system {m : Modifier} (hkind : m.definition.kind = .system) :
    (Node.modifier m).shownLeaves = [] := by
  obtain ⟨span, head, definition, arguments, content, expansion⟩ := m
  cases expansion with
  | none => simp only [Node.shownLeaves, if_pos hkind]
  | some nodes => simp only [Node.shownLeaves, if_pos hkind]

theorem leaves_append (a b : List Node) : leaves (a ++ b) = leaves a ++ leaves b := by
  induction a with
  | nil => rfl
  | cons node rest ih => simp only [List.cons_append, leaves, ih, List.append_assoc]

theorem leaves_singleton (node : Node) : leaves [node] = node.leaves := List.append_nil _

mutual

theorem leaves_stripNode : ∀ node : Node, leaves (stripNode node) = node.shownLeaves
  | .paragraph span content => by
    rw [stripNode, leaves_singleton]
    exact leaves_stripNodes content
  | .preformatted _ _ _ => rfl
  | .text _ _ => rfl
  | .escaped _ _ => rfl
  | .modifier ⟨_, _, definition, _, content, expansion⟩ => by
    by_cases hkind : definition.kind = .system
    · rw [stripNode_system hkind, shownLeaves_system hkind, leaves]
    · cases expansion with
      | some nodes =>
        rw [stripNode_expanded hkind rfl, leaves_stripNodes nodes]
        simp only [Node.shownLeaves, if_neg hkind]
      | none =>
        rw [stripNode_waiting hkind rfl, leaves_singleton, Node.leaves, leaves_stripNodes content]
        simp only [Node.shownLeaves, if_neg hkind]

/-- **Stripping keeps the text**: the leaves that are left are those that were shown. -/
theorem leaves_stripNodes : ∀ nodes : List Node, leaves (stripNodes nodes) = shownLeaves nodes
  | [] => rfl
  | node :: rest => by
    rw [stripNodes, leaves_append, leaves_stripNode node, leaves_stripNodes rest, shownLeaves]

end

/-! ### The whole -/

/-- **Stripping is a projection.**  No system modifier and no expanded one is reached in the
result, which is stripped already; lists are stripped piece by piece; the leaves of the result
are those that were shown.  A tree stripped where it stands has the content of a stripped copy,
and making the copy leaves the document as it was. -/
theorem stripping_projects (nodes other : List Node) (d : Document) :
    (∀ m, Reached (stripNodes nodes) (.modifier m) →
      m.definition.kind ≠ .system ∧ m.expansion = none) ∧
    stripNodes (stripNodes nodes) = stripNodes nodes ∧
    stripNodes (nodes ++ other) = stripNodes nodes ++ stripNodes other ∧
    leaves (stripNodes nodes) = shownLeaves nodes ∧
    ∃ copy, Document.toStripped.run d = (copy, d) ∧
      Document.stripInPlace.run d = ((), { d with content := copy.content }) := by
  have hstripped : ∀ m, Reached (stripNodes nodes) (.modifier m) →
      m.definition.kind ≠ .system ∧ m.expansion = none := by
    intro m hm
    have h := Node.IsStripped.of_reached (isStripped_of_mem_stripNodes nodes) hm
    exact ⟨h.of_modifier.1, h.of_modifier.2.1⟩
  have hdocument : ∃ copy, Document.toStripped.run d = (copy, d) ∧
      Document.stripInPlace.run d = ((), { d with content := copy.content }) :=
    ⟨_, Document.toStripped_run d, Document.stripInPlace_run d⟩
  exact ⟨hstripped, stripNodes_stripNodes nodes, stripNodes_append nodes other,
    leaves_stripNodes nodes, hdocument⟩

/-- A block that stays, with an expanded one in it, is what another block stands for; a system
modifier stands beside it. -/
theorem stripping_projects_nested :
    let occurrence (kind : ModifierKind) (content : List Node) (expansion : Option (List Node)) :=
      Modifier.mk ⟨0, 0⟩ ⟨0, 0⟩ (.plain "x" kind .normal) [] content expansion
    let word := Node.text ⟨0, 0⟩ "a"
    let kept := occurrence .block [.modifier (occurrence .inline [] (some [word]))] none
    let nodes := [.modifier (occurrence .system [word] none),
      .paragraph ⟨0, 0⟩ [.modifier (occurrence .block [] (some [.modifier kept, word]))]]
    let left := occurrence .block [word] none
    Reached (stripNodes nodes) (.modifier left) ∧
      (left.definition.kind ≠ .system ∧ left.expansion = none) ∧
      leaves (stripNodes nodes) = [word, word] := by
  intro occurrence word kept nodes left
  have hnodes : stripNodes nodes = [.paragraph ⟨0, 0⟩ [.modifier left, word]] := rfl
  have hleft : Reached (stripNodes nodes) (.modifier left) := by
    rw [hnodes]
    exact .paragraph (.here List.mem_cons_self) List.mem_cons_self
  let cx : Context := ⟨.empty, .empty, .vacant, 0⟩
  let d : Document := ⟨⟨0, 0⟩, nodes, [], cx, [], [], 0, 0, 0⟩
  exact ⟨hleft, (stripping_projects nodes [] d).1 left hleft, rfl⟩

end MacroMarkup
