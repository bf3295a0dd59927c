import MacroMarkup.Parser.Document

/-!
# The stripped tree

Stripping puts what a modifier stands for in its place and drops system modifiers.
What is left are text and the modifiers that a renderer has to handle.

* `stripNodes`: strips a list; `stripNodes_append` says that a list is stripped piece
  by piece.
* `stripNode_system`, `stripNode_expanded`, `stripNode_waiting`: what is left of a modifier.
* `Document.strip`: the document with its tree stripped.
* `Document.toStripped`, `Document.stripInPlace`: a stripped copy of the tree at hand, and
  the tree at hand stripped where it stands.
-/

namespace MacroMarkup

mutual

def stripNode : Node → List Node
  | .paragraph span content => [.paragraph span (stripNodes content)]
  | .preformatted span contentSpan text => [.preformatted span contentSpan text]
  | .text span content => [.text span content]
  | .escaped span content => [.escaped span content]
  | .modifier ⟨span, head, definition, arguments, content, expansion⟩ =>
    if definition.kind = .system then []
    else
      match expansion with
      | some nodes => stripNodes nodes
      | none =>
        [.modifier ⟨span, head, definition, arguments, stripNodes content, none⟩]

def stripNodes : List Node → List Node
  | [] => []
  | node :: rest => stripNode node ++ stripNodes rest

end

def Document.strip (d : Document) : Document := { d with content := stripNodes d.content }

/-- A tree apart from the document that it comes from. -/
structure Tree where
  /-- The whole source. -/
  span : Span
  content : List Node

namespace Document

def toStripped : StateM Document Tree := do
  let d ← get
  return ⟨d.span, stripNodes d.content⟩

/-- Strips the tree of the document at hand: its nodes are taken out and put back stripped. -/
def stripInPlace : StateM Document Unit := do
  let content ← modifyGet fun d => (d.content, { d with content := [] })
  modify fun d => { d with content := stripNodes content }

theorem toStripped_run (d : Document) :
    toStripped.run d = (⟨d.span, stripNodes d.content⟩, d) := rfl

theorem stripInPlace_run (d : Document) : stripInPlace.run d = ((), d.strip) := rfl

end Document

theorem stripNodes_append (a b : List Node) :
    stripNodes (a ++ b) = stripNodes a ++ stripNodes b := by
  induction a with
  | nil => simp [stripNodes]
  | cons node rest ih => simp [stripNodes, ih]

section Modifiers

variable {m : Modifier}

theorem stripNode_system (hkind : m.definition.kind = .system) :
    stripNode (.modifier m) = [] := by
  obtain ⟨span, head, definition, arguments, content, expansion⟩ := m
  cases expansion with
  | none => simp only [stripNode, if_pos hkind]
  | some nodes => simp only [stripNode, if_pos hkind]

theorem stripNode_expanded (hkind : m.definition.kind ≠ .system) {nodes : List Node}
    (hexpansion : m.expansion = some nodes) : stripNode (.modifier m) = stripNodes nodes := by
  obtain ⟨span, head, definition, arguments, content, expansion⟩ := m
  cases hexpansion
  simp only [stripNode, if_neg hkind]

theorem stripNode_waiting (hkind : m.definition.kind ≠ .system) (hexpansion : m.expansion = none) :
    stripNode (.modifier m) = [.modifier { m with content := stripNodes m.content }] := by
  obtain ⟨span, head, definition, arguments, content, expansion⟩ := m
  cases hexpansion
  simp only [stripNode, if_neg hkind]

end Modifiers

end MacroMarkup
