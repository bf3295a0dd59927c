import MacroMarkup.Document.Node

/-!
# What is left to expand

A node is resolved if no modifier that shows in it waits for its expansion.  A plain
modifier never waits, as it stays in the tree for a renderer, and a system modifier never
shows.

* `Node.isResolved`, `areResolved`: nodes in which nothing waits.
* `areResolved_append`: a list is resolved if its parts are.
* `Node.isBare`, `areBare`: nodes without modifiers.
-/

namespace MacroMarkup

/-- The modifier only carries structure for a renderer. -/
def Definition.isPlain (d : Definition) : Bool :=
  match d.behaviour with
  | .plain => true
  | _ => false

mutual

/-- No modifier that shows in the node waits for its expansion. -/
def Node.isResolved : Node → Bool
  | .paragraph _ content => areResolved content
  | .preformatted _ _ _ => true
  | .text _ _ => true
  | .escaped _ _ => true
  | .modifier ⟨_, _, definition, _, content, expansion⟩ =>
    definition.kind == .system ||
      match expansion with
      | some nodes => areResolved nodes
      | none => definition.isPlain && areResolved content

def areResolved : List Node → Bool
  | [] => true
  | node :: rest => node.isResolved && areResolved rest

end

mutual

/-- The node is no modifier, and there is none in it. -/
def Node.isBare : Node → Bool
  | .paragraph _ content => areBare content
  | .preformatted _ _ _ => true
  | .text _ _ => true
  | .escaped _ _ => true
  | .modifier _ => false

def areBare : List Node → Bool
  | [] => true
  | node :: rest => node.isBare && areBare rest

end

theorem areResolved_append (a b : List Node) :
    areResolved (a ++ b) = (areResolved a && areResolved b) := by
  induction a with
  | nil => simp [areResolved]
  | cons node rest ih => simp [areResolved, ih, Bool.and_assoc]

theorem areResolved_iff {nodes : List Node} :
    areResolved nodes = true ↔ ∀ node ∈ nodes, node.isResolved = true := by
  induction nodes with
  | nil => simp [areResolved]
  | cons node rest ih => simp [areResolved, ih]

theorem areBare_append (a b : List Node) : areBare (a ++ b) = (areBare a && areBare b) := by
  induction a with
  | nil => simp [areBare]
  | cons node rest ih => simp [areBare, ih, Bool.and_assoc]

end MacroMarkup
