import MacroMarkup.Proofs.Stock

/-!
# Trees in which nothing waits

A tree is looked at more than once: a modifier that was expanded is not looked at again, and
one that still waits is.  Three properties of nodes go with this.

* `Node.Kept`: a modifier that waits can be expanded later.  `Stock.kept` is the stock of
  such nodes.
* `Node.Shows`: the definitions of the modifiers that show.
* `Node.Settled`: no modifier waits but those that always stay, and their arguments have
  their values.
* `Node.Settled.isResolved`: a settled node is resolved if the expansions in it are.
-/

namespace MacroMarkup

/-- A modifier that waits in the node has a definition in `F` and may be expanded later; what
an expanded one stands for is in `E`. -/
inductive Node.Kept (E : List Node → Prop) (F : Definition → Prop) : Node → Prop
  | leaf {n : Node} : n.isLeaf = true → Kept E F n
  | paragraph {span : Span} {content : List Node} :
    (∀ n ∈ content, Kept E F n) → Kept E F (.paragraph span content)
  | waiting {m : Modifier} : m.expansion = none → F m.definition →
    m.span.start ≤ m.head.stop → (∀ n ∈ m.content, Kept E F n) →
    (∀ n ∈ m.definition.body, Kept E F n) → Kept E F (.modifier m)
  | expanded {m : Modifier} {nodes : List Node} : m.expansion = some nodes → E nodes →
    Kept E F (.modifier m)

/-- Modifiers that show in the node, as they were not expanded, have definitions in `F`. -/
inductive Node.Shows (F : Definition → Prop) : Node → Prop
  | leaf {n : Node} : n.isLeaf = true → Shows F n
  | paragraph {span : Span} {content : List Node} :
    (∀ n ∈ content, Shows F n) → Shows F (.paragraph span content)
  | waiting {m : Modifier} : m.expansion = none → F m.definition →
    (∀ n ∈ m.content, Shows F n) → Shows F (.modifier m)
  | expanded {m : Modifier} {nodes : List Node} : m.expansion = some nodes →
    (∀ n ∈ nodes, Shows F n) → Shows F (.modifier m)

/-- Nothing waits in the node but what always stays there; what an expanded modifier stands
for is in `E`. -/
inductive Node.Settled (E : List Node → Prop) : Node → Prop
  | leaf {n : Node} : n.isLeaf = true → Settled E n
  | paragraph {span : Span} {content : List Node} :
    (∀ n ∈ content, Settled E n) → Settled E (.paragraph span content)
  | plain {m : Modifier} : m.expansion = none → m.definition.behaviour = .plain →
    (∀ a ∈ m.arguments, a.value.isSome = true) → (∀ n ∈ m.content, Settled E n) →
    Settled E (.modifier m)
  | expanded {m : Modifier} {nodes : List Node} : m.expansion = some nodes → E nodes →
    Settled E (.modifier m)

namespace Node

variable {E E' : List Node → Prop} {F : Definition → Prop}

theorem kept_paragraph_iff {span : Span} {content : List Node} :
    Kept E F (.paragraph span content) ↔ ∀ n ∈ content, Kept E F n := by
  refine ⟨fun h => ?_, .paragraph⟩
  cases h with
  | leaf hleaf => cases hleaf
  | paragraph hcontent => exact hcontent

theorem kept_modifier_iff {m : Modifier} (hm : m.expansion = none) :
    Kept E F (.modifier m) ↔ (F m.definition ∧ ∀ n ∈ m.definition.body, Kept E F n) ∧
      m.span.start ≤ m.head.stop ∧ ∀ n ∈ m.content, Kept E F n := by
  constructor
  · intro h
    cases h with
    | leaf hleaf => cases hleaf
    | waiting _ hfits hplaced hcontent hbody => exact ⟨⟨hfits, hbody⟩, hplaced, hcontent⟩
    | expanded hexpanded _ =>
      rw [hm] at hexpanded
      cases hexpanded
  · intro hanswer
    obtain ⟨⟨hfits, hbody⟩, hplaced, hcontent⟩ := hanswer
    exact .waiting hm hfits hplaced hcontent hbody

theorem Kept.mono {n : Node} (h : Kept E F n) (imp : ∀ nodes, E nodes → E' nodes) :
    Kept E' F n := by
  induction h with
  | leaf hleaf => exact .leaf hleaf
  | paragraph _ ih => exact .paragraph ih
  | waiting hm hfits hplaced _ _ ihcontent ihbody =>
    exact .waiting hm hfits hplaced ihcontent ihbody
  | expanded hm hnodes => exact .expanded hm (imp _ hnodes)

theorem Kept.shows {n : Node} (h : Kept E F n) (hE : ∀ nodes, E nodes → ∀ n ∈ nodes, n.Shows F) :
    n.Shows F := by
  induction h with
  | leaf hleaf => exact .leaf hleaf
  | paragraph _ ih => exact .paragraph ih
  | waiting hm hfits _ _ _ ihcontent _ => exact .waiting hm hfits ihcontent
  | expanded hm hnodes => exact .expanded hm (hE _ hnodes)

theorem Settled.mono {n : Node} (h : Settled E n) (imp : ∀ nodes, E nodes → E' nodes) :
    Settled E' n := by
  induction h with
  | leaf hleaf => exact .leaf hleaf
  | paragraph _ ih => exact .paragraph ih
  | plain hm hplain hvalues _ ih => exact .plain hm hplain hvalues ih
  | expanded hm hnodes => exact .expanded hm (imp _ hnodes)

/-- **Nothing is left to expand in a settled node if nothing is left in its expansions.** -/
theorem Settled.isResolved {n : Node} (h : Settled (fun nodes => areResolved nodes = true) n) :
    n.isResolved = true := by
  induction h with
  | @leaf n hleaf =>
    cases n with
    | paragraph _ _ => cases hleaf
    | modifier _ => cases hleaf
    | _ => simp [Node.isResolved]
  | paragraph _ ih =>
    rw [Node.isResolved]
    exact areResolved_iff.mpr ih
  | @plain m hm hplain _ _ ih =>
    obtain ⟨span, head, definition, arguments, content, expansion⟩ := m
    cases hm
    have hcontent : areResolved content = true := areResolved_iff.mpr ih
    have hisPlain : definition.isPlain = true := by
      rw [Definition.isPlain]
      simp only at hplain
      rw [hplain]
    simp [Node.isResolved, hisPlain, hcontent]
  | @expanded m nodes hm hnodes =>
    obtain ⟨span, head, definition, arguments, content, expansion⟩ := m
    cases hm
    simp [Node.isResolved, hnodes]

end Node

/-- The stock of nodes that can be looked at later, for definitions in `F` that include those
that a document can make. -/
def Stock.kept (E : List Node → Prop) (F : Definition → Prop)
    (custom : ∀ stamp kind name parameters slotName body,
      F { Definition.custom kind name parameters slotName body with stamp := stamp })
    (unknown : ∀ kind head, F (.unknown kind head)) : Stock where
  Fits d := F d ∧ ∀ n ∈ d.body, n.Kept E F
  Keeps n := n.Kept E F
  leaf _ hleaf := .leaf hleaf
  paragraph _ _ := Node.kept_paragraph_iff
  modifier _ hm := Node.kept_modifier_iff hm
  body _ hd := hd.2
  custom stamp kind name parameters slotName body hbody :=
    ⟨custom stamp kind name parameters slotName body, hbody⟩
  unknown kind head := ⟨unknown kind head, fun n hn => by cases hn⟩

end MacroMarkup
