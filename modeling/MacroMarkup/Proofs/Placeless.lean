import MacroMarkup.Parser.Document
import MacroMarkup.Document.Strip

/-!
# What is left without places

A tree, a definition, a message or a context says at many points where in the source something
stands.  `Placed.placeless` forgets all of it; two things are the same but for places if they are
equal without them.

* `Placed`: what holds places.  A span becomes `Span.nowhere`.
* `NamedAnywhere`: a registry answers without places what it answers with them
  (`Registry.get?_placeless`, `Registry.set_placeless`, `Registries.merge_placeless`).
* `areResolved_placeless`, `stripNodes_placeless`: what is said of a tree without its places.
-/

namespace MacroMarkup

/-- What holds places in a source. -/
class Placed (α : Type) where
  /-- The same without its places. -/
  placeless : α → α

open Placed (placeless)

/-! ### The tree -/

/-- The span that stands for any other. -/
def Span.nowhere : Span := ⟨0, 0⟩

mutual

def Argument.placeless : Argument → Argument
  | ⟨_, content, value⟩ => ⟨.nowhere, placelessEntities content, value⟩

def placelessEntities : List Entity → List Entity
  | [] => []
  | entity :: rest => entity.placeless :: placelessEntities rest

def Entity.placeless : Entity → Entity
  | .text _ content => .text .nowhere content
  | .escaped _ content => .escaped .nowhere content
  | .interpolation _ interpolator argument value =>
    .interpolation .nowhere interpolator argument.placeless value

end

mutual

def Node.placeless : Node → Node
  | .paragraph _ content => .paragraph .nowhere (placelessNodes content)
  | .preformatted _ _ text => .preformatted .nowhere .nowhere text
  | .text _ content => .text .nowhere content
  | .escaped _ content => .escaped .nowhere content
  | .modifier ⟨_, _, ⟨stamp, name, kind, slot, delaysContent, alwaysExpands, behaviour⟩,
      arguments, content, expansion⟩ =>
    .modifier ⟨.nowhere, .nowhere,
      ⟨stamp, name, kind, slot, delaysContent, alwaysExpands, behaviour.placeless⟩,
      arguments.map Argument.placeless, placelessNodes content,
      match expansion with
      | some nodes => some (placelessNodes nodes)
      | none => none⟩

def placelessNodes : List Node → List Node
  | [] => []
  | node :: rest => node.placeless :: placelessNodes rest

def Behaviour.placeless : Behaviour → Behaviour
  | .custom kind name parameters slotName body =>
    .custom kind name parameters slotName (placelessNodes body)
  | behaviour => behaviour

end

def Definition.placeless (d : Definition) : Definition :=
  { d with behaviour := d.behaviour.placeless }

instance : Placed Span := ⟨fun _ => .nowhere⟩
instance : Placed Bool := ⟨id⟩
instance : Placed String := ⟨id⟩
instance : Placed Unit := ⟨id⟩
instance : Placed Interpolator := ⟨id⟩
instance : Placed Argument := ⟨Argument.placeless⟩
instance : Placed Entity := ⟨Entity.placeless⟩
instance : Placed Node := ⟨Node.placeless⟩
instance : Placed Behaviour := ⟨Behaviour.placeless⟩
instance : Placed Definition := ⟨Definition.placeless⟩

section Containers

variable {α β : Type} [Placed α] [Placed β]

instance : Placed (List α) := ⟨List.map placeless⟩
instance : Placed (Option α) := ⟨Option.map placeless⟩
instance : Placed (α × β) := ⟨fun p => (placeless p.1, placeless p.2)⟩

end Containers

instance : Placed Modifier where
  placeless m := ⟨.nowhere, .nowhere, placeless m.definition, placeless m.arguments,
    placeless m.content, placeless m.expansion⟩

theorem placelessEntities_eq (entities : List Entity) :
    placelessEntities entities = placeless entities := by
  induction entities with
  | nil => rfl
  | cons entity rest ih => exact congrArg (entity.placeless :: ·) ih

theorem placelessNodes_eq (nodes : List Node) : placelessNodes nodes = placeless nodes := by
  induction nodes with
  | nil => rfl
  | cons node rest ih => exact congrArg (node.placeless :: ·) ih

@[simp] theorem placeless_nil {α : Type} [Placed α] : placeless ([] : List α) = [] := rfl

@[simp] theorem placeless_cons {α : Type} [Placed α] (a : α) (as : List α) :
    placeless (a :: as) = placeless a :: placeless as := rfl

@[simp] theorem placeless_append {α : Type} [Placed α] (as bs : List α) :
    placeless (as ++ bs) = placeless as ++ placeless bs := List.map_append

@[simp] theorem length_placeless {α : Type} [Placed α] (as : List α) :
    (placeless as).length = as.length := List.length_map _

@[simp] theorem placeless_none {α : Type} [Placed α] : placeless (none : Option α) = none := rfl

@[simp] theorem placeless_some {α : Type} [Placed α] (a : α) :
    placeless (some a) = some (placeless a) := rfl

theorem placeless_paragraph (span : Span) (content : List Node) :
    placeless (Node.paragraph span content) = .paragraph .nowhere (placeless content) :=
  congrArg (Node.paragraph _) (placelessNodes_eq content)

theorem placeless_modifier (m : Modifier) :
    placeless (Node.modifier m) = .modifier (placeless m) := by
  obtain ⟨span, head, ⟨stamp, name, kind, slot, delaysContent, alwaysExpands, behaviour⟩,
    arguments, content, expansion⟩ := m
  cases expansion with
  | none =>
    simp only [placeless, Node.placeless, placelessNodes_eq, Definition.placeless, Option.map_none]
  | some nodes =>
    simp only [placeless, Node.placeless, placelessNodes_eq, Definition.placeless, Option.map_some]

/-! ### Registries -/

section Registries

variable {α : Type} [Named α] [Placed α]

instance : Placed (Layer α) := ⟨fun layer => ⟨placeless layer.byName, placeless layer.byLength⟩⟩
instance : Placed (Registry α) := ⟨fun r => ⟨placeless r.top, placeless r.below⟩⟩

/-- Without its places an entry is found by the same name. -/
class NamedAnywhere (α : Type) [Named α] [Placed α] : Prop where
  name_placeless : ∀ x : α, Named.name (placeless x) = Named.name x

instance : NamedAnywhere Definition := ⟨fun _ => rfl⟩

variable [NamedAnywhere α]

open NamedAnywhere

namespace Layer

theorem nameLength_placeless (x : α) : nameLength (placeless x) = nameLength x := by
  rw [nameLength, name_placeless, nameLength]

theorem get?_placeless (layer : Layer α) (name : String) :
    get? (placeless layer) name = placeless (get? layer name) := by
  show (layer.byName.map placeless).find? _ = (layer.byName.find? _).map placeless
  rw [List.find?_map]
  simp only [Function.comp_def, name_placeless]

theorem bindIn_placeless (x : α) (entries : List α) :
    bindIn (placeless x) (placeless entries) = placeless (bindIn x entries) := by
  induction entries with
  | nil => rfl
  | cons y rest ih =>
    simp only [placeless_cons, bindIn, name_placeless, ih]
    split <;> rfl

theorem sortIn_placeless (x : α) (entries : List α) :
    sortIn (placeless x) (placeless entries) = placeless (sortIn x entries) := by
  induction entries with
  | nil => rfl
  | cons y rest ih =>
    simp only [placeless_cons, sortIn, nameLength_placeless, ih]
    split <;> rfl

theorem without_placeless (name : String) (entries : List α) :
    without name (placeless entries) = placeless (without name entries) := by
  show (entries.map placeless).filter _ = (entries.filter _).map placeless
  rw [List.filter_map]
  simp only [Function.comp_def, name_placeless]

theorem insert_placeless (x : α) (layer : Layer α) :
    insert (placeless x) (placeless layer) = placeless (insert x layer) := by
  show Layer.mk (bindIn _ (placeless layer.byName)) (sortIn _ (placeless layer.byLength)) = _
  rw [bindIn_placeless, sortIn_placeless]
  rfl

theorem set_placeless (layer : Layer α) (x : α) :
    set (placeless layer) (placeless x) = placeless (set layer x) := by
  have hhas : has (placeless layer) (Named.name x) = has layer (Named.name x) := by
    rw [has, get?_placeless, has]
    exact Option.isSome_map
  have hwithout : Layer.mk (placeless layer).byName
      (without (Named.name x) (placeless layer).byLength)
        = placeless (Layer.mk layer.byName (without (Named.name x) layer.byLength)) :=
    congrArg (Layer.mk (placeless layer.byName)) (without_placeless _ _)
  rw [set, name_placeless, hhas, hwithout, insert_placeless, insert_placeless, set]
  split <;> rfl

end Layer

namespace Registry

theorem set_placeless (r : Registry α) (x : α) :
    (placeless r).set (placeless x) = placeless (r.set x) := by
  obtain ⟨top, below⟩ := r
  exact congrArg (Registry.mk · (placeless below)) (Layer.set_placeless top x)

theorem get?_placeless (r : Registry α) (name : String) :
    (placeless r).get? name = placeless (r.get? name) := by
  have hlookup : ∀ layers : List (Layer α),
      lookup name (placeless layers) = placeless (lookup name layers) := by
    intro layers
    induction layers with
    | nil => rfl
    | cons layer rest ih =>
      rw [placeless_cons, lookup, Layer.get?_placeless, ih, lookup]
      cases Layer.get? layer name <;> rfl
  exact hlookup r.layers

theorem has_placeless (r : Registry α) (name : String) :
    (placeless r).has name = r.has name := by
  rw [has, get?_placeless, has]
  exact Option.isSome_map

theorem names_placeless (r : Registry α) : (placeless r).names = r.names := by
  have hentries : ∀ (sorted : List String) (layer : Layer α),
      (placeless layer).byName.foldl (fun sorted x => insertName (Named.name x) sorted) sorted
        = layer.byName.foldl (fun sorted x => insertName (Named.name x) sorted) sorted := by
    intro sorted layer
    show (layer.byName.map placeless).foldl _ _ = _
    simp only [List.foldl_map, name_placeless]
  show (r.layers.map placeless).foldl _ _ = _
  simp only [List.foldl_map, hentries, names]

theorem definitions_placeless (r : Registry α) :
    (placeless r).definitions = placeless r.definitions := by
  rw [definitions, names_placeless, definitions]
  show _ = (r.names.filterMap r.get?).map placeless
  rw [List.map_filterMap]
  exact congrArg (r.names.filterMap ·) (funext (get?_placeless r))

end Registry

end Registries

instance : Placed ModuleRecord := ⟨fun r => ⟨placeless r.blocks, placeless r.inlines⟩⟩
instance : Placed Registries := ⟨fun r => ⟨placeless r.blocks, placeless r.inlines⟩⟩

namespace Registries

theorem added_placeless (now earlier : Registry Definition) :
    added (placeless now) (placeless earlier) = placeless (added now earlier) := by
  rw [added, Registry.definitions_placeless]
  show (now.definitions.map placeless).filter _ = (now.definitions.filter _).map placeless
  rw [List.filter_map]
  congr 2
  funext d
  have hget : (placeless earlier).get? (placeless d).name = placeless (earlier.get? d.name) :=
    Registry.get?_placeless _ _
  simp only [Function.comp_apply, hget]
  cases earlier.get? d.name <;> rfl

theorem addedSince_placeless (now earlier : Registries) :
    (placeless now).addedSince (placeless earlier) = placeless (now.addedSince earlier) :=
  congr (congrArg ModuleRecord.mk (added_placeless _ _)) (added_placeless _ _)

theorem mergeInto_placeless (replace : Bool) (ds : List Definition) (r : Registry Definition) :
    mergeInto replace (placeless r) (placeless ds)
      = (placeless (mergeInto replace r ds).1, (mergeInto replace r ds).2) := by
  induction ds generalizing r with
  | nil => rfl
  | cons d rest ih =>
    have hname : (placeless d).name = d.name := rfl
    have hstamp : ∀ d : Definition, (placeless d).stamp = d.stamp := fun _ => rfl
    have hreplaced : (if replace then (placeless r).set (placeless d) else placeless r)
        = placeless (if replace then r.set d else r) := by
      rw [Registry.set_placeless]
      split <;> rfl
    rw [placeless_cons, mergeInto, hname, Registry.get?_placeless, mergeInto]
    cases r.get? d.name with
    | none => rw [placeless_none, Registry.set_placeless, ih]
    | some existing =>
      simp only [placeless_some, hstamp, hreplaced, ih]
      split <;> rfl

theorem merge_placeless (replace : Bool) (r : Registries) (record : ModuleRecord) :
    (placeless r).merge replace (placeless record)
      = (placeless (r.merge replace record).1, (r.merge replace record).2) := by
  have hblocks : mergeInto replace (placeless r).blocks (placeless record).blocks = _ :=
    mergeInto_placeless replace record.blocks r.blocks
  have hinlines : mergeInto replace (placeless r).inlines (placeless record).inlines = _ :=
    mergeInto_placeless replace record.inlines r.inlines
  simp only [merge, hblocks, hinlines]
  rfl

end Registries

/-! ### Messages and states -/

def Fix.placeless : Fix → Fix
  | .insert info _ text => .insert info 0 text
  | .remove info _ _ => .remove info 0 0

instance : Placed Fix := ⟨Fix.placeless⟩

def Message.placeless : Message → Message
  | ⟨severity, _, _, code, info, fixes, none⟩ =>
    ⟨severity, 0, 0, code, info, fixes.map Fix.placeless, none⟩
  | ⟨severity, _, _, code, info, fixes, some inner⟩ =>
    ⟨severity, 0, 0, code, info, fixes.map Fix.placeless, some inner.placeless⟩

instance : Placed Message := ⟨Message.placeless⟩

@[simp] theorem placeless_message (problem : Problem) (span : Span) :
    placeless (problem.message span) = problem.message .nowhere := by
  cases problem <;> rfl

theorem placeless_referred (message : Message) (span : Span) :
    placeless (message.referred span) = (placeless message).referred .nowhere := by
  obtain ⟨severity, position, length, code, info, fixes, inner⟩ := message
  cases inner <;> rfl

instance {α : Type} [Placed α] : Placed (Dict α) where
  placeless d := ⟨d.entries.map fun entry => (entry.1, placeless entry.2)⟩

namespace Dict

variable {α : Type} [Placed α]

theorem get?_placeless (d : Dict α) (key : String) :
    (placeless d).get? key = placeless (d.get? key) := by
  obtain ⟨entries⟩ := d
  show lookup key (entries.map _) = placeless (lookup key entries)
  induction entries with
  | nil => rfl
  | cons entry rest ih =>
    rw [List.map_cons, lookup, ih, lookup]
    split <;> rfl

theorem set_placeless (d : Dict α) (key : String) (value : α) :
    (placeless d).set key (placeless value) = placeless (d.set key value) := by
  obtain ⟨entries⟩ := d
  refine congrArg Dict.mk ?_
  show bind key (placeless value) (entries.map _) = (bind key value entries).map _
  induction entries with
  | nil => rfl
  | cons entry rest ih =>
    rw [List.map_cons, bind, ih, bind]
    split <;> rfl

end Dict

instance : Placed Frame where
  placeless frame := { frame with content := placeless frame.content }

instance : Placed MacroState where
  placeless s := { s with
    blockFrames := placeless s.blockFrames
    inlineFrames := placeless s.inlineFrames
    notations := placeless s.notations
    modules := placeless s.modules }

instance : Placed Configuration where
  placeless c := { c with
    blocks := placeless c.blocks
    inlines := placeless c.inlines
    systems := placeless c.systems }

instance : Placed Context where
  placeless cx := { cx with
    configuration := placeless cx.configuration
    store := { cx.store with macros := ⟨placeless cx.store.macros.value?⟩ } }

namespace MacroState

theorem delayed_placeless (s : MacroState) (kind : MacroKind) :
    (placeless s).delayed kind = s.delayed kind := by
  cases kind <;> rfl

theorem frames_placeless (s : MacroState) (kind : MacroKind) :
    (placeless s).frames kind = placeless (s.frames kind) := by
  cases kind <;> rfl

theorem setDelayed_placeless (s : MacroState) (kind : MacroKind) (delayed : List DelayedFrame) :
    (placeless s).setDelayed kind delayed = placeless (s.setDelayed kind delayed) := by
  cases kind <;> rfl

theorem setFrames_placeless (s : MacroState) (kind : MacroKind) (frames : List Frame) :
    (placeless s).setFrames kind (placeless frames) = placeless (s.setFrames kind frames) := by
  cases kind <;> rfl

end MacroState

namespace Configuration

theorem modifiers_placeless (c : Configuration) (kind : ModifierKind) :
    (placeless c).modifiers kind = placeless (c.modifiers kind) := by
  cases kind <;> rfl

theorem set_placeless (c : Configuration) (d : Definition) :
    (placeless c).set (placeless d) = placeless (c.set d) := by
  obtain ⟨stamp, name, kind, slot, delaysContent, alwaysExpands, behaviour⟩ := d
  cases kind with
  | block =>
    exact congrArg (fun r => { placeless c with blocks := r, history := name :: c.history })
      (Registry.set_placeless c.blocks
        ⟨c.nextStamp, name, .block, slot, delaysContent, alwaysExpands, behaviour⟩)
  | inline =>
    exact congrArg (fun r => { placeless c with inlines := r, history := name :: c.history })
      (Registry.set_placeless c.inlines
        ⟨c.nextStamp, name, .inline, slot, delaysContent, alwaysExpands, behaviour⟩)
  | system =>
    exact congrArg (fun r => { placeless c with systems := r, history := name :: c.history })
      (Registry.set_placeless c.systems
        ⟨c.nextStamp, name, .system, slot, delaysContent, alwaysExpands, behaviour⟩)

end Configuration

/-! ### What does not depend on places -/

mutual

theorem Node.isResolved_placeless : ∀ node : Node, node.placeless.isResolved = node.isResolved
  | .paragraph _ content => by
    simp only [Node.placeless, Node.isResolved]
    exact areResolved_placelessNodes content
  | .preformatted _ _ _ => rfl
  | .text _ _ => rfl
  | .escaped _ _ => rfl
  | .modifier ⟨_, _, ⟨_, _, _, _, _, _, behaviour⟩, _, content, expansion⟩ => by
    cases expansion with
    | some nodes =>
      simp only [Node.placeless, Node.isResolved]
      rw [areResolved_placelessNodes nodes]
    | none =>
      simp only [Node.placeless, Node.isResolved]
      rw [areResolved_placelessNodes content]
      cases behaviour <;> rfl

theorem areResolved_placelessNodes : ∀ nodes : List Node,
    areResolved (placelessNodes nodes) = areResolved nodes
  | [] => rfl
  | node :: rest => by
    simp only [placelessNodes, areResolved]
    rw [Node.isResolved_placeless node, areResolved_placelessNodes rest]

end

theorem areResolved_placeless (nodes : List Node) :
    areResolved (placeless nodes) = areResolved nodes := by
  rw [← placelessNodes_eq, areResolved_placelessNodes]

mutual

theorem stripNode_placeless : ∀ node : Node,
    stripNode node.placeless = placeless (stripNode node)
  | .paragraph _ content => by
    simp only [Node.placeless, stripNode, stripNodes_placelessNodes content, placeless_cons,
      placeless_paragraph, placeless_nil]
  | .preformatted _ _ _ => rfl
  | .text _ _ => rfl
  | .escaped _ _ => rfl
  | .modifier ⟨_, _, ⟨_, _, kind, _, _, _, _⟩, _, content, expansion⟩ => by
    cases expansion with
    | some nodes =>
      simp only [Node.placeless, stripNode, stripNodes_placelessNodes nodes]
      split <;> rfl
    | none =>
      simp only [Node.placeless, stripNode, stripNodes_placelessNodes content]
      split
      · rfl
      · simp only [placeless_cons, placeless_modifier, placeless_nil]
        rfl

theorem stripNodes_placelessNodes : ∀ nodes : List Node,
    stripNodes (placelessNodes nodes) = placeless (stripNodes nodes)
  | [] => rfl
  | node :: rest => by
    simp only [placelessNodes, stripNodes, placeless_append]
    rw [stripNode_placeless node, stripNodes_placelessNodes rest]

end

theorem stripNodes_placeless (nodes : List Node) :
    stripNodes (placeless nodes) = placeless (stripNodes nodes) := by
  rw [← placelessNodes_eq, stripNodes_placelessNodes]

end MacroMarkup
