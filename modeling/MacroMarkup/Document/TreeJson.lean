import MacroMarkup.Document.Dump
import MacroMarkup.Json.Basic

/-!
# Trees as JSON

Every node is an object with its type and its offsets; the other members depend on the
type.  What a modifier stands for is there only once it was expanded.

* `Node.toJson`, `nodesToJson`: nodes.
* `Document.treeJson`: a whole tree.
-/

namespace MacroMarkup

/-- The members that every node has. -/
def placeMembers (typeName : String) (span : Span) : List (String × Json) :=
  [("type", .str typeName), ("start", .nat span.start), ("end", .nat span.stop)]

def Argument.toJson (argument : Argument) : Json :=
  .obj [("start", .nat argument.span.start), ("end", .nat argument.span.stop),
    ("source", .str argument.source),
    ("value", match argument.value with
      | some value => .str value
      | none => .null)]

mutual

def Node.toJson : Node → Json
  | .text span content => .obj (placeMembers "text" span ++ [("content", .str content)])
  | .escaped span content => .obj (placeMembers "escaped" span ++ [("content", .str content)])
  | .preformatted span _ text => .obj (placeMembers "pre" span ++ [("content", .str text)])
  | .paragraph span content =>
    .obj (placeMembers "paragraph" span ++ [("content", .arr (nodesToJson content))])
  | .modifier ⟨span, _, definition, arguments, content, expansion⟩ =>
    let own := placeMembers definition.kind.typeName span
      ++ [("name", .str definition.name), ("arguments", .arr (arguments.map Argument.toJson)),
        ("content", .arr (nodesToJson content))]
    match expansion with
    | none => .obj own
    | some nodes => .obj (own ++ [("expansion", .arr (nodesToJson nodes))])

def nodesToJson : List Node → List Json
  | [] => []
  | node :: rest => node.toJson :: nodesToJson rest

end

def Document.treeJson (d : Document) : Json :=
  .obj (placeMembers "root" d.span ++ [("content", .arr (nodesToJson d.content))])

theorem length_nodesToJson (nodes : List Node) : (nodesToJson nodes).length = nodes.length := by
  induction nodes with
  | nil => simp [nodesToJson]
  | cons node rest ih => simp [nodesToJson, ih]

end MacroMarkup
