import MacroMarkup.Parser.Document

/-!
# Trees as indented text

A tree is written as nested tags with the offsets of each node, what a modifier stands
for behind it.  A text stands for itself, and a node that is written as nothing takes no
line among its siblings.

* `Argument.source`: an argument, with marks around escapes and interpolations.
* `dumpNodes`: nodes, one below another.
* `Document.dumpTree`, `Document.dump`: a whole tree, and the messages before it.
-/

namespace MacroMarkup

mutual

/-- An argument, with marks around escapes and interpolations. -/
def Argument.source : Argument → String
  | ⟨_, content, _⟩ => entitySources content

def entitySources : List Entity → String
  | [] => ""
  | entity :: rest => entity.source ++ entitySources rest

def Entity.source : Entity → String
  | .text _ content => content
  | .escaped _ content => "<escaped:" ++ content ++ ">"
  | .interpolation _ interpolator argument value =>
    let result := match value with
      | some text => "=" ++ text
      | none => ""
    "<interp:" ++ interpolator.name ++ "-" ++ interpolator.closing ++ ":" ++ argument.source
      ++ result ++ ">"

end

/-- The arguments of a modifier, each on a line, numbered from `number` on. -/
def dumpArguments (indent : String) (number : Nat) : List Argument → String
  | [] => ""
  | argument :: rest =>
    s!"\n{indent}    ({number})@{argument.span.start}-{argument.span.stop}="
      ++ argument.source ++ dumpArguments indent (number + 1) rest

/-- A tag around lines, or an empty tag if there are none. -/
def dumpContainer (tag : String) (span : Span) (children indent : String) : String :=
  if children.isEmpty then s!"<{tag}@{span.start}-{span.stop} />"
  else s!"<{tag}@{span.start}>\n" ++ children ++ s!"\n{indent}</{tag}@{span.stop}>"

def dumpLeaf (tag : String) (span : Span) (text indent : String) : String :=
  s!"<{tag}@{span.start}>\n{indent}  " ++ text ++ s!"\n{indent}</{tag}@{span.stop}>"

/-- The lines of nodes, each indented; nothing is written for an empty line. -/
def joinChildren (indent : String) (dumps : List String) : String :=
  "\n".intercalate ((dumps.filter fun dump => !dump.isEmpty).map fun dump => indent ++ dump)

mutual

/-- A node; the lines behind the first are indented by `indent`. -/
def dumpNode (indent : String) : Node → String
  | .text _ content => content
  | .paragraph span content =>
    let children := joinChildren (indent ++ "  ") (dumpEach (indent ++ "  ") content)
    dumpContainer "paragraph" span children indent
  | .escaped span content => dumpLeaf "escaped" span content indent
  | .preformatted span _ text => dumpLeaf "pre" span text indent
  | .modifier ⟨span, _, definition, arguments, content, expansion⟩ =>
    let tag := definition.kind.typeName
    let arguments := dumpArguments indent 0 arguments
    let children := joinChildren (indent ++ "  ") (dumpEach (indent ++ "  ") content)
    let occurrence :=
      if content.isEmpty then
        s!"<{tag}@{span.start}-{span.stop} id=" ++ definition.name ++ arguments ++ " />"
      else
        s!"<{tag}@{span.start} id=" ++ definition.name ++ arguments ++ ">\n" ++ children
          ++ s!"\n{indent}</{tag}@{span.stop}>"
    match expansion with
    | none => occurrence
    | some nodes =>
      let replacement := joinChildren (indent ++ "  ") (dumpEach (indent ++ "  ") nodes)
      if !replacement.isEmpty then
        occurrence ++ s!"\n{indent}<expansion>\n" ++ replacement ++ s!"\n{indent}</expansion>"
      else if definition.kind = .system then occurrence
      else occurrence ++ s!"\n{indent}<expansion />"

def dumpEach (indent : String) : List Node → List String
  | [] => []
  | node :: rest => dumpNode indent node :: dumpEach indent rest

end

def dumpNodes (nodes : List Node) : String := "\n".intercalate (dumpEach "" nodes)

namespace Document

def dumpTree (d : Document) : String :=
  dumpContainer "root" d.span (joinChildren "  " (dumpEach "  " d.content)) ""

/-- The messages, with places in lines and columns of the source, and the whole tree. -/
def dump (d : Document) (source : String) : String :=
  let lines := LineIndex.ofString source
  d.messages.foldl (fun text message => text ++ message.located lines ++ "\n") "" ++ d.dumpTree

theorem dumpTree_of_empty {d : Document} (h : d.content = []) :
    d.dumpTree = dumpContainer "root" d.span "" "" := by
  simp [dumpTree, h, dumpEach, joinChildren]

end Document

end MacroMarkup
