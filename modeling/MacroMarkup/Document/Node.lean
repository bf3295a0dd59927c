import MacroMarkup.Registry
import MacroMarkup.Source.Span

/-!
# The tree of a document

A document is a list of blocks: paragraphs, preformatted text and modifiers.  A
modifier is read against a `Definition`, which says how its body is read and,
by its `Behaviour`, what becomes of it.  A user-defined modifier carries its body
in its behaviour, so nodes and definitions refer to each other.

* `Node.span`, `Node.typeName`: what every node has.
* `Argument`, `Entity`: a modifier's arguments, with interpolations inside.
* `Definition.stamp` tells definitions apart that are otherwise the same: each
  registration has a number of its own.
-/

namespace MacroMarkup

/-- Where a modifier may stand: as a block, inside a paragraph, or as an order to
the engine that leaves no trace in the result. -/
inductive ModifierKind where
  | block
  | inline
  | system
deriving DecidableEq, Repr, Inhabited

def ModifierKind.typeName : ModifierKind → String
  | .block => "block"
  | .inline => "inline"
  | .system => "system"

inductive MacroKind where
  | block
  | inline
deriving DecidableEq, Repr, Inhabited

def MacroKind.modifierKind : MacroKind → ModifierKind
  | .block => .block
  | .inline => .inline

/-- How the body of a modifier is read. -/
inductive SlotType where
  /-- There is no body. -/
  | none
  /-- Blocks, or inline content for an inline modifier. -/
  | normal
  /-- Raw text. -/
  | preformatted
deriving DecidableEq, Repr, Inhabited

def SlotType.typeName : SlotType → String
  | .none => "none"
  | .normal => "normal"
  | .preformatted => "preformatted"

/-- A pair of marks between which an argument stands for the value of a name. -/
structure Interpolator where
  /-- The opening mark. -/
  name : String
  /-- The closing mark. -/
  closing : String
  /-- It is also tried in content that is not final yet. -/
  alwaysExpands : Bool
deriving DecidableEq, Repr

instance : Named Interpolator := ⟨Interpolator.name⟩

mutual

/-- One argument of a modifier, with its value once that is known. -/
structure Argument where
  span : Span
  content : List Entity
  value : Option String

inductive Entity where
  | text (span : Span) (content : String)
  /-- A character behind a backslash. -/
  | escaped (span : Span) (content : String)
  /-- An argument between the marks of an interpolator, with its value once that is
  known. -/
  | interpolation (span : Span) (interpolator : Interpolator) (argument : Argument)
      (value : Option String)

end

def Entity.span : Entity → Span
  | .text span _ => span
  | .escaped span _ => span
  | .interpolation span _ _ _ => span

mutual

inductive Node where
  | paragraph (span : Span) (content : List Node)
  /-- Raw text. The first span covers the delimiters too. -/
  | preformatted (span contentSpan : Span) (text : String)
  | text (span : Span) (content : String)
  /-- A character behind a backslash. -/
  | escaped (span : Span) (content : String)
  | modifier (modifier : Modifier)

structure Modifier where
  span : Span
  /-- From the opening mark through the closing bracket. -/
  head : Span
  definition : Definition
  arguments : List Argument
  content : List Node
  /-- What the modifier stands for, once it was expanded. -/
  expansion : Option (List Node)

/-- What a name of a modifier stands for. -/
structure Definition where
  /-- The number of the registration. -/
  stamp : Nat
  name : String
  kind : ModifierKind
  slot : SlotType
  /-- The body is read without acting on it, to be processed later. -/
  delaysContent : Bool
  /-- Expansion is also tried in content that is not final yet. -/
  alwaysExpands : Bool
  behaviour : Behaviour

inductive Behaviour where
  /-- Stays in the tree for a renderer. -/
  | plain
  /-- Stands for the text of its head, followed by its body. -/
  | unknown (head : String)
  /-- Defines a modifier. -/
  | define (kind : MacroKind)
  /-- Stands for the body of an invocation. -/
  | slot (kind : MacroKind)
  /-- Stands for its arguments. -/
  | print
  /-- Stands for its raw body. -/
  | raw
  /-- Binds a variable. -/
  | assign
  /-- Stands for the value of a name. -/
  | reference
  /-- Stands for its body if a name has a value, or has none. -/
  | conditional (expectDefined : Bool)
  /-- Keeps the definitions of this moment. -/
  | pushNotation
  /-- Goes back to the definitions kept last. -/
  | popNotation
  /-- Records the definitions of its body under a name. -/
  | recordModule
  /-- Makes a module visible in its body. -/
  | useInside
  /-- Makes a module visible from here on. -/
  | useFromHere
  /-- Stands for a body that the document defined. -/
  | custom (kind : MacroKind) (name : String) (parameters : List String)
      (slotName : String) (body : List Node)

end

instance : Named Definition := ⟨Definition.name⟩

namespace Definition

def plain (name : String) (kind : ModifierKind) (slot : SlotType) : Definition where
  stamp := 0
  name := name
  kind := kind
  slot := slot
  delaysContent := false
  alwaysExpands := false
  behaviour := .plain

/-- The modifier never has a body. -/
def isMarker (d : Definition) : Bool := d.slot == .none

end Definition

namespace Modifier

/-- An occurrence of which only the head was read. -/
def ofHead (definition : Definition) (head : Span) (arguments : List Argument) : Modifier where
  span := head
  head := head
  definition := definition
  arguments := arguments
  content := []
  expansion := none

end Modifier

namespace Node

def span : Node → Span
  | .paragraph span _ => span
  | .preformatted span _ _ => span
  | .text span _ => span
  | .escaped span _ => span
  | .modifier m => m.span

def typeName : Node → String
  | .paragraph _ _ => "paragraph"
  | .preformatted _ _ _ => "pre"
  | .text _ _ => "text"
  | .escaped _ _ => "escaped"
  | .modifier m => m.definition.kind.typeName

end Node

end MacroMarkup
