import MacroMarkup.Parser.Argument
import MacroMarkup.Parser.RawText

/-!
# Reading blocks

A block is a modifier, a group of blocks or a paragraph.  A modifier is expanded as
soon as its body was read, so a definition is known to the text that follows it.
Whatever cannot be completed is reported, and reading goes on.

* `readBlock`, `readModifier`, `readBody`, `readGroup`, `readParagraph`, `readInline`: the
  constructs.  They share a bound on how deep they may call each other; it is
  never met when it exceeds eight times what is left to read, as a construct moves
  on before it comes back to itself.
* `unknownHead`: the name of a modifier that is not registered.
* `appendText`: text is joined with text right before it.
-/

namespace MacroMarkup

/-- Puts text behind nodes, the last of which comes first. -/
def appendText (text : String) (span : Span) : List Node → List Node
  | .text before content :: rest => .text ⟨before.start, span.stop⟩ (content ++ text) :: rest
  | nodes => .text span text :: nodes

/-- The name of a modifier that is not registered, and how many characters were read for
it.  It goes up to a blank, which is read too, or up to the end of the head; a backslash
takes the next character as it is. -/
def unknownHead : List Char → List Char × Nat
  | [] => ([], 0)
  | '\\' :: [] => ([], 1)
  | '\\' :: c :: rest =>
    let (name, count) := unknownHead rest
    (c :: name, count + 2)
  | c :: rest =>
    if isBlank c then ([], 1)
    else if c = ']' || c = ';' then ([], 0)
    else
      let (name, count) := unknownHead rest
      (c :: name, count + 1)

namespace Parse

/-- Reads the name of a modifier: the longest registered one, or else an unknown one,
which is reported.  `start` is where the modifier starts. -/
def readName (kind : ModifierKind) (start : Nat) : Parse (Option Definition) := do
  let found ← ((← configuration).modifiers kind).findLongestM? peekName
  match found with
  | some definition =>
    let _ ← acceptName definition.name
    return some definition
  | none =>
    let (name, count) := unknownHead (← get).cursor.rest
    moveCursor fun cursor => cursor.advance count
    emit [(Problem.unknownModifier (String.ofList name)).message (← spanFrom start)]
    return none

structure Head where
  /-- The modifier, with evaluated arguments and without content. -/
  modifier : Modifier
  /-- The head says that there is no body. -/
  ended : Bool

/-- The modifier has no body. -/
def Head.isWhole (head : Head) : Bool := head.modifier.definition.isMarker || head.ended

/-- The head of a modifier that starts at `start` and ends at the cursor.  Its arguments
are evaluated here. -/
def makeHead (kind : ModifierKind) (start : Nat) (found : Option Definition)
    (arguments : List Argument) (ended : Bool) : Parse Head := do
  let head ← spanFrom start
  let cursor := (← get).cursor
  let definition := match found with
    | some definition => definition
    | none => .unknown kind (cursor.slice head.start head.stop)
  let arguments ← expanding (expandArguments arguments)
  return ⟨.ofHead definition head arguments, ended⟩

/-- Reads the head of a modifier behind its opening mark, which stands at `start`. -/
def readHeadFrom (kind : ModifierKind) (start : Nat) : Parse Head := do
  let found ← readName kind start
  let arguments ← readArguments
  let ended ← accept .headEnd
  if !(← accept .headClose) then
    emit [Problem.expectedAt (← position) Mark.headClose.text]
  makeHead kind start found arguments ended

def readHead (kind : ModifierKind) : Parse Head := do
  let start ← position
  let _ ← accept kind.opening
  readHeadFrom kind start

/-- The range of a modifier whose body ends at the cursor, if it has one. -/
def wholeSpan (head : Head) : Parse Span :=
  if head.isWhole then return head.modifier.head else spanFrom head.modifier.head.start

/-- Records that raw text ends at the cursor, if it is that of a group. -/
def leaveRaw (grouped : Bool) (raw : RawText) : Parse Unit :=
  if grouped then leave raw.closed else return ()

/-- Reads raw text, which is the body of a preformatted one that starts at `start`. -/
def readRaw (start : Nat) (grouped : Bool) : Parse Node := do
  let contentStart ← position
  let raw := RawText.ofChars grouped (← get).cursor.rest
  moveCursor fun cursor => cursor.advance raw.length
  leaveRaw grouped raw
  if raw.unclosed then emit [Problem.expectedAt (← position) Mark.groupClose.text]
  let span ← spanFrom start
  let contentSpan ← Span.checked contentStart (contentStart + raw.contentLength)
  return .preformatted span contentSpan raw.text

/-- Reads a preformatted body: raw text up to a blank line, or a group of raw text. -/
def readPreformatted : Parse Node := do
  let start ← position
  let grouped ← accept .groupOpen
  if grouped then
    endLine
    enter .raw
  readRaw start grouped

/-- Reads a line break or a character of a paragraph, behind the nodes read before, the
last one first.  The flag says that the paragraph goes on.  It ends before a block, the end
of a group or the end of the source on a new line, and with a blank line. -/
def readCharacter (nodes : List Node) : Parse (List Node × Bool) := do
  let start ← position
  if ← accept .newline then
    skipBlanks
    let inGroup := (← get).openGroups ≠ 0
    if (← peek .blockOpen) || (← peek .systemOpen) || (inGroup && (← peek .groupClose))
        || (← isAtEnd) then
      return (nodes, false)
    if ← accept .newline then
      skipLines 0
      return (nodes, false)
    let span ← Span.checked start (start + 1)
    return (appendText Mark.newline.text span nodes, true)
  match ← takeChar? with
  | some c => return (appendText c.toString (← spanFrom start) nodes, true)
  | none => return (nodes, false)

/-- Reads what a backslash stands before; at the end of the source it stands for
itself. -/
def readEscaped (start : Nat) (nodes : List Node) : Parse (List Node) := do
  match ← takeChar? with
  | some c => return .escaped (← spanFrom start) c.toString :: nodes
  | none => return appendText Mark.escape.text (← spanFrom start) nodes

/-- Moves past one of the two closing tags of an inline modifier if it is next. -/
def acceptInlineClose : Parse Bool := do
  if ← accept .inlineClose then return true
  accept .inlineCloseOther

mutual

def readBlock : Nat → Parse (List Node)
  | 0 => throw .outOfFuel
  | fuel + 1 => do
    fireInspectors
    if ← peek .blockOpen then
      let (m, _) ← readModifier fuel .block
      return [.modifier m]
    if ← peek .systemOpen then
      let (m, _) ← readModifier fuel .system
      return [.modifier m]
    if ← accept .groupOpen then
      modify fun reader => { reader with openGroups := reader.openGroups + 1 }
      endLine
      enter .blocks
      skipLines 1
      let nodes ← readGroup fuel []
      modify fun reader => { reader with openGroups := reader.openGroups - 1 }
      return nodes
    let start ← position
    let nodes ← readParagraph fuel []
    return [.paragraph (← spanFrom start) nodes]

/-- Reads the blocks of a group and its closing mark, behind the nodes read before, the
last one first. -/
def readGroup : Nat → List Node → Parse (List Node)
  | 0, _ => throw .outOfFuel
  | fuel + 1, before => do
    if ← isAtEnd then
      leave false
      emit [Problem.expectedAt (← position) Mark.groupClose.text]
      return before.reverse
    if ← accept .groupClose then
      leave true
      return before.reverse
    let nodes ← readBlock fuel
    skipLines 1
    readGroup fuel (nodes.reverse ++ before)

/-- Reads the content of a paragraph, behind the nodes read before, the last one first. -/
def readParagraph : Nat → List Node → Parse (List Node)
  | 0, _ => throw .outOfFuel
  | fuel + 1, before => do
    if ← isAtEnd then return before.reverse
    let (nodes, continues) ← readInline fuel before
    if continues then readParagraph fuel nodes else return nodes.reverse

/-- Reads a piece of a paragraph, behind the nodes read before, the last one first.  The
flag says that the paragraph goes on. -/
def readInline : Nat → List Node → Parse (List Node × Bool)
  | 0, _ => throw .outOfFuel
  | fuel + 1, before => do
    if ← peek .blockOpen then
      emit [Problem.blockInsideLine.message (.empty (← position))]
      return (before, false)
    if ← peek .inlineOpen then
      let (m, continues) ← readModifier fuel .inline
      return (.modifier m :: before, continues)
    if ← peek .systemOpen then return (before, false)
    let start ← position
    if ← accept .escape then return (← readEscaped start before, true)
    readCharacter before

/-- Reads the body of an inline modifier and its closing tag, behind the nodes read before,
the last one first.  A missing tag is reported.  The flag says that the paragraph around
the modifier goes on; it does not if it ends inside the body. -/
def readInlineBody : Nat → Definition → List Node → Parse (List Node × Bool)
  | 0, _, _ => throw .outOfFuel
  | fuel + 1, definition, before => do
    if ← acceptInlineClose then return (before.reverse, true)
    if ← isAtEnd then
      emit [(Problem.unclosedInline definition.name).message (.empty (← position))]
      return (before.reverse, true)
    let piece :=
      if definition.slot = .preformatted then readCharacter before else readInline fuel before
    let (nodes, continues) ← piece
    if continues then readInlineBody fuel definition nodes
    else
      emit [(Problem.unclosedInline definition.name).message (.empty (← position))]
      return (nodes.reverse, false)

/-- Reads the body of a modifier behind its head, if it has one.  The flag says that the
paragraph around the modifier goes on. -/
def readBody : Nat → ModifierKind → Head → Parse (List Node × Bool)
  | 0, _, _ => throw .outOfFuel
  | fuel + 1, kind, head => do
    let definition := head.modifier.definition
    if head.isWhole then return ([], true)
    if kind = .inline then readInlineBody fuel definition []
    else
      skipLines 1
      if ← isAtEnd then return ([], true)
      if definition.slot = .preformatted then return ([← readPreformatted], true)
      return (← readBlock fuel, true)

/-- Reads a modifier of a kind and expands it.  The flag says that the paragraph around it
goes on. -/
def readModifier : Nat → ModifierKind → Parse (Modifier × Bool)
  | 0, _ => throw .outOfFuel
  | fuel + 1, kind => do
    let head ← readHead kind
    let m := head.modifier
    let definition := m.definition
    let life := definition.behaviour.lifecycle
    let immediate ← expanding Expand.immediate
    let state ← expanding (Expand.reporting (life.beforeContent m immediate))
    expanding (Expand.enterBody definition.delaysContent)
    let (content, continues) ← readBody fuel kind head
    let span ← wholeSpan head
    expanding (Expand.leaveBody definition.delaysContent)
    let state ← expanding (Expand.inContext (life.afterContent state))
    let levels := (← get).engine.levels
    let (m, _) ← expanding (expandRead (process levels) { m with span := span, content := content }
      state)
    return (m, continues)

end

end Parse

end MacroMarkup
