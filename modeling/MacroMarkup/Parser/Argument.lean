import MacroMarkup.Parser.Reader

/-!
# Reading arguments

Arguments are separated by colons and end with the head of their modifier.  Inside an
argument a backslash takes the next character as it is, and an interpolator opens an
argument of its own, up to its closing mark.

* `readEntities`: the parts of an argument.  The bound on its steps is never met when
  it exceeds what is left to read, as each step moves on.
* `readEntities_succ`: the same with a function for each kind of part.
* `readArguments`: all arguments of a head.
* `appendEntityText`: text is joined with text right before it.
-/

namespace MacroMarkup

/-- Puts text behind the parts of an argument, the last of which comes first. -/
def appendEntityText (text : String) (span : Span) : List Entity → List Entity
  | .text before content :: rest => .text ⟨before.start, span.stop⟩ (content ++ text) :: rest
  | entities => .text span text :: entities

structure ArgumentText where
  content : List Entity
  /-- Where the last part ends. -/
  stop : Nat
  /-- Another argument follows, or, in an interpolation, the closing mark was found. -/
  continues : Bool

namespace Parse

def findInterpolator? : Parse (Option Interpolator) := do
  (← configuration).interpolators.findLongestM? peekName

/-- Moves past the closing mark of an interpolation, if it is in one and there. -/
def acceptClosing (closing : Option String) : Parse Bool :=
  match closing with
  | some mark => acceptName mark
  | none => return false

/-- Reads the parts of an argument up to a colon, the end of the head, or, in an
interpolation, its closing mark.  `parts` are those read before, the last one first. -/
def readEntities : Nat → Option String → List Entity → Nat → Parse ArgumentText
  | 0, _, _, _ => throw .outOfFuel
  | fuel + 1, closing, parts, stop => do
    let done (parts : List Entity) (stop : Nat) (continues : Bool) : ArgumentText :=
      ⟨parts.reverse, stop, continues⟩
    if ← acceptClosing closing then return done parts stop true
    if ← accept .separator then return done parts stop closing.isNone
    if (← peek .headEnd) || (← peek .headClose) || (← isAtEnd) then return done parts stop false
    let start ← position
    if ← accept .escape then
      match ← takeChar? with
      | some c =>
        let span ← spanFrom start
        readEntities fuel closing (.escaped span c.toString :: parts) span.stop
      | none =>
        let span ← spanFrom start
        return done (appendEntityText Mark.escape.text span parts) span.stop false
    else
      match ← findInterpolator? with
      | some interpolator =>
        let _ ← acceptName interpolator.name
        let innerStart ← position
        enter (.interpolation interpolator.closing)
        let inner ← readEntities fuel (some interpolator.closing) [] innerStart
        leave inner.continues
        let innerSpan ← Span.checked innerStart inner.stop
        let span ← spanFrom start
        let part : Entity :=
          .interpolation span interpolator ⟨innerSpan, inner.content, none⟩ none
        if inner.continues then
          readEntities fuel closing (part :: parts) span.stop
        else
          emit [Problem.expectedAt span.stop interpolator.closing]
          return done (part :: parts) span.stop false
      | none =>
        match ← takeChar? with
        | some c =>
          let span ← spanFrom start
          readEntities fuel closing (appendEntityText c.toString span parts) span.stop
        | none => return done parts stop false

/-! ### One part and those behind it

The loop with a function for each kind of part. -/

section Parts

variable (fuel : Nat) (closing : Option String) (parts : List Entity) (start : Nat)

/-- Behind a backslash at `start`. -/
def readEscapedPart : Parse ArgumentText := do
  match ← takeChar? with
  | some c =>
    let span ← spanFrom start
    readEntities fuel closing (.escaped span c.toString :: parts) span.stop
  | none =>
    let span ← spanFrom start
    return ⟨(appendEntityText Mark.escape.text span parts).reverse, span.stop, false⟩

/-- At the opening mark of an interpolation. -/
def readInterpolationPart (interpolator : Interpolator) : Parse ArgumentText := do
  let _ ← acceptName interpolator.name
  let innerStart ← position
  enter (.interpolation interpolator.closing)
  let inner ← readEntities fuel (some interpolator.closing) [] innerStart
  leave inner.continues
  let innerSpan ← Span.checked innerStart inner.stop
  let span ← spanFrom start
  let part : Entity := .interpolation span interpolator ⟨innerSpan, inner.content, none⟩ none
  if inner.continues then
    readEntities fuel closing (part :: parts) span.stop
  else
    emit [Problem.expectedAt span.stop interpolator.closing]
    return ⟨(part :: parts).reverse, span.stop, false⟩

/-- At a character that is text. -/
def readTextPart (stop : Nat) : Parse ArgumentText := do
  match ← takeChar? with
  | some c =>
    let span ← spanFrom start
    readEntities fuel closing (appendEntityText c.toString span parts) span.stop
  | none => return ⟨parts.reverse, stop, false⟩

theorem readEntities_succ (stop : Nat) : readEntities (fuel + 1) closing parts stop = (do
    if ← acceptClosing closing then return ⟨parts.reverse, stop, true⟩
    if ← accept .separator then return ⟨parts.reverse, stop, closing.isNone⟩
    if (← peek .headEnd) || (← peek .headClose) || (← isAtEnd) then
      return ⟨parts.reverse, stop, false⟩
    let start ← position
    if ← accept .escape then readEscapedPart fuel closing parts start
    else
      match ← findInterpolator? with
      | some interpolator => readInterpolationPart fuel closing parts start interpolator
      | none => readTextPart fuel closing parts start stop) := rfl

end Parts

/-- Reads an argument of a head; the flag says that another one follows. -/
def readArgument : Parse (Argument × Bool) := do
  let start ← position
  let fuel := (← get).cursor.rest.length + 1
  let text ← readEntities fuel none [] start
  return (⟨← Span.checked start text.stop, text.content, none⟩, text.continues)

/-- Reads arguments up to the last one of a head, behind those read before, the last one
first.  Nothing at all is no argument unless `leadingSeparator` announced one. -/
def readArgumentList (leadingSeparator : Bool) : Nat → List Argument → Parse (List Argument)
  | 0, _ => throw .outOfFuel
  | fuel + 1, before => do
    let (argument, continues) ← readArgument
    if continues then readArgumentList leadingSeparator fuel (argument :: before)
    else if before.isEmpty && argument.content.isEmpty && !leadingSeparator then return []
    else return (argument :: before).reverse

/-- Reads all arguments of a head.  A leading colon makes the first argument start right
behind it; otherwise blanks and line breaks before it do not count. -/
def readArguments : Parse (List Argument) := do
  let leadingSeparator ← accept .separator
  if !leadingSeparator then skipSpacing
  let fuel := (← get).cursor.rest.length + 1
  readArgumentList leadingSeparator fuel []

end Parse

end MacroMarkup
