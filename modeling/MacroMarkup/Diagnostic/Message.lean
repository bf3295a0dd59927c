import MacroMarkup.Diagnostic.Catalog
import MacroMarkup.Diagnostic.Fix
import MacroMarkup.Source.Lines

/-!
# Diagnostic messages

A `Message` is a coded remark about a range of the source.  A message that
arises while the replacement of a modifier is processed is reported again at
that modifier, and the new message keeps the one it repeats in `referredFrom`.

* `Message.referred`: reports a message again.
* `Message.origin`: the message that started the chain; `origin_referred` says
  that reporting again does not change it.
* `Message.text`: a line for a reader.
-/

namespace MacroMarkup

structure Message where
  severity : Severity
  position : Nat
  length : Nat
  code : Nat
  info : String
  fixes : List Fix
  referredFrom : Option Message

namespace Message

def ofSpan (severity : Severity) (code : Nat) (span : Span) (info : String)
    (fixes : List Fix) : Message where
  severity := severity
  position := span.start
  length := span.length
  code := code
  info := info
  fixes := fixes
  referredFrom := none

def withFix (message : Message) (fix : Fix) : Message :=
  { message with fixes := message.fixes ++ [fix] }

/-- The message reported again at another span, without its fixes: they edit the
place where it arose. -/
def referred (message : Message) (span : Span) : Message where
  severity := message.severity
  position := span.start
  length := span.length
  code := message.code
  info := message.info
  fixes := []
  referredFrom := some message

def span (message : Message) : Except Fault Span := do
  let stop ← addOffsets message.position message.length
  Span.checked message.position stop

def origin : Message → Message
  | ⟨severity, position, length, code, info, fixes, none⟩ =>
    ⟨severity, position, length, code, info, fixes, none⟩
  | ⟨_, _, _, _, _, _, some inner⟩ => inner.origin

def title (message : Message) : String := Catalog.title message.severity message.code

/-- One line with the severity, code, range and text. -/
def text (message : Message) : String :=
  s!"{message.severity.displayName}[{message.code}] at {message.position}+{message.length}: "
    ++ message.info

/-- The places of a chain that a message repeats, outermost first. -/
def trail : Message → List Message
  | ⟨_, _, _, _, _, _, none⟩ => []
  | ⟨_, _, _, _, _, _, some inner⟩ => inner :: inner.trail

/-- The row and column of an offset, counted from one, or the offset itself if it
lies past the end. -/
def place (lines : LineIndex) (offset : Nat) : String :=
  match lines.locate offset with
  | some location => s!"l{location.row + 1}c{location.column + 1}"
  | none => s!"@{offset}"

/-- The message with its place in lines and columns, and a line for each message
that it repeats. -/
def located (message : Message) (lines : LineIndex) : String :=
  let head := s!"at {place lines message.position}, len {message.length}: "
    ++ s!"{message.severity.displayName}[{message.code}]: " ++ message.info
  message.trail.foldl (fun text inner =>
    text ++ s!"\n---> original at: {place lines inner.position}, len {inner.length}") head

theorem origin_referred (message : Message) (span : Span) :
    (message.referred span).origin = message.origin := by
  rw [referred, origin]

end Message

end MacroMarkup
