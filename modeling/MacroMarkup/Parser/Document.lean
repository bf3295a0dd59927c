import MacroMarkup.Parser.Block

/-!
# Reading a document

* `Document`: the expanded tree, what was reported, and the context afterwards.
* `Context.read`: reads and expands a whole source, showing the context to inspectors
  on the way.  It never fails on a document; a fault would be one of the program.
* `Context.parse`: the same without inspectors.
-/

namespace MacroMarkup

structure Document where
  /-- The whole source. -/
  span : Span
  content : List Node
  /-- The messages in the order in which they were emitted. -/
  messages : List Message
  context : Context
  /-- What inspectors saw, in order. -/
  sightings : List Sighting
  /-- The inspectors whose position was reached and which saw nothing. -/
  overdue : List Inspector
  /-- How many lists of generated nodes were refused because they were nested too deep. -/
  refusals : Nat
  /-- How many of the refusals went unnoticed. -/
  losses : Nat
  /-- How many modifiers were replaced ahead of time by nodes in which something was left
  to expand. -/
  anticipations : Nat

namespace Parse

/-- Reads blocks up to the end of the source, behind those read before, the last one
first. -/
def readBlocks : Nat → List Node → Parse (List Node)
  | 0, _ => throw .outOfFuel
  | fuel + 1, before => do
    if ← isAtEnd then return before.reverse
    let nodes ← readBlock fuel
    skipSpacing
    readBlocks fuel (nodes.reverse ++ before)

/-- Reads a whole source, in which the constructs call each other no deeper than
`fuel`. -/
def readSource (fuel : Nat) : Parse (List Node) := do
  skipSpacing
  let content ← readBlocks fuel []
  fireInspectors
  return content

end Parse

/-- How deep the constructs of a source of this length can call each other. -/
def readingDepth (length : Nat) : Nat := 8 * length + 8

namespace Reader

def start (cx : Context) (source : String) (inspectors : List Inspector) : Reader :=
  ⟨.ofString source inspectors, .start cx, 0, [], [], ⟨[], []⟩⟩

def document (reader : Reader) (content : List Node) : Document where
  span := ⟨0, reader.cursor.position⟩
  content := content
  messages := reader.engine.messages
  context := reader.engine.context
  sightings := reader.sightings.reverse
  overdue := reader.cursor.takeInspectors.1
  refusals := reader.engine.refusals
  losses := reader.engine.losses
  anticipations := reader.engine.anticipations

end Reader

namespace Context

def read (cx : Context) (source : String) (inspectors : List Inspector) :
    Except Fault Document := do
  let reader := Reader.start cx source inspectors
  let (content, reader) ← Parse.readSource (readingDepth reader.cursor.rest.length) reader
  return reader.document content

/-- Reads and expands a source that nobody watches. -/
def parse (cx : Context) (source : String) : Except Fault Document := cx.read source []

theorem parse_eq_read (cx : Context) (source : String) : cx.parse source = cx.read source [] := rfl

theorem exists_readSource_of_read {cx : Context} {source : String} {inspectors : List Inspector}
    {d : Document} (h : cx.read source inspectors = .ok d) :
    ∃ content reader, Parse.readSource (readingDepth source.toList.length)
      (.start cx source inspectors) = .ok (content, reader) ∧ reader.document content = d := by
  simp only [read, bind, Except.bind] at h
  split at h
  · cases h
  · rename_i answer hanswer
    exact ⟨answer.1, answer.2, hanswer, Except.ok.inj h⟩

end Context

namespace Document

def hasErrors (d : Document) : Bool := d.messages.any (·.severity == .error)

def messagesOf (d : Document) (severity : Severity) : List Message :=
  d.messages.filter (·.severity == severity)

end Document

end MacroMarkup
