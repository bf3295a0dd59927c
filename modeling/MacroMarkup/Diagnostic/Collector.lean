import MacroMarkup.Diagnostic.MessageJson

/-!
# Collected messages

A `Collector` holds messages in the order in which they came.  It counts them by
severity and renders them as lines of text or of JSON.
-/

namespace MacroMarkup

structure Collector where
  messages : List Message

namespace Collector

def empty : Collector := ⟨[]⟩

def add (c : Collector) (message : Message) : Collector := ⟨c.messages ++ [message]⟩

def extend (c : Collector) (messages : List Message) : Collector := ⟨c.messages ++ messages⟩

/-- How many messages have exactly this severity. -/
def count (c : Collector) (severity : Severity) : Nat :=
  c.messages.countP (·.severity == severity)

def hasErrors (c : Collector) : Bool := c.messages.any (·.severity == .error)

def size (c : Collector) : Nat := c.messages.length

def highest? (c : Collector) : Option Severity :=
  Severity.max? (c.messages.map (·.severity))

def texts (c : Collector) : List String := c.messages.map (·.text)

def reports (c : Collector) (lines : Option LineIndex) : List Json :=
  c.messages.map (·.report lines)

theorem hasErrors_iff_count_pos (c : Collector) : c.hasErrors = true ↔ 0 < c.count .error := by
  simp [hasErrors, count, List.countP_pos_iff]

end Collector

end MacroMarkup
