/-!
# Faults

A document is never rejected: whatever is wrong with it becomes a diagnostic.
A `Fault` is different.  It names a broken promise of the program itself, such
as a stack that was not left as it was found, and it stops the run.  Every
function that can meet one returns `Except Fault`.
-/

namespace MacroMarkup

/-- The promises of the engine that a run can find broken. -/
inductive Fault where
  /-- A span would end before it starts. -/
  | reversedSpan
  /-- An empty text was looked for in the source. -/
  | emptyLiteral
  /-- An offset does not fit 64 bits. -/
  | offsetOverflow
  /-- A store slot was used before it was set up. -/
  | missingSlot
  /-- A store slot was set up a second time. -/
  | repeatedSlot
  /-- A definition was left, but none was being read. -/
  | delayedUnderflow
  /-- A definition was left, but the innermost one being read is another one. -/
  | delayedMismatch
  /-- An invocation was left, but none was being processed. -/
  | frameUnderflow
  /-- An invocation was left, but the innermost one is another one. -/
  | frameMismatch
  /-- A slot points past the live invocations. -/
  | missingFrame
  /-- The live invocations changed while the content of a slot was processed. -/
  | framesChanged
  /-- A replacement was left, but none was being processed. -/
  | referringUnderflow
  /-- A bounded recursion was started with too small a bound. -/
  | outOfFuel
deriving DecidableEq, Repr

end MacroMarkup
