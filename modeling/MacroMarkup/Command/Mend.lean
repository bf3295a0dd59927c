import MacroMarkup.Command.Basic
import MacroMarkup.Repair

/-!
# The command that mends a source

It makes the first fix of the first diagnostic of a severity and code, perhaps only of
those that are reported at a place.  A diagnostic that was reported again at a modifier is
mended where it arose.

* `parsePlace`: a line and column as they are given on the command line.
* `offsetOfPlace`: the offset of a line and column that count from one.
* `mendSource`: the command.
-/

namespace MacroMarkup

inductive PlaceError where
  | noColon (text : String)
  | notPositive (part : String)
deriving DecidableEq, Repr

def PlaceError.message : PlaceError → String
  | .noColon text => "expected LINE:COL, got '" ++ text ++ "'"
  | .notPositive part => "'" ++ part ++ "' is not a positive number"

def trimSpace (cs : List Char) : List Char :=
  ((cs.dropWhile isWhiteSpace).reverse.dropWhile isWhiteSpace).reverse

def numberOfDigits? : List Char → Option Nat
  | [] => none
  | cs => cs.foldlM (fun n c => if c.isDigit then some (10 * n + (c.toNat - 48)) else none) 0

/-- A positive number of 64 bits, perhaps with a plus sign and white space around it. -/
def positive? (part : String) : Option Nat := do
  let digits := match trimSpace part.toList with
    | '+' :: rest => rest
    | cs => cs
  let n ← numberOfDigits? digits
  if 0 < n && n < offsetLimit then some n else none

/-- A line and column with a colon between them, both counted from one. -/
def parsePlace (text : String) : Except PlaceError (Nat × Nat) :=
  match splitAt? ':' text with
  | none => .error (.noColon text)
  | some (line, column) =>
    match positive? line, positive? column with
    | none, _ => .error (.notPositive line)
    | _, none => .error (.notPositive column)
    | some l, some c => .ok (l, c)

def offsetOfPlace (lines : LineIndex) (line column : Nat) : Except Fault (Option Nat) :=
  match line, column with
  | row + 1, c + 1 => lines.offsetAt row c
  | _, _ => .ok none

structure MendOptions where
  severity : Severity
  code : Nat
  /-- The line and column, counted from one, that the diagnostic must be reported at. -/
  place : Option (Nat × Nat)
  /-- The input file is overwritten. -/
  write : Bool

/-- The message is reported at the offset; both ends of its range count. -/
def Message.isReportedAt (message : Message) (offset : Nat) : Bool :=
  let span : Span := ⟨message.position, message.position + message.length⟩
  span.cover (.empty offset) == span

def mendSource (w : Workspace) (options : Options) (path : String) (what : MendOptions) :
    Command CommandResult := do
  if what.write && isStandardInput path then throw .noFileToWrite
  let (input, document) ← readDocument w options path
  let offset ← match what.place with
    | none => pure none
    | some (line, column) => do
      match ← Command.ofFault (offsetOfPlace (.ofString input.source) line column) with
      | some offset => pure (some offset)
      | none => throw (.placeOutside line column input.name)
  let isMeant (message : Message) : Bool :=
    message.severity == what.severity && message.code == what.code
      && (match offset with
        | some offset => message.isReportedAt offset
        | none => true)
  match document.messages.find? isMeant with
  | none => throw (.noDiagnostic what.severity what.code what.place input.name)
  | some message =>
    match message.firstFix? with
    | none => throw (.noFix what.severity what.code message.origin.position)
    | some fix =>
      let (source, _) ← Command.ofFault (fix.apply input.source (offset.getD 0))
      if !what.write then return .printed source
      if !w.isWritable path then throw (.unwritable path)
      return ⟨"", false, some source⟩

theorem parsePlace_of_noColon {text : String} (h : splitAt? ':' text = none) :
    parsePlace text = .error (.noColon text) := by
  simp [parsePlace, h]

end MacroMarkup
