import MacroMarkup.Json.Basic
import MacroMarkup.Source.Lines
import MacroMarkup.Source.Text

/-!
# Named sources

A `SourceFile` is a source with a name and, as long as it was not stored, an index of its
lines.  The index is not stored; without it the lines are found anew.

* `SourceFile.lines`: the index, kept or found anew; `lines_ofContent` says that it makes
  no difference.
* `SourceFile.toJson`, `SourceFile.ofJson?`: the stored form.
-/

namespace MacroMarkup

def LineIndex.toJson (index : LineIndex) : Json :=
  .obj [("line_breaks", .arr (index.breaks.map Json.nat)), ("total_length", .nat index.length)]

structure SourceFile where
  name : String
  content : String
  index? : Option LineIndex
deriving Repr

namespace SourceFile

def ofContent (name content : String) : SourceFile :=
  ⟨name, content, some (.ofString content)⟩

def lines (file : SourceFile) : LineIndex := file.index?.getD (.ofString file.content)

def locate (file : SourceFile) (offset : Nat) : Option Location := file.lines.locate offset

def text (file : SourceFile) (span : Span) : String :=
  Text.slice file.content span.start span.stop

def toJson (file : SourceFile) : Json :=
  .obj [("name", .str file.name), ("content", .str file.content)]

def ofJson? (value : Json) : Option SourceFile := do
  return ⟨← (← value.member? "name").string?, ← (← value.member? "content").string?, none⟩

theorem lines_ofContent (name content : String) :
    (ofContent name content).lines = (SourceFile.mk name content none).lines := rfl

end SourceFile

end MacroMarkup
