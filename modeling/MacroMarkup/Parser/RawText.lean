import MacroMarkup.Source.Cursor

/-!
# Raw text

A preformatted body is read without looking for modifiers.  It ends at a blank line,
or, if it is a group, at a closing mark that only blanks precede on its line.  The line
break before its end, with the blanks behind it, does not belong to it.

* `RawText.scan`: reads characters one by one.
* `RawText.scan_plain`: a character that is no line break belongs to the text.
-/

namespace MacroMarkup

/-- What was read of a preformatted body. -/
structure RawText where
  text : String
  /-- How many characters were read up to the end of the text. -/
  contentLength : Nat
  /-- How many characters were read. -/
  length : Nat
  /-- The source ended behind a line break of a group that is still open. -/
  unclosed : Bool
deriving DecidableEq, Repr

namespace RawText

/-- More was read than the text, and not because the source ended: a mark or a blank line
closed it. -/
def closed (raw : RawText) : Bool := raw.contentLength < raw.length && !raw.unclosed

/-- Reads on behind `text`, for which `count` characters were read.  `gap` is a line break
with blanks behind it, of which it is not known yet whether it belongs to the text. -/
def scan (grouped : Bool) (text : String) (count : Nat) (gap : Option String) :
    List Char → RawText
  | [] =>
    match gap with
    | none => ⟨text, count, count, false⟩
    | some white => ⟨text, count, count + white.toList.length, grouped⟩
  | c :: rest =>
    match gap with
    | none =>
      if c = '\n' then scan grouped text count (some "\n") rest
      else scan grouped (text.push c) (count + 1) none rest
    | some white =>
      let read := count + white.toList.length
      if isBlank c then scan grouped text count (some (white.push c)) rest
      else if grouped && ['-', '-', ':'].isPrefixOf (c :: rest) then
        ⟨text, count, read + 3, false⟩
      else if !grouped && c = '\n' then ⟨text, count, read + 1, false⟩
      else if c = '\n' then scan grouped (text ++ white) read (some "\n") rest
      else scan grouped ((text ++ white).push c) (read + 1) none rest

def ofChars (grouped : Bool) (cs : List Char) : RawText := scan grouped "" 0 none cs

theorem scan_plain {grouped : Bool} {text : String} {count : Nat} {c : Char} {rest : List Char}
    (h : c ≠ '\n') :
    scan grouped text count none (c :: rest)
      = scan grouped (text.push c) (count + 1) none rest := by
  simp [scan, h]

end RawText

end MacroMarkup
