import Mathlib.Data.Prod.Lex
import Mathlib.Order.Monotone.Basic
import MacroMarkup.Source.File

/-!
# Rows and columns

The lines of a text are what stands between its line breaks.  An offset and a place in a line are
two names of one position: the offset counts the characters of the lines above, a line break behind
each, and of the line before the place.

* `Text.lines`, `Text.lineStart`: the lines of a text, and where each starts.
* `Text.Places`: the offset of a place; `exists_places` says that each offset has one,
  `Places.le_iff` that both are in the same order.
* `Text.exists_parts_of_line`: a line with what stands above and behind it, by induction on its row.
* `LineIndex.lineStart?_ofString`, `LineIndex.lineEnd_ofString`: the index knows the lines.
* `LineIndex.rowOf_of_search`: the row is where a search for the offset among the line breaks ends.
* `LineIndex.locate_eq_some_iff`, `LineIndex.offsetAt_answers`: the two directions.
* `offsets_match_places`: **offsets and places correspond to each other.**
-/

namespace MacroMarkup

namespace Text

/-- The lines of a text, without their line breaks. -/
def lines (text : List Char) : List (List Char) := text.splitOn '\n'

/-- Where the line `row` starts: behind the lines above and their line breaks. -/
def lineStart (text : List Char) (row : Nat) : Nat :=
  (((lines text).take row).flatMap fun line => line ++ ['\n']).length

/-- The text has a line `row`, which has the column; the place behind its last character counts. -/
def HasPlace (text : List Char) (row column : Nat) : Prop :=
  ∃ line, (lines text)[row]? = some line ∧ column ≤ line.length

/-- The place is `offset` characters behind the start of the text. -/
def Places (text : List Char) (offset row column : Nat) : Prop :=
  HasPlace text row column ∧ offset = lineStart text row + column

variable {text line above rest : List Char} {offset row column : Nat}

theorem lines_of_not_mem (h : '\n' ∉ text) : lines text = [text] := List.splitOn_eq_singleton h

theorem lines_append (h : '\n' ∉ line) (rest : List Char) :
    lines (line ++ '\n' :: rest) = line :: lines rest :=
  List.splitOn_append_cons_self_of_not_mem h rest

/-- A text is one line, or it is a line, a line break and another text. -/
theorem eq_line_or_append (text : List Char) :
    '\n' ∉ text ∨ ∃ line rest, text = line ++ '\n' :: rest ∧ '\n' ∉ line := by
  by_cases h : '\n' ∈ text
  · exact .inr (List.eq_append_cons_of_mem h)
  · exact .inl h

theorem length_lines (text : List Char) : (lines text).length = text.count '\n' + 1 := by
  induction text with
  | nil => rfl
  | cons c text ih =>
    rw [lines] at ih
    rw [lines, List.splitOn_cons_eq_if_modifyHead]
    by_cases h : c = '\n'
    · simp [h, ih]
    · simp [h, ih]

theorem exists_first_line (text : List Char) : ∃ line, (lines text)[0]? = some line := by
  have hfirst : 0 < (lines text).length := by
    rw [length_lines]
    exact Nat.succ_pos _
  exact ⟨_, List.getElem?_eq_getElem hfirst⟩

theorem lineStart_succ (h : (lines text)[row]? = some line) :
    lineStart text (row + 1) = lineStart text row + (line.length + 1) := by
  obtain ⟨hrow, rfl⟩ := List.getElem?_eq_some_iff.mp h
  rw [lineStart, List.take_succ_eq_append_getElem hrow, List.flatMap_append, List.length_append,
    List.flatMap_singleton, List.length_append]
  rfl

theorem lineStart_append (h : '\n' ∉ line) (rest : List Char) (row : Nat) :
    lineStart (line ++ '\n' :: rest) (row + 1) = line.length + 1 + lineStart rest row := by
  rw [lineStart, lines_append h, List.take_succ_cons, List.flatMap_cons, List.length_append,
    List.length_append, lineStart]
  rfl

/-- **A line with what stands above and behind it.**  Above it are as many line breaks as its row
says; behind it stands a line break if there is another line, and else nothing. -/
theorem exists_parts_of_line (row : Nat) : ∀ {text line : List Char},
    (lines text)[row]? = some line → ∃ above behind, text = above ++ (line ++ behind) ∧
      above.length = lineStart text row ∧ above.count '\n' = row ∧ '\n' ∉ line ∧
      ((lines text)[row + 1]? = none ∧ behind = [] ∨
        (∃ next, (lines text)[row + 1]? = some next) ∧ ∃ rest, behind = '\n' :: rest) := by
  induction row with
  | zero =>
    intro text line h
    rcases eq_line_or_append text with hone | ⟨first, rest, rfl, hfirst⟩
    · rw [lines_of_not_mem hone] at h ⊢
      obtain rfl : text = line := Option.some.inj h
      exact ⟨[], [], by simp, rfl, rfl, hone, .inl ⟨rfl, rfl⟩⟩
    · rw [lines_append hfirst] at h ⊢
      obtain rfl : first = line := Option.some.inj h
      exact ⟨[], '\n' :: rest, rfl, rfl, rfl, hfirst, .inr ⟨exists_first_line rest, rest, rfl⟩⟩
  | succ row ih =>
    intro text line h
    rcases eq_line_or_append text with hone | ⟨first, rest, rfl, hfirst⟩
    · rw [lines_of_not_mem hone] at h
      cases h
    · rw [lines_append hfirst] at h
      obtain ⟨above, behind, rfl, hlength, hcount, hline, hbehind⟩ := ih h
      refine ⟨first ++ '\n' :: above, behind, by simp, ?_, ?_, hline, ?_⟩
      · rw [lineStart_append hfirst, List.length_append, List.length_cons, hlength]
        omega
      · rw [List.count_append, List.count_eq_zero_of_not_mem hfirst, List.count_cons_self, hcount,
          Nat.zero_add]
      · rwa [lines_append hfirst]

/-! ### Places -/

/-- A place in the first of several lines, or in one behind it. -/
theorem exists_places_append (h : '\n' ∉ line)
    (hrest : ∀ offset ≤ rest.length, ∃ row column, Places rest offset row column)
    (hoffset : offset ≤ (line ++ '\n' :: rest).length) :
    ∃ row column, Places (line ++ '\n' :: rest) offset row column := by
  rcases Nat.lt_or_ge line.length offset with hbehind | hinside
  · obtain ⟨row, column, ⟨other, hother, hcolumn⟩, hplaces⟩ :=
      hrest (offset - (line.length + 1)) (by
        simp only [List.length_append, List.length_cons] at hoffset
        omega)
    refine ⟨row + 1, column, ⟨other, ?_, hcolumn⟩, ?_⟩
    · rw [lines_append h]
      exact hother
    · rw [lineStart_append h]
      omega
  · refine ⟨0, offset, ⟨line, ?_, hinside⟩, (Nat.zero_add offset).symm⟩
    rw [lines_append h]
    rfl

/-- **Each offset has a place.** -/
theorem exists_places (text : List Char) : ∀ {offset : Nat}, offset ≤ text.length →
    ∃ row column, Places text offset row column := by
  induction hn : text.length using Nat.strong_induction_on generalizing text with
  | _ n ih =>
    intro offset hoffset
    subst hn
    rcases eq_line_or_append text with hone | ⟨line, rest, rfl, hline⟩
    · refine ⟨0, offset, ⟨text, ?_, hoffset⟩, (Nat.zero_add offset).symm⟩
      rw [lines_of_not_mem hone]
      rfl
    · have hshorter : rest.length < (line ++ '\n' :: rest).length := by
        simp only [List.length_append, List.length_cons]
        omega
      exact exists_places_append hline (fun _ hle => ih _ hshorter rest rfl hle) hoffset

theorem lineStart_mono (text : List Char) : Monotone (lineStart text) := by
  refine monotone_nat_of_le_succ fun row => ?_
  cases h : (lines text)[row]? with
  | some line =>
    rw [lineStart_succ h]
    exact Nat.le_add_right _ _
  | none =>
    have hend : (lines text).length ≤ row := List.getElem?_eq_none_iff.mp h
    rw [lineStart, lineStart, List.take_of_length_le hend,
      List.take_of_length_le (Nat.le_succ_of_le hend)]

theorem Places.lt_of_row {offset' row' column' : Nat} (h : Places text offset row column)
    (h' : Places text offset' row' column') (hrow : row < row') : offset < offset' := by
  obtain ⟨⟨line, hline, hcolumn⟩, rfl⟩ := h
  obtain ⟨-, rfl⟩ := h'
  have hnext := lineStart_mono text (Nat.succ_le_of_lt hrow)
  rw [lineStart_succ hline] at hnext
  omega

/-- **Offsets are in the order of their places**, line by line. -/
theorem Places.le_iff {offset' row' column' : Nat} (h : Places text offset row column)
    (h' : Places text offset' row' column') :
    offset ≤ offset' ↔ toLex (row, column) ≤ toLex (row', column') := by
  rw [Prod.Lex.toLex_le_toLex]
  rcases Nat.lt_trichotomy row row' with hrow | rfl | hrow
  · simp [hrow, Nat.le_of_lt (h.lt_of_row h' hrow)]
  · rw [h.2, h'.2]
    simp
  · have hoffset := h'.lt_of_row h hrow
    constructor
    · omega
    · rintro (hlt | ⟨heq, -⟩)
      · exact absurd hlt (Nat.lt_asymm hrow)
      · exact absurd heq.symm (Nat.ne_of_lt hrow)

theorem Places.exists_parts (h : Places text offset row column) : ∃ above line behind,
    text = above ++ (line ++ behind) ∧ above.length = lineStart text row ∧
    above.count '\n' = row ∧ '\n' ∉ line ∧ column ≤ line.length := by
  obtain ⟨⟨line, hline, hcolumn⟩, -⟩ := h
  obtain ⟨above, behind, htext, hlength, hcount, hnone, -⟩ := exists_parts_of_line row hline
  exact ⟨above, line, behind, htext, hlength, hcount, hnone, hcolumn⟩

theorem Places.le_length (h : Places text offset row column) : offset ≤ text.length := by
  obtain ⟨above, line, behind, htext, hlength, -, -, hcolumn⟩ := h.exists_parts
  rw [h.2, ← hlength, htext, List.length_append, List.length_append]
  omega

/-- The row is the number of line breaks before the offset. -/
theorem Places.count_take (h : Places text offset row column) :
    (text.take offset).count '\n' = row := by
  obtain ⟨above, line, behind, htext, hlength, hcount, hnone, hcolumn⟩ := h.exists_parts
  have htake : text.take offset = above ++ line.take column := by
    rw [h.2, ← hlength, htext, List.take_length_add_append, List.take_append_of_le_length hcolumn]
  have hline : '\n' ∉ line.take column := fun hmem => hnone (List.mem_of_mem_take hmem)
  rw [htake, List.count_append, hcount, List.count_eq_zero_of_not_mem hline, Nat.add_zero]

end Text

/-! ### The index of a text -/

namespace LineIndex

variable {source : String} {offset row column : Nat} {line : List Char}

theorem breaksFrom_append (base : Nat) (a b : List Char) :
    breaksFrom base (a ++ b) = breaksFrom base a ++ breaksFrom (base + a.length) b := by
  induction a generalizing base with
  | nil => rfl
  | cons c a ih =>
    have hbase : base + (a.length + 1) = base + 1 + a.length := by omega
    by_cases h : c = '\n'
    · simp [breaksFrom, h, ih, hbase]
    · simp [breaksFrom, h, ih, hbase]

theorem mem_breaksFrom {base b : Nat} {cs : List Char} (h : b ∈ breaksFrom base cs) :
    base ≤ b ∧ b < base + cs.length := by
  induction cs generalizing base with
  | nil => cases h
  | cons c cs ih =>
    rw [List.length_cons]
    unfold breaksFrom at h
    split at h
    · rcases List.mem_cons.mp h with rfl | h
      · omega
      · have hrest := ih h
        omega
    · have hrest := ih h
      omega

/-- The line breaks of a text that is cut at a place, where the second part starts at `stop`. -/
theorem breaks_of_parts {above line behind : List Char} {stop : Nat}
    (hsource : source.toList = above ++ (line ++ behind)) (hline : '\n' ∉ line)
    (hstop : above.length + line.length = stop) :
    (ofString source).breaks = breaksFrom 0 above ++ breaksFrom stop behind := by
  have hnone : breaksFrom above.length line = [] := by
    rw [List.eq_nil_iff_length_eq_zero, length_breaksFrom, List.count_eq_zero_of_not_mem hline]
  rw [ofString, hsource, breaksFrom_append, breaksFrom_append, Nat.zero_add, hnone, hstop,
    List.nil_append]

/-- **The line break that ends a line**, if it is not the last one. -/
theorem getElem?_breaks (h : (Text.lines source.toList)[row]? = some line) :
    (ofString source).breaks[row]? = ((Text.lines source.toList)[row + 1]?).map
      fun _ => Text.lineStart source.toList row + line.length := by
  obtain ⟨above, behind, hsource, hlength, hcount, hline, hbehind⟩ :=
    Text.exists_parts_of_line row h
  have hrow : (breaksFrom 0 above).length = row := (length_breaksFrom 0 above).trans hcount
  have hbreaks := breaks_of_parts hsource hline rfl
  rw [hbreaks, List.getElem?_append_right (Nat.le_of_eq hrow), hrow, Nat.sub_self, hlength]
  rcases hbehind with ⟨hlast, rfl⟩ | ⟨⟨next, hnext⟩, rest, rfl⟩
  · rw [hlast]
    rfl
  · rw [hnext]
    rfl

/-- **The index knows where lines start.** -/
theorem lineStart?_ofString (source : String) (row : Nat) :
    (ofString source).lineStart? row
      = ((Text.lines source.toList)[row]?).map fun _ => Text.lineStart source.toList row := by
  cases row with
  | zero =>
    obtain ⟨line, hline⟩ := Text.exists_first_line source.toList
    rw [hline]
    rfl
  | succ row =>
    rw [lineStart?]
    cases hrow : (Text.lines source.toList)[row]? with
    | some line =>
      rw [getElem?_breaks hrow, Option.map_map, Text.lineStart_succ hrow]
      rfl
    | none =>
      have hend : (Text.lines source.toList).length ≤ row := List.getElem?_eq_none_iff.mp hrow
      have hbreaks : (ofString source).breaks.length ≤ row := by
        rw [Text.length_lines] at hend
        rw [ofString, length_breaksFrom]
        omega
      rw [List.getElem?_eq_none hbreaks, List.getElem?_eq_none (Nat.le_succ_of_le hend)]
      rfl

/-- **The index knows where lines end.** -/
theorem lineEnd_ofString (h : (Text.lines source.toList)[row]? = some line) :
    (ofString source).lineEnd row = Text.lineStart source.toList row + line.length := by
  obtain ⟨above, behind, hsource, hlength, -, -, hbehind⟩ := Text.exists_parts_of_line row h
  rw [lineEnd, getElem?_breaks h]
  rcases hbehind with ⟨hlast, rfl⟩ | ⟨⟨next, hnext⟩, -⟩
  · rw [hlast]
    show source.toList.length = _
    rw [← hlength, ← List.length_append, ← List.append_nil line, ← hsource]
  · rw [hnext]
    rfl

/-- The row of an offset is **where a search for it among the line breaks ends**: those before are
lower, and the others are not. -/
theorem rowOf_of_search {index : LineIndex} (hrow : row ≤ index.breaks.length)
    (hbefore : ∀ b ∈ index.breaks.take row, b < offset)
    (hbehind : ∀ b ∈ index.breaks.drop row, offset ≤ b) : index.rowOf offset = row := by
  have htake : (index.breaks.take row).countP (· < offset) = row := by
    rw [List.countP_eq_length.mpr (by simpa using hbefore), List.length_take, Nat.min_eq_left hrow]
  have hdrop : (index.breaks.drop row).countP (· < offset) = 0 :=
    List.countP_eq_zero.mpr (by simpa using hbehind)
  rw [rowOf, ← List.take_append_drop row index.breaks, List.countP_append, htake, hdrop,
    Nat.add_zero]

theorem rowOf_of_places (h : Text.Places source.toList offset row column) :
    (ofString source).rowOf offset = row := by
  obtain ⟨above, line, behind, hsource, hlength, hcount, hline, hcolumn⟩ := h.exists_parts
  have hbreaks := breaks_of_parts hsource hline rfl
  have hrow : (breaksFrom 0 above).length = row := (length_breaksFrom 0 above).trans hcount
  have hoffset : offset = above.length + column := by rw [h.2, hlength]
  apply rowOf_of_search
  · rw [hbreaks, List.length_append, hrow]
    exact Nat.le_add_right _ _
  · rw [hbreaks, ← hrow, List.take_left]
    intro b hb
    have hbound := mem_breaksFrom hb
    omega
  · rw [hbreaks, ← hrow, List.drop_left]
    intro b hb
    have hbound := mem_breaksFrom hb
    omega

/-- **An offset is located at its place.** -/
theorem locate_of_places (h : Text.Places source.toList offset row column) :
    (ofString source).locate offset = some ⟨offset, row, column⟩ := by
  have hlength : ¬ (ofString source).length < offset := Nat.not_lt.mpr h.le_length
  have hrow : (ofString source).rowOf offset = row := rowOf_of_places h
  obtain ⟨⟨line, hline, -⟩, hoffset⟩ := h
  have hcolumn : offset - Text.lineStart source.toList row = column := by
    rw [hoffset, Nat.add_sub_cancel_left]
  simp only [locate, if_neg hlength, hrow, lineStart?_ofString, hline, Option.map_some,
    Option.getD_some, hcolumn]

theorem locate_eq_some_iff {location : Location} :
    (ofString source).locate offset = some location ↔
      location.offset = offset ∧
        Text.Places source.toList offset location.row location.column := by
  constructor
  · intro h
    have hle : offset ≤ source.toList.length := by
      refine Nat.le_of_not_lt fun hlt => ?_
      rw [locate_eq_none_iff.mpr hlt] at h
      cases h
    obtain ⟨row, column, hplaces⟩ := Text.exists_places source.toList hle
    rw [locate_of_places hplaces] at h
    cases h
    exact ⟨rfl, hplaces⟩
  · rintro ⟨rfl, hplaces⟩
    exact locate_of_places hplaces

/-- **A place that the text has** is found, unless its offset does not fit 64 bits. -/
theorem offsetAt_of_hasPlace (h : Text.HasPlace source.toList row column)
    (hfits : Text.lineStart source.toList row + column < offsetLimit) :
    (ofString source).offsetAt row column
      = .ok (some (Text.lineStart source.toList row + column)) := by
  obtain ⟨line, hline, hcolumn⟩ := h
  have hend : Text.lineStart source.toList row + column ≤ (ofString source).lineEnd row := by
    rw [lineEnd_ofString hline]
    exact Nat.add_le_add_left hcolumn _
  rw [offsetAt, lineStart?_ofString, hline, Option.map_some]
  show (addOffsets _ _ >>= fun offset => _) = _
  rw [addOffsets, if_pos hfits]
  exact congrArg Except.ok (if_pos hend)

/-- **A place that the text does not have** is not found. -/
theorem offsetAt_of_not_hasPlace (h : ¬ Text.HasPlace source.toList row column)
    (hfits : row < (Text.lines source.toList).length →
      Text.lineStart source.toList row + column < offsetLimit) :
    (ofString source).offsetAt row column = .ok none := by
  rw [offsetAt, lineStart?_ofString]
  cases hrow : (Text.lines source.toList)[row]? with
  | none => rfl
  | some line =>
    have hcolumn : ¬ column ≤ line.length := fun hle => h ⟨line, hrow, hle⟩
    have hend : ¬ Text.lineStart source.toList row + column ≤ (ofString source).lineEnd row := by
      rw [lineEnd_ofString hrow]
      omega
    rw [Option.map_some]
    show (addOffsets _ _ >>= fun offset => _) = _
    rw [addOffsets, if_pos (hfits (List.getElem?_eq_some_iff.mp hrow).1)]
    exact congrArg Except.ok (if_neg hend)

/-- **The offset of a place**, where its sum fits 64 bits: there is one just if the text has the
place, and it is located there. -/
theorem offsetAt_answers (hfits : row < (Text.lines source.toList).length →
      Text.lineStart source.toList row + column < offsetLimit) :
    ∃ answer, (ofString source).offsetAt row column = .ok answer ∧
      (answer.isSome ↔ Text.HasPlace source.toList row column) ∧
      ∀ offset, answer = some offset →
        (ofString source).locate offset = some ⟨offset, row, column⟩ := by
  by_cases hhas : Text.HasPlace source.toList row column
  · have hrow : row < (Text.lines source.toList).length := by
      obtain ⟨line, hline, -⟩ := hhas
      exact (List.getElem?_eq_some_iff.mp hline).1
    refine ⟨_, offsetAt_of_hasPlace hhas (hfits hrow), iff_of_true rfl hhas, ?_⟩
    rintro _ ⟨rfl⟩
    exact locate_of_places ⟨hhas, rfl⟩
  · exact ⟨none, offsetAt_of_not_hasPlace hhas hfits, iff_of_false nofun hhas, nofun⟩

end LineIndex

/-- A source that is read back has the same name and content, and no index. -/
theorem SourceFile.ofJson?_toJson (file : SourceFile) :
    ofJson? file.toJson = some ⟨file.name, file.content, none⟩ := rfl

/-- **Offsets and places correspond to each other.**  An offset is located if it does not lie past
the end.  Its row is the number of line breaks before it, its column is the distance from the start
of that line, and the place leads back to the offset.  Where the offset of a place fits 64 bits, it
is found if and only if the line is there and has the column, and it is located at that place.
Offsets have the order of their places, and a source that was stored and read back gives the same
answers. -/
theorem offsets_match_places (source : String) :
    let index := LineIndex.ofString source
    (∀ offset, (index.locate offset).isSome ↔ offset ≤ source.toList.length) ∧
    (∀ offset location, index.locate offset = some location →
      location.offset = offset ∧ location.row = (source.toList.take offset).count '\n' ∧
      Text.lineStart source.toList location.row ≤ offset ∧
      location.column = offset - Text.lineStart source.toList location.row ∧
      (offset < offsetLimit → index.offsetAt location.row location.column = .ok (some offset))) ∧
    (∀ row column, (row < (Text.lines source.toList).length →
        Text.lineStart source.toList row + column < offsetLimit) →
      ∃ answer, index.offsetAt row column = .ok answer ∧
        (answer.isSome ↔ ∃ line, (Text.lines source.toList)[row]? = some line ∧
          column ≤ line.length) ∧
        ∀ offset, answer = some offset → index.locate offset = some ⟨offset, row, column⟩) ∧
    (∀ offset offset' location location', index.locate offset = some location →
      index.locate offset' = some location' →
      (offset ≤ offset' ↔ toLex (location.row, location.column)
        ≤ toLex (location'.row, location'.column))) ∧
    ∀ name, ∃ file, SourceFile.ofJson? (SourceFile.ofContent name source).toJson = some file ∧
      file.name = name ∧ file.content = source ∧ file.index? = none ∧
      (∀ offset, file.locate offset = (SourceFile.ofContent name source).locate offset ∧
        file.locate offset = index.locate offset) ∧
      ∀ row column, file.lines.offsetAt row column = index.offsetAt row column := by
  intro index
  refine ⟨fun offset => ?_, fun offset location h => ?_, fun row column hfits => ?_,
    fun offset offset' location location' h h' => ?_, fun name => ?_⟩
  · rw [Option.isSome_iff_ne_none, ne_eq, LineIndex.locate_eq_none_iff, Nat.not_lt]
    rfl
  · obtain ⟨hsame, hplaces⟩ := LineIndex.locate_eq_some_iff.mp h
    have hcount := hplaces.count_take
    obtain ⟨hhas, hoffset⟩ := hplaces
    refine ⟨hsame, hcount.symm, ?_, ?_, fun hlimit => ?_⟩
    · omega
    · omega
    · rw [hoffset] at hlimit ⊢
      exact LineIndex.offsetAt_of_hasPlace hhas hlimit
  · exact LineIndex.offsetAt_answers hfits
  · exact (LineIndex.locate_eq_some_iff.mp h).2.le_iff (LineIndex.locate_eq_some_iff.mp h').2
  · exact ⟨_, SourceFile.ofJson?_toJson _, rfl, rfl, rfl, fun _ => ⟨rfl, rfl⟩, fun _ _ => rfl⟩

/-- The empty line behind the last line break, a column past the end of a line, and a break that
comes before the next line. -/
theorem offsets_match_places_last_line :
    let index := LineIndex.ofString "ab\ncde\n"
    (∃ location, index.locate 7 = some location ∧ location.row = 2 ∧ location.column = 0 ∧
      index.offsetAt 2 0 = .ok (some 7)) ∧
    (∃ answer, index.offsetAt 1 4 = .ok answer ∧ ¬ answer.isSome) ∧
    (∃ location location', index.locate 6 = some location ∧ index.locate 7 = some location' ∧
      toLex (location.row, location.column) ≤ toLex (location'.row, location'.column)) := by
  intro index
  obtain ⟨hdefined, hlocated, hfound, horder, -⟩ := offsets_match_places "ab\ncde\n"
  obtain ⟨six, hsix⟩ := Option.isSome_iff_exists.mp ((hdefined 6).mpr (by decide))
  obtain ⟨seven, hseven⟩ := Option.isSome_iff_exists.mp ((hdefined 7).mpr (by decide))
  obtain ⟨-, hrow, -, hcolumn, hback⟩ := hlocated 7 seven hseven
  have hsecond : seven.row = 2 := hrow.trans (by decide)
  have hfirst : seven.column = 0 := by
    rw [hcolumn, hsecond]
    decide
  obtain ⟨answer, hanswer, hhas, -⟩ := hfound 1 4 fun _ => by decide
  refine ⟨⟨seven, hseven, hsecond, hfirst, ?_⟩, ⟨answer, hanswer, ?_⟩,
    six, seven, hsix, hseven, (horder 6 7 six seven hsix hseven).mp (by decide)⟩
  · rw [← hsecond, ← hfirst]
    exact hback (by decide)
  · rw [hhas]
    decide

end MacroMarkup
