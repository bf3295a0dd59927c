import MacroMarkup.Command.Mend
import MacroMarkup.Proofs.RowsAndColumns
import MacroMarkup.Proofs.Run

/-!
# Looking for a place that was given

A line and a column that are given to a command count from one, and may be any numbers that fit 64
bits.  The start of the line and the distance of the column from it are added before the sum is
compared with the end of the line, so the sum itself may be too large.

* `exists_parsePlace_iff`: the places that can be given; decimal digits are read as the number that
  they stand for.
* `Text.Overruns`: the line is there, and the sum does not fit 64 bits.
* `Text.LooksUp`: a place is found, or it is outside, or it overruns.  `LineIndex.looksUp_offsetAt`.
* `mendSource_of_place`: what the command makes of it.
* `given_places_looked_up`: **every place that can be given is looked up**, with the exact condition
  under which the sum does not fit.
-/

namespace MacroMarkup

/-! ### Numbers and places as they are given -/

theorem foldlM_digits {cs : List Char} (h : ∀ c ∈ cs, c.isDigit = true) (n : Nat) :
    cs.foldlM (fun n c => if c.isDigit then some (10 * n + (c.toNat - 48)) else none) n
      = some (Nat.ofDigitChars 10 cs n) := by
  induction cs generalizing n with
  | nil => rfl
  | cons c cs ih =>
    rw [List.foldlM_cons, if_pos (h c List.mem_cons_self)]
    exact ih (fun d hd => h d (List.mem_cons_of_mem c hd)) _

theorem isDigit_of_mem_toDigits {n : Nat} {c : Char} (h : c ∈ Nat.toDigits 10 n) :
    c.isDigit = true :=
  Nat.isDigit_of_mem_toDigits (by decide) (by decide) h

theorem numberOfDigits?_toDigits (n : Nat) : numberOfDigits? (Nat.toDigits 10 n) = some n := by
  cases hcs : Nat.toDigits 10 n with
  | nil => exact absurd hcs Nat.toDigits_ne_nil
  | cons c cs =>
    have hdigits : ∀ d ∈ c :: cs, d.isDigit = true := fun d hd =>
      isDigit_of_mem_toDigits (hcs ▸ hd)
    have hnumber := foldlM_digits hdigits 0
    rw [← hcs, Nat.ofDigitChars_toDigits (by decide) (by decide)] at hnumber
    rwa [← hcs, numberOfDigits?]
    rw [hcs]
    exact nofun

theorem toNat_of_isDigit {c : Char} (h : c.isDigit = true) : 48 ≤ c.toNat ∧ c.toNat ≤ 57 := by
  simpa [Char.isDigit, UInt32.le_iff_toNat_le] using h

theorem not_isWhiteSpace_of_isDigit {c : Char} (h : c.isDigit = true) : isWhiteSpace c = false := by
  have hrange := toNat_of_isDigit h
  simp only [isWhiteSpace, Bool.or_eq_false_iff, Bool.and_eq_false_iff, decide_eq_false_iff_not,
    beq_eq_false_iff_ne, ne_eq]
  omega

theorem dropWhile_isWhiteSpace {cs : List Char} (h : ∀ c ∈ cs, c.isDigit = true) :
    cs.dropWhile isWhiteSpace = cs := by
  cases cs with
  | nil => rfl
  | cons c cs =>
    rw [List.dropWhile_cons, not_isWhiteSpace_of_isDigit (h c List.mem_cons_self)]
    rfl

theorem trimSpace_digits {cs : List Char} (h : ∀ c ∈ cs, c.isDigit = true) :
    trimSpace cs = cs := by
  have hreverse : ∀ c ∈ cs.reverse, c.isDigit = true := fun c hc => h c (List.mem_reverse.mp hc)
  rw [trimSpace, dropWhile_isWhiteSpace h, dropWhile_isWhiteSpace hreverse, List.reverse_reverse]

theorem positive?_toDigits {n : Nat} (hpositive : 0 < n) (hfits : n < offsetLimit) :
    positive? (String.ofList (Nat.toDigits 10 n)) = some n := by
  have htrim : trimSpace (Nat.toDigits 10 n) = Nat.toDigits 10 n :=
    trimSpace_digits fun _ hc => isDigit_of_mem_toDigits hc
  have hsign : ∀ rest, Nat.toDigits 10 n ≠ '+' :: rest := fun rest hcs => by
    have hdigit : '+'.isDigit = true := isDigit_of_mem_toDigits (hcs ▸ List.mem_cons_self)
    cases hdigit
  rw [positive?, String.toList_ofList, htrim]
  split
  · exact absurd ‹_› (hsign _)
  · rw [numberOfDigits?_toDigits]
    simp [hpositive, hfits]

theorem bounds_of_positive? {part : String} {n : Nat} (h : positive? part = some n) :
    0 < n ∧ n < offsetLimit := by
  simp only [positive?, Option.bind_eq_bind, Option.bind_eq_some_iff] at h
  obtain ⟨m, -, h⟩ := h
  split at h
  · simp_all
  · cases h

theorem splitAt?_append {c : Char} {before : List Char} (h : c ∉ before) (behind : List Char) :
    splitAt? c (String.ofList (before ++ c :: behind))
      = some (String.ofList before, String.ofList behind) := by
  have hbefore : ∀ d ∈ before, (decide (d ≠ c)) = true := fun d hd =>
    decide_eq_true fun hdc => h (hdc ▸ hd)
  simp only [splitAt?, String.toList_ofList]
  rw [List.dropWhile_append_of_pos hbefore, List.takeWhile_append_of_pos hbefore]
  simp

theorem parsePlace_toDigits {line column : Nat} (hline : 0 < line ∧ line < offsetLimit)
    (hcolumn : 0 < column ∧ column < offsetLimit) :
    parsePlace (String.ofList (Nat.toDigits 10 line ++ ':' :: Nat.toDigits 10 column))
      = .ok (line, column) := by
  have hcolon : ':' ∉ Nat.toDigits 10 line := fun hmem => by
    have hdigit : ':'.isDigit = true := isDigit_of_mem_toDigits hmem
    cases hdigit
  rw [parsePlace, splitAt?_append hcolon]
  simp only [positive?_toDigits hline.1 hline.2, positive?_toDigits hcolumn.1 hcolumn.2]

theorem bounds_of_parsePlace {given : String} {line column : Nat}
    (h : parsePlace given = .ok (line, column)) :
    (0 < line ∧ line < offsetLimit) ∧ 0 < column ∧ column < offsetLimit := by
  unfold parsePlace at h
  split at h
  · cases h
  · split at h
    · cases h
    · cases h
    · cases h
      exact ⟨bounds_of_positive? ‹_›, bounds_of_positive? ‹_›⟩

/-- **The places that can be given**: any positive numbers that fit 64 bits. -/
theorem exists_parsePlace_iff {line column : Nat} :
    (∃ given, parsePlace given = .ok (line, column)) ↔
      (0 < line ∧ line < offsetLimit) ∧ 0 < column ∧ column < offsetLimit :=
  ⟨fun ⟨_, h⟩ => bounds_of_parsePlace h, fun ⟨hline, hcolumn⟩ =>
    ⟨_, parsePlace_toDigits hline hcolumn⟩⟩

/-! ### The offset of a place -/

/-- The line is there, and the sum of its start and the column does not fit 64 bits. -/
def Text.Overruns (text : List Char) (row column : Nat) : Prop :=
  row < (Text.lines text).length ∧ offsetLimit ≤ Text.lineStart text row + column

/-- What looking for a place of a text comes to, by what the text has there. -/
inductive Text.LooksUp (text : List Char) (row column : Nat) : Except Fault (Option Nat) → Prop
  | found {offset : Nat} : Text.Places text offset row column →
      LooksUp text row column (.ok (some offset))
  | outside : ¬ Text.HasPlace text row column → ¬ Text.Overruns text row column →
      LooksUp text row column (.ok none)
  | overruns : Text.Overruns text row column → ¬ Text.HasPlace text row column →
      LooksUp text row column (.error .offsetOverflow)

theorem Text.lineStart_le_length {text : List Char} {row : Nat}
    (h : row < (Text.lines text).length) : Text.lineStart text row ≤ text.length := by
  have hplaces : Text.Places text (Text.lineStart text row) row 0 :=
    ⟨⟨_, List.getElem?_eq_getElem h, Nat.zero_le _⟩, rfl⟩
  exact hplaces.le_length

/-- A place that a text has does not overrun, since its offset lies in the text. -/
theorem Text.HasPlace.not_overruns {text : List Char} {row column : Nat}
    (hfits : text.length < offsetLimit) (h : Text.HasPlace text row column) :
    ¬ Text.Overruns text row column := by
  intro hover
  have hplaces : Text.Places text _ row column := ⟨h, rfl⟩
  exact Nat.not_lt.mpr hover.2 (Nat.lt_of_le_of_lt hplaces.le_length hfits)

namespace LineIndex

variable {source : String} {row column : Nat}

theorem lineStart?_lt (hfits : source.toList.length < offsetLimit) {start : Nat}
    (h : (ofString source).lineStart? row = some start) : start < offsetLimit := by
  rw [lineStart?_ofString] at h
  obtain ⟨line, hline, rfl⟩ := Option.map_eq_some_iff.mp h
  have hrow : row < (Text.lines source.toList).length := (List.getElem?_eq_some_iff.mp hline).1
  exact Nat.lt_of_le_of_lt (Text.lineStart_le_length hrow) hfits

/-- **A sum that does not fit 64 bits** is a fault, before it is compared with the line's end. -/
theorem offsetAt_of_overruns (h : Text.Overruns source.toList row column) :
    (ofString source).offsetAt row column = .error .offsetOverflow := by
  obtain ⟨hrow, hover⟩ := h
  rw [offsetAt, lineStart?_ofString, List.getElem?_eq_getElem hrow, Option.map_some]
  show (addOffsets _ _ >>= fun offset => _) = _
  rw [addOffsets, if_neg (Nat.not_lt.mpr hover)]
  rfl

/-- **A place is found, or it is outside, or its sum overruns.** -/
theorem looksUp_offsetAt (hfits : source.toList.length < offsetLimit) (row column : Nat) :
    Text.LooksUp source.toList row column ((ofString source).offsetAt row column) := by
  by_cases hover : Text.Overruns source.toList row column
  · rw [offsetAt_of_overruns hover]
    exact .overruns hover fun hhas => hhas.not_overruns hfits hover
  · have hsum : row < (Text.lines source.toList).length →
        Text.lineStart source.toList row + column < offsetLimit := fun hrow =>
      Nat.lt_of_not_le fun hle => hover ⟨hrow, hle⟩
    by_cases hhas : Text.HasPlace source.toList row column
    · have hrow : row < (Text.lines source.toList).length := by
        obtain ⟨line, hline, -⟩ := hhas
        exact (List.getElem?_eq_some_iff.mp hline).1
      rw [offsetAt_of_hasPlace hhas (hsum hrow)]
      exact .found ⟨hhas, rfl⟩
    · rw [offsetAt_of_not_hasPlace hhas hsum]
      exact .outside hhas hover

end LineIndex

/-- A place that counts from one is looked up as one that counts from zero. -/
theorem offsetOfPlace_eq_offsetAt {index : LineIndex} {line column : Nat} (hline : 0 < line)
    (hcolumn : 0 < column) :
    offsetOfPlace index line column = index.offsetAt (line - 1) (column - 1) := by
  obtain ⟨row, rfl⟩ := Nat.exists_eq_succ_of_ne_zero (Nat.ne_of_gt hline)
  obtain ⟨distance, rfl⟩ := Nat.exists_eq_succ_of_ne_zero (Nat.ne_of_gt hcolumn)
  rfl

/-! ### What the command makes of it -/

/-- The command goes on with an offset that was found, whatever becomes of the fix; a place that was
not found is called outside. -/
theorem mendSource_of_place {w : Workspace} {options : Options} {path : String} {what : MendOptions}
    {name source : String} {document : Document} {line column : Nat}
    (hplace : what.place = some (line, column))
    (hwrite : (what.write && isStandardInput path) = false)
    (hread : readDocument w options path = .ok (⟨name, source⟩, document)) :
    ∃ goOn : Nat → Command CommandResult,
      (∀ offset, goOn offset ≠ .error (.placeOutside line column name)) ∧
      mendSource w options path what
        = (Command.ofFault (offsetOfPlace (.ofString source) line column) >>= fun
          | some offset => goOn offset
          | none => .error (.placeOutside line column name)) := by
  simp only [mendSource, hwrite, hread, hplace, Bool.false_eq_true, if_false]
  show ∃ goOn : Nat → Command CommandResult, _ ∧
    (Command.ofFault (offsetOfPlace (.ofString source) line column) >>= _) = _
  apply Exists.intro
  rw [and_comm]
  refine ⟨bind_congr fun answer => ?_, fun offset => ?_⟩
  · cases answer with
    | none => rfl
    | some offset => rfl
  · simp only [pure_bind, Option.getD_some]
    -- no diagnostic is meant, or it has no fix, or the fix is made
    split
    · rintro ⟨⟩
    · split
      · rintro ⟨⟩
      · next fix _ =>
        cases fix.apply source offset with
        | error fault => rintro ⟨⟩
        | ok edited =>
          show (if _ then _ else _) ≠ _
          split
          · rintro ⟨⟩
          · split
            · rintro ⟨⟩
            · rintro ⟨⟩

/-- **Every place that can be given is looked up.**  Places are any positive numbers that fit 64
bits.  The offset of a place that the source has is found; a place that it does not have is outside,
unless its line is there and the sum of the start of the line and the distance of the column does
not fit 64 bits.  Then the lookup is a fault, and so is the command; it says of exactly those places
that they are outside of which the lookup does. -/
theorem given_places_looked_up (source : String) (hfits : source.toList.length < offsetLimit) :
    (∀ row start, (LineIndex.ofString source).lineStart? row = some start → start < offsetLimit) ∧
    (∀ line column, (∃ given, parsePlace given = .ok (line, column)) ↔
      (0 < line ∧ line < offsetLimit) ∧ 0 < column ∧ column < offsetLimit) ∧
    ∀ given line column, parsePlace given = .ok (line, column) →
      let lookup := offsetOfPlace (.ofString source) line column
      Text.LooksUp source.toList (line - 1) (column - 1) lookup ∧
      ∀ w options path what name document, what.place = some (line, column) →
        (what.write && isStandardInput path) = false →
        readDocument w options path = .ok (⟨name, source⟩, document) →
        (mendSource w options path what = .error (.placeOutside line column name) ↔
          lookup = .ok none) ∧
        ∀ fault, lookup = .error fault →
          mendSource w options path what = .error (.fault fault) := by
  refine ⟨fun row start => LineIndex.lineStart?_lt hfits, fun line column => exists_parsePlace_iff,
    fun given line column hgiven => ?_⟩
  intro lookup
  refine ⟨?_, fun w options path what name document hplace hwrite hread => ?_⟩
  · obtain ⟨hline, hcolumn⟩ := bounds_of_parsePlace hgiven
    have hoffset : lookup = (LineIndex.ofString source).offsetAt (line - 1) (column - 1) :=
      offsetOfPlace_eq_offsetAt hline.1 hcolumn.1
    rw [hoffset]
    exact LineIndex.looksUp_offsetAt hfits _ _
  · obtain ⟨goOn, hgoOn, hmend⟩ := mendSource_of_place hplace hwrite hread
    change _ = (Command.ofFault lookup >>= _) at hmend
    rw [hmend]
    cases lookup with
    | error fault =>
      refine ⟨iff_of_false nofun nofun, fun fault' heq => ?_⟩
      rw [← Except.error.inj heq]
      rfl
    | ok answer =>
      cases answer with
      | none => exact ⟨iff_of_true rfl rfl, nofun⟩
      | some offset => exact ⟨iff_of_false (hgoOn offset) nofun, nofun⟩

/-- The last column that can be given, in the second line of a file: a place that overruns. -/
theorem given_places_looked_up_last_column :
    let w : Workspace := ⟨fun path => if path = "doc.emm" then some "a\nb" else none,
      fun _ => true, ""⟩
    let what : MendOptions := ⟨.error, 2, some (2, 18446744073709551615), false⟩
    "a\nb".toList.length < offsetLimit ∧
    parsePlace "2:18446744073709551615" = .ok (2, 18446744073709551615) ∧
    Text.LooksUp "a\nb".toList 1 18446744073709551614
      (offsetOfPlace (.ofString "a\nb") 2 18446744073709551615) ∧
    offsetOfPlace (.ofString "a\nb") 2 18446744073709551615 = .error .offsetOverflow ∧
    ∃ document, readDocument w ⟨none, [], none⟩ "doc.emm" = .ok (⟨"doc.emm", "a\nb"⟩, document) ∧
      mendSource w ⟨none, [], none⟩ "doc.emm" what = .error (.fault .offsetOverflow) := by
  intro w what
  have hfits : "a\nb".toList.length < offsetLimit := by decide
  have hgiven : parsePlace "2:18446744073709551615" = .ok (2, 18446744073709551615) := by rfl
  have hlookup : offsetOfPlace (.ofString "a\nb") 2 18446744073709551615
      = .error .offsetOverflow := by rfl
  have hrun : (readDocument w ⟨none, [], none⟩ "doc.emm").toOption.map
      (fun read => (read.1.name, read.1.source)) = some ("doc.emm", "a\nb") := by
    decide +kernel
  obtain ⟨⟨⟨name, source⟩, document⟩, hread, hinput⟩ := exists_ok_of_toOption hrun
  obtain ⟨rfl, rfl⟩ : name = "doc.emm" ∧ source = "a\nb" := Prod.mk.inj hinput
  obtain ⟨-, -, hplaces⟩ := given_places_looked_up "a\nb" hfits
  obtain ⟨hlooks, hcommand⟩ := hplaces _ _ _ hgiven
  obtain ⟨-, hfault⟩ := hcommand w ⟨none, [], none⟩ "doc.emm" what "doc.emm" document rfl rfl hread
  exact ⟨hfits, hgiven, hlooks, hlookup, document, hread, hfault _ hlookup⟩

end MacroMarkup
