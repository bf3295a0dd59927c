import Mathlib.Tactic.SplitIfs
import MacroMarkup.Parser.RawText

/-!
# The scan of raw text

A line break, and the blanks behind it, are kept back until it is known whether they belong to the
text.  So what was read so far is the text and what is kept back, and each character either ends
the scan or is added to one of the two.

* `RawText.Next`, `RawText.next`: what one more character does to a scan.
* `RawText.next_stops`, `RawText.next_goesOn`: all that is known of it.  The laws of a scan are
  inductions over the characters with these two cases.
* `RawText.scan_reads`, `RawText.scan_starts`: what was read stands in the source, the oldest first.
* `RawText.scan_append`: a scan that ends with a text does not depend on what comes behind.
-/

namespace MacroMarkup

namespace RawText

variable {grouped marked : Bool} {text : String} {count : Nat} {gap : Option String} {c : Char}
  {rest : List Char}

/-! ### One character -/

def kept (gap : Option String) : List Char := (gap.getD "").toList

inductive Next
  | stops (raw : RawText)
  | goesOn (text : String) (count : Nat) (gap : Option String)

/-- What a character does to a scan; `marked` says whether the mark that closes a group stands
there. -/
def next (grouped marked : Bool) (text : String) (count : Nat) (gap : Option String) (c : Char) :
    Next :=
  match gap with
  | none =>
    if c = '\n' then .goesOn text count (some "\n") else .goesOn (text.push c) (count + 1) none
  | some white =>
    let read := count + white.toList.length
    if isBlank c then .goesOn text count (some (white.push c))
    else if grouped && marked then .stops ⟨text, count, read + 3, false⟩
    else if !grouped && c = '\n' then .stops ⟨text, count, read + 1, false⟩
    else if c = '\n' then .goesOn (text ++ white) read (some "\n")
    else .goesOn ((text ++ white).push c) (read + 1) none

theorem scan_cons (grouped : Bool) (text : String) (count : Nat) (gap : Option String) (c : Char)
    (rest : List Char) :
    scan grouped text count gap (c :: rest) =
      match next grouped (['-', '-', ':'].isPrefixOf (c :: rest)) text count gap c with
      | .stops raw => raw
      | .goesOn text count gap => scan grouped text count gap rest := by
  cases gap with
  | none =>
    simp only [scan, next]
    split_ifs <;> rfl
  | some white =>
    simp only [scan, next]
    split_ifs <;> rfl

/-- A scan stops behind what it kept back, at the mark of a group or, in no group, at a blank
line. -/
theorem next_stops {raw : RawText} (h : next grouped marked text count gap c = .stops raw) :
    ∃ more, raw = ⟨text, count, count + (kept gap).length + more, false⟩ ∧
      (grouped = true ∧ marked = true ∧ more = 3 ∨
        grouped = false ∧ c = '\n' ∧ more = 1) := by
  cases gap with
  | none =>
    simp only [next] at h
    split_ifs at h
  | some white =>
    simp only [next] at h
    split_ifs at h with _ hmark hline
    · rw [Bool.and_eq_true] at hmark
      exact ⟨3, (Next.stops.inj h).symm, .inl ⟨hmark.1, hmark.2, rfl⟩⟩
    · simp only [Bool.and_eq_true, Bool.not_eq_true', decide_eq_true_eq] at hline
      exact ⟨1, (Next.stops.inj h).symm, .inr ⟨hline.1, hline.2, rfl⟩⟩

/-- A scan that goes on has the character in its text or keeps it back. -/
theorem next_goesOn {text' : String} {count' : Nat} {gap' : Option String}
    (h : next grouped marked text count gap c = .goesOn text' count' gap') :
    (∃ added : String, text' = text ++ added ∧ count' = count + added.toList.length ∧
      added.toList ++ kept gap' = kept gap ++ [c]) ∧
    gap'.isSome = (c == '\n' || gap.isSome && isBlank c) := by
  cases gap with
  | none =>
    simp only [next] at h
    split_ifs at h with hline
    · cases h
      exact ⟨⟨"", by simp [kept, hline]⟩, by simp [hline]⟩
    · cases h
      exact ⟨⟨String.singleton c, by simp [kept, String.append_singleton]⟩, by simp [hline]⟩
  | some white =>
    simp only [next] at h
    split_ifs at h with hblank _ _ hline
    · cases h
      exact ⟨⟨"", by simp [kept]⟩, by simp [hblank]⟩
    · cases h
      exact ⟨⟨white, by simp [kept, hline]⟩, by simp [hline]⟩
    · cases h
      refine ⟨⟨white.push c, ?_⟩, by simp [hline, hblank]⟩
      simp [kept, Nat.add_assoc, String.append_assoc, ← String.append_singleton]

/-! ### What is read -/

/-- Raw text is what stands at its place, and it is read from there. -/
theorem scan_reads (grouped : Bool) (cs : List Char) : ∀ (text : String) (count : Nat)
    (gap : Option String), text.toList.length = count →
    let all := text.toList ++ kept gap ++ cs
    let raw := scan grouped text count gap cs
    raw.text.toList = all.take raw.contentLength ∧ raw.contentLength ≤ raw.length ∧
      raw.length ≤ all.length := by
  induction cs with
  | nil =>
    intro text count gap hcount
    cases gap with
    | none => simp [scan, kept, ← hcount]
    | some white => simp [scan, kept, ← hcount]
  | cons c rest ih =>
    intro text count gap hcount
    rw [scan_cons]
    cases hnext : next grouped (['-', '-', ':'].isPrefixOf (c :: rest)) text count gap c with
    | stops raw =>
      obtain ⟨more, rfl, hmore⟩ := next_stops hnext
      have hle : more ≤ (c :: rest).length := by
        rcases hmore with ⟨-, hmark, rfl⟩ | ⟨-, -, rfl⟩
        · exact (List.isPrefixOf_iff_prefix.mp hmark).length_le
        · simp
      simp only [List.length_append]
      refine ⟨?_, by omega, by omega⟩
      rw [List.append_assoc, List.take_left' hcount]
    | goesOn text' count' gap' =>
      obtain ⟨⟨added, rfl, rfl, hkept⟩, -⟩ := next_goesOn hnext
      have hall : (text ++ added).toList ++ kept gap' ++ rest
          = text.toList ++ kept gap ++ c :: rest := by
        rw [String.toList_append, List.append_assoc text.toList, hkept]
        simp
      have hreads := ih (text ++ added) (count + added.toList.length) gap' (by simp [hcount])
      rwa [hall] at hreads

theorem ofChars_reads (grouped : Bool) (cs : List Char) :
    (ofChars grouped cs).text.toList = cs.take (ofChars grouped cs).contentLength ∧
      (ofChars grouped cs).contentLength ≤ (ofChars grouped cs).length ∧
      (ofChars grouped cs).length ≤ cs.length :=
  scan_reads grouped cs "" 0 none rfl

theorem scan_starts (grouped : Bool) (cs : List Char) : ∀ (text : String) (count : Nat)
    (gap : Option String), ∃ more, (scan grouped text count gap cs).text = text ++ more := by
  induction cs with
  | nil =>
    intro text count gap
    cases gap with
    | none => exact ⟨"", String.append_empty.symm⟩
    | some white => exact ⟨"", String.append_empty.symm⟩
  | cons c rest ih =>
    intro text count gap
    rw [scan_cons]
    cases hnext : next grouped (['-', '-', ':'].isPrefixOf (c :: rest)) text count gap c with
    | stops raw =>
      obtain ⟨_, rfl, -⟩ := next_stops hnext
      exact ⟨"", String.append_empty.symm⟩
    | goesOn text' count' gap' =>
      obtain ⟨⟨added, rfl, -⟩, -⟩ := next_goesOn hnext
      obtain ⟨more, hmore⟩ := ih (text ++ added) count' gap'
      exact ⟨added ++ more, by rw [← String.append_assoc]; exact hmore⟩

theorem unclosed_scan_plain (cs : List Char) : ∀ (text : String) (count : Nat)
    (gap : Option String), (scan false text count gap cs).unclosed = false := by
  induction cs with
  | nil =>
    intro text count gap
    cases gap with
    | none => rfl
    | some white => rfl
  | cons c rest ih =>
    intro text count gap
    rw [scan_cons]
    cases hnext : next false (['-', '-', ':'].isPrefixOf (c :: rest)) text count gap c with
    | stops raw =>
      obtain ⟨_, rfl, -⟩ := next_stops hnext
      rfl
    | goesOn text' count' gap' => exact ih text' count' gap'

/-! ### What is ahead of the end -/

/-- What was read before is read, and one character more. -/
theorem le_length_scan (grouped : Bool) (cs : List Char) (text : String) (count : Nat)
    (gap : Option String) :
    count + (kept gap).length + min 1 cs.length ≤ (scan grouped text count gap cs).length := by
  induction cs generalizing text count gap with
  | nil => cases gap <;> simp [scan, kept]
  | cons c rest ih =>
    rw [scan_cons]
    cases hnext : next grouped (['-', '-', ':'].isPrefixOf (c :: rest)) text count gap c with
    | stops raw =>
      obtain ⟨more, rfl, ⟨-, -, rfl⟩ | ⟨-, -, rfl⟩⟩ := next_stops hnext
      · simp
      · simp
    | goesOn text' count' gap' =>
      obtain ⟨⟨added, -, rfl, hkept⟩, -⟩ := next_goesOn hnext
      have hlength := congrArg List.length hkept
      have hle := ih text' (count + added.toList.length) gap'
      simp only [List.length_append, List.length_cons, List.length_nil] at hlength hle ⊢
      omega

theorem length_scan_inside_mark {t : List Char} (ht : t ≠ []) {cs : List Char}
    (hcs : cs = ['-'] ∨ cs = ['-', '-']) (text : String) (count : Nat) (gap : Option String) :
    (scan grouped text count gap (cs ++ t)).length ≠ count + (kept gap).length + cs.length := by
  obtain ⟨rest, rfl, hrest⟩ : ∃ rest, cs = '-' :: rest ∧ (rest = [] ∨ rest = ['-']) := by
    rcases hcs with rfl | rfl
    · exact ⟨[], rfl, .inl rfl⟩
    · exact ⟨['-'], rfl, .inr rfl⟩
  have hpos := List.length_pos_iff.mpr ht
  rw [List.cons_append, scan_cons]
  cases hnext :
    next grouped (['-', '-', ':'].isPrefixOf ('-' :: (rest ++ t))) text count gap '-' with
  | stops raw =>
    obtain ⟨more, rfl, ⟨-, -, rfl⟩ | ⟨-, hline, -⟩⟩ := next_stops hnext
    · rcases hrest with rfl | rfl <;> simp
    · exact absurd hline (by decide)
  | goesOn text' count' gap' =>
    obtain ⟨⟨added, -, rfl, hkept⟩, hgap⟩ := next_goesOn hnext
    obtain rfl : gap' = none := by simpa [isBlank] using hgap
    have hlength := congrArg List.length hkept
    have hnone : (kept none).length = 0 := rfl
    have hle := fun text count => le_length_scan grouped t text count none
    simp only [List.length_append, List.length_cons, List.length_nil, hnone] at hlength hle ⊢
    rcases hrest with rfl | rfl
    · have := hle text' (count + added.toList.length)
      simp only [List.nil_append, List.length_nil]
      omega
    · have := hle (text'.push '-') (count + added.toList.length + 1)
      rw [List.cons_append, List.nil_append, scan_plain (by decide)]
      simp only [List.length_cons, List.length_nil]
      omega

/-- The mark that closes a group is looked for in a text, or the text ends inside it. -/
theorem isPrefixOf_groupClose {cs : List Char} (hcs : cs ≠ []) (t t' : List Char) :
    ['-', '-', ':'].isPrefixOf (cs ++ t') = ['-', '-', ':'].isPrefixOf (cs ++ t) ∨
      cs = ['-'] ∨ cs = ['-', '-'] := by
  rcases cs with _ | ⟨a, _ | ⟨b, _ | ⟨c, rest⟩⟩⟩
  · exact absurd rfl hcs
  · by_cases ha : '-' = a
    · exact .inr (.inl (by rw [ha]))
    · exact .inl (by simp [List.isPrefixOf, beq_eq_false_iff_ne.mpr ha])
  · by_cases ha : '-' = a
    · by_cases hb : '-' = b
      · exact .inr (.inr (by rw [← ha, ← hb]))
      · exact .inl (by simp [List.isPrefixOf, beq_eq_false_iff_ne.mpr hb])
    · exact .inl (by simp [List.isPrefixOf, beq_eq_false_iff_ne.mpr ha])
  · exact .inl (by simp [List.isPrefixOf])

/-- Raw text that ends with a text depends on that text only, and the text ends with a line break
or with the mark that closes a group. -/
theorem scan_append {t t' : List Char} (ht : t ≠ []) (cs : List Char)
    (text : String) (count : Nat) (gap : Option String)
    (h : (scan grouped text count gap (cs ++ t)).length
      = count + (kept gap).length + cs.length) :
    scan grouped text count gap (cs ++ t') = scan grouped text count gap (cs ++ t) ∧
      (['\n'] <:+ cs ∨ ['-', '-', ':'] <:+ cs) := by
  induction cs generalizing text count gap with
  | nil =>
    have hpos := List.length_pos_iff.mpr ht
    have := le_length_scan grouped ([] ++ t) text count gap
    simp only [List.nil_append, List.length_nil] at h this
    omega
  | cons c rest ih =>
    have hmark := (isPrefixOf_groupClose (List.cons_ne_nil c rest) t t').resolve_right
      fun hinside => length_scan_inside_mark ht hinside text count gap h
    simp only [List.cons_append] at hmark h ⊢
    rw [scan_cons] at h
    rw [scan_cons, scan_cons, hmark]
    cases hnext : next grouped (['-', '-', ':'].isPrefixOf (c :: (rest ++ t))) text count gap c with
    | stops raw =>
      rw [hnext] at h
      obtain ⟨more, rfl, hmore⟩ := next_stops hnext
      have hlength : (c :: rest).length = more := by simp only at h; omega
      refine ⟨rfl, ?_⟩
      rcases hmore with ⟨-, hahead, rfl⟩ | ⟨-, rfl, rfl⟩
      · rw [List.isPrefixOf_iff_prefix, ← List.cons_append] at hahead
        have := List.prefix_of_prefix_length_le hahead (List.prefix_append (c :: rest) t)
          (Nat.le_of_eq hlength.symm)
        exact .inr (this.eq_of_length hlength.symm ▸ List.suffix_refl _)
      · rw [List.length_eq_one_iff] at hlength
        obtain ⟨_, hlength⟩ := hlength
        cases hlength
        exact .inl (List.suffix_refl _)
    | goesOn text' count' gap' =>
      rw [hnext] at h
      obtain ⟨⟨added, -, rfl, hkept⟩, -⟩ := next_goesOn hnext
      have hlength := congrArg List.length hkept
      simp only [List.length_append, List.length_cons, List.length_nil] at hlength h
      obtain ⟨hsame, hend⟩ := ih text' (count + added.toList.length) gap' (by omega)
      have hcons := fun {t : List Char} (h : t <:+ rest) => h.trans (List.suffix_cons c rest)
      exact ⟨hsame, hend.imp hcons hcons⟩

end RawText

end MacroMarkup
