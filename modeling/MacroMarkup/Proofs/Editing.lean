import MacroMarkup.Diagnostic.Fix

/-!
# What a fix does to a source and to a cursor

A fix cuts a source in three: what stands before the edit, what is taken out, and what stands
behind it.  Only the middle part is replaced.  A cursor goes along with the text that it stands at:
before the edit with the text before it, behind the edit with the text behind it.

* `Text.extract_byteIndex_left`, `Text.extract_byteIndex_right`: a text that is cut at code points
  is cut at the bytes that `Text.byteIndex` counts.
* `Fix.Replaces`: what the edited source is, in code points and in bytes; `replaces_edited`.
* `Fix.Carries`: where cursors stand in the edited source; `carries_carried`.
* `apply_insert_remove`: taking out what was put in.
* `fix_carries_cursor`: **a fix edits the text and the cursor goes along.**
-/

namespace MacroMarkup

/-! ### Bytes -/

namespace Text

theorem size_utf8Encode (cs : List Char) : cs.utf8Encode.size = byteCount cs := by
  induction cs with
  | nil => rfl
  | cons c cs ih =>
    rw [List.utf8Encode_cons, ByteArray.size_append, ih, List.utf8Encode_singleton]
    simp [byteCount]

theorem toByteArray_eq_utf8Encode (s : String) : s.toByteArray = s.toList.utf8Encode := by
  rw [← String.toByteArray_ofList, String.ofList_toList]

theorem size_utf8Encode_take (s : String) (offset : Nat) :
    (s.toList.take offset).utf8Encode.size = byteIndex s offset := size_utf8Encode _

theorem toByteArray_eq_append (s : String) (offset : Nat) :
    s.toByteArray = (s.toList.take offset).utf8Encode ++ (s.toList.drop offset).utf8Encode := by
  rw [← List.utf8Encode_append, List.take_append_drop, toByteArray_eq_utf8Encode]

theorem extract_byteIndex_left (s : String) (offset : Nat) :
    s.toByteArray.extract 0 (byteIndex s offset) = (s.toList.take offset).utf8Encode := by
  rw [toByteArray_eq_append s offset]
  exact ByteArray.extract_append_eq_left (size_utf8Encode_take s offset).symm

theorem extract_byteIndex_right (s : String) (offset : Nat) :
    s.toByteArray.extract (byteIndex s offset) s.toByteArray.size
      = (s.toList.drop offset).utf8Encode := by
  rw [toByteArray_eq_append s offset]
  exact ByteArray.extract_append_eq_right (size_utf8Encode_take s offset).symm
    ByteArray.size_append

end Text

/-! ### Edits -/

namespace Fix

def inserted : Fix → String
  | insert _ _ text => text
  | remove _ _ _ => ""

def stop : Fix → Nat
  | insert _ position _ => position
  | remove _ position length => position + length

/-- The sums of offsets that are formed for an edit of the source fit 64 bits. -/
def Fits (source : String) : Fix → Prop
  | insert _ _ text => source.toList.length + text.toList.length < offsetLimit
  | remove _ position length => position + length < offsetLimit

/-- `edited` is the source with the text of the fix in place of its range, as far as the range lies
in the source: in code points, and in bytes. -/
structure Replaces (fix : Fix) (source edited : String) : Prop where
  points : ∃ before removed behind : List Char,
    source.toList = before ++ (removed ++ behind) ∧
    before.length = min fix.position source.toList.length ∧
    (before ++ removed).length = min fix.stop source.toList.length ∧
    edited.toList = before ++ (fix.inserted.toList ++ behind)
  bytes : edited.toByteArray = source.toByteArray.extract 0 (Text.byteIndex source fix.position)
    ++ fix.inserted.toByteArray
    ++ source.toByteArray.extract (Text.byteIndex source fix.stop) source.toByteArray.size

variable {fix : Fix} {source : String}

theorem position_le_stop (fix : Fix) : fix.position ≤ fix.stop := by
  cases fix with
  | insert info position text => exact Nat.le_refl _
  | remove info position length => exact Nat.le_add_right _ _

theorem toList_edited (fix : Fix) (source : String) :
    (fix.edited source).toList = source.toList.take fix.position
      ++ (fix.inserted.toList ++ source.toList.drop fix.stop) := by
  cases fix with
  | insert info position text =>
    rw [edited, String.toList_ofList, List.append_assoc]
    rfl
  | remove info position length =>
    rw [edited, String.toList_ofList]
    rfl

theorem replaces_edited (fix : Fix) (source : String) :
    fix.Replaces source (fix.edited source) where
  points := by
    have hle := fix.position_le_stop
    refine ⟨source.toList.take fix.position,
      (source.toList.drop fix.position).take (fix.stop - fix.position),
      source.toList.drop fix.stop, ?_, List.length_take, ?_, fix.toList_edited source⟩
    · have hbehind : source.toList.drop fix.stop
          = (source.toList.drop fix.position).drop (fix.stop - fix.position) := by
        rw [List.drop_drop, Nat.add_sub_cancel' hle]
      rw [hbehind, List.take_append_drop, List.take_append_drop]
    · simp only [List.length_append, List.length_take, List.length_drop]
      omega
  bytes := by
    rw [Text.extract_byteIndex_left, Text.extract_byteIndex_right,
      Text.toByteArray_eq_utf8Encode fix.inserted, ← List.utf8Encode_append,
      ← List.utf8Encode_append, Text.toByteArray_eq_utf8Encode, toList_edited, List.append_assoc]

/-! ### Cursors -/

/-- The cursors of the source stand at `moved` in the edited source, each with the text that it
stood at.  The positions of the fix count as given: no cursor stands at or behind an insertion
past the end of the source. -/
structure Carries (fix : Fix) (source edited : String) (moved : Nat → Nat) : Prop where
  inside : ∀ cursor ≤ source.toList.length, moved cursor ≤ edited.toList.length
  /-- Before the edit. -/
  before : ∀ cursor ≤ source.toList.length, cursor < fix.position →
    edited.toList.take (moved cursor) = source.toList.take cursor
  /-- At or behind an insertion, or behind a range that is taken out. -/
  behind : ∀ cursor ≤ source.toList.length, fix.position ≤ cursor →
    min fix.stop source.toList.length ≤ cursor →
    edited.toList.drop (moved cursor) = source.toList.drop cursor
  /-- Inside a range that is taken out. -/
  within : ∀ cursor ≤ source.toList.length, fix.position ≤ cursor → cursor < fix.stop →
    moved cursor = fix.position
  monotone : ∀ cursor next, cursor ≤ next → next ≤ source.toList.length →
    moved cursor ≤ moved next

/-- Where a cursor stands in the edited source. -/
def carried (fix : Fix) (cursor : Nat) : Nat :=
  if cursor < fix.position then cursor
  else if cursor < fix.stop then fix.position
  else cursor - (fix.stop - fix.position) + fix.inserted.toList.length

theorem moveCursor_eq_carried {cursor : Nat} (h : fix.Fits source)
    (hcursor : cursor ≤ source.toList.length) :
    fix.moveCursor cursor = .ok (fix.carried cursor) := by
  cases fix with
  | insert info place text =>
    by_cases hbefore : cursor < place
    · simp [moveCursor, carried, position, hbefore]
    · have hfits : cursor + text.toList.length < offsetLimit :=
        Nat.lt_of_le_of_lt (Nat.add_le_add_right hcursor _) h
      rw [moveCursor, if_neg hbefore, addOffsets, if_pos hfits]
      simp [carried, position, stop, inserted, hbefore]
  | remove info place length =>
    have hempty : "".toList.length = 0 := rfl
    by_cases hbefore : cursor < place
    · simp [moveCursor, carried, position, hbefore]
    · by_cases hwithin : cursor < place + length
      · simp [moveCursor, carried, position, stop, hbefore, hwithin]
      · simp only [moveCursor, carried, position, stop, inserted, if_neg hbefore, if_neg hwithin,
          hempty, Nat.add_sub_cancel_left, Nat.add_zero]

theorem apply_eq {cursor : Nat} (h : fix.Fits source) (hcursor : cursor ≤ source.toList.length) :
    fix.apply source cursor = .ok (fix.edited source, fix.carried cursor) := by
  have hmove := moveCursor_eq_carried h hcursor
  cases fix with
  | insert info place text =>
    simp only [apply, hmove]
    rfl
  | remove info place length =>
    have hsum : addOffsets place length = .ok (place + length) := if_pos h
    simp only [apply, hsum, hmove]
    rfl

theorem carried_of_lt {cursor : Nat} (h : cursor < fix.position) : fix.carried cursor = cursor :=
  if_pos h

theorem carried_of_within {cursor : Nat} (hle : fix.position ≤ cursor) (h : cursor < fix.stop) :
    fix.carried cursor = fix.position := by
  rw [carried, if_neg (Nat.not_lt.mpr hle), if_pos h]

theorem carried_of_le {cursor : Nat} (h : fix.stop ≤ cursor) :
    fix.carried cursor
      = cursor - (fix.stop - fix.position) + fix.inserted.toList.length := by
  have hle := fix.position_le_stop
  rw [carried, if_neg (by omega), if_neg (by omega)]

/-- An edit whose range ends behind where it starts puts nothing in. -/
theorem inserted_eq_empty (h : fix.position < fix.stop) : fix.inserted = "" := by
  cases fix with
  | insert info place text => exact absurd h (Nat.lt_irrefl _)
  | remove info place length => rfl

theorem length_edited (fix : Fix) (source : String) :
    (fix.edited source).toList.length = min fix.position source.toList.length
      + (fix.inserted.toList.length + (source.toList.length - fix.stop)) := by
  rw [toList_edited, List.length_append, List.length_append, List.length_take, List.length_drop]

theorem drop_edited {offset : Nat} (hposition : fix.position ≤ source.toList.length)
    (hle : fix.stop ≤ offset) :
    (fix.edited source).toList.drop (fix.carried offset) = source.toList.drop offset := by
  have hfirst : (source.toList.take fix.position ++ fix.inserted.toList).length
      = fix.position + fix.inserted.toList.length := by
    rw [List.length_append, List.length_take, Nat.min_eq_left hposition]
  have hstart := fix.position_le_stop
  have hoffset : fix.carried offset
      = (fix.position + fix.inserted.toList.length) + (offset - fix.stop) := by
    rw [carried_of_le hle]
    omega
  rw [toList_edited, ← List.append_assoc, hoffset, ← hfirst, List.drop_length_add_append,
    List.drop_drop, Nat.add_sub_cancel' hle]

theorem carries_carried (fix : Fix) (source : String) :
    fix.Carries source (fix.edited source) fix.carried where
  inside cursor hcursor := by
    have hlength := fix.length_edited source
    have hle := fix.position_le_stop
    rcases Nat.lt_or_ge cursor fix.position with hbefore | hposition
    · rw [carried_of_lt hbefore, hlength]
      omega
    · rcases Nat.lt_or_ge cursor fix.stop with hwithin | hbehind
      · rw [carried_of_within hposition hwithin, hlength]
        omega
      · rw [carried_of_le hbehind, hlength]
        omega
  before cursor hcursor hbefore := by
    have hlength : cursor ≤ (source.toList.take fix.position).length := by
      rw [List.length_take]
      omega
    rw [carried_of_lt hbefore, toList_edited, List.take_append_of_le_length hlength,
      List.take_take, Nat.min_eq_left (Nat.le_of_lt hbefore)]
  behind cursor hcursor hposition hbehind := by
    have hplace : fix.position ≤ source.toList.length := Nat.le_trans hposition hcursor
    rcases Nat.lt_or_ge cursor fix.stop with hwithin | hstop
    · -- the range reaches past the end, where the cursor stands
      have hend : cursor = source.toList.length := by omega
      have hnothing : fix.inserted = "" := inserted_eq_empty (Nat.lt_of_le_of_lt hposition hwithin)
      have hlength := fix.length_edited source
      rw [hnothing] at hlength
      rw [carried_of_within hposition hwithin, List.drop_eq_nil_of_le, hend, List.drop_length]
      simp only [String.toList_empty, List.length_nil] at hlength
      omega
    · exact drop_edited hplace hstop
  within cursor _ hposition hwithin := carried_of_within hposition hwithin
  monotone cursor next hle _ := by
    have hstart := fix.position_le_stop
    rcases Nat.lt_or_ge next fix.position with hbefore | hposition
    · rw [carried_of_lt hbefore, carried_of_lt (Nat.lt_of_le_of_lt hle hbefore)]
      exact hle
    · have hreaches : fix.position ≤ fix.carried next := by
        rcases Nat.lt_or_ge next fix.stop with hwithin | hbehind
        · exact Nat.le_of_eq (carried_of_within hposition hwithin).symm
        · rw [carried_of_le hbehind]
          omega
      rcases Nat.lt_or_ge cursor fix.position with hfirst | hinside
      · rw [carried_of_lt hfirst]
        omega
      · rcases Nat.lt_or_ge cursor fix.stop with hwithin | hbehind
        · rwa [carried_of_within hinside hwithin]
        · rw [carried_of_le hbehind, carried_of_le (Nat.le_trans hbehind hle)]
          omega

/-- **Taking out what was put in** restores the source and the cursor. -/
theorem apply_insert_remove {text : String} {position cursor : Nat} (info info' : String)
    (hfits : (insert info position text).Fits source) (hposition : position ≤ source.toList.length)
    (hcursor : cursor ≤ source.toList.length) :
    ∃ edited moved, (insert info position text).apply source cursor = .ok (edited, moved) ∧
      (remove info' position text.toList.length).apply edited moved = .ok (source, cursor) := by
  have hput := carries_carried (insert info position text) source
  refine ⟨_, _, apply_eq hfits hcursor, ?_⟩
  have hfits' : (remove info' position text.toList.length).Fits
      ((insert info position text).edited source) :=
    Nat.lt_of_le_of_lt (Nat.add_le_add_right hposition _) hfits
  rw [apply_eq hfits' (hput.inside cursor hcursor)]
  have hsource : (remove info' position text.toList.length).edited
      ((insert info position text).edited source) = source := by
    have hbefore : (source.toList.take position).length = position := by
      rw [List.length_take, Nat.min_eq_left hposition]
    have hfirst : (source.toList.take position ++ text.toList).length
        = position + text.toList.length := by
      rw [List.length_append, hbefore]
    simp only [edited, String.toList_ofList]
    rw [← hfirst, List.drop_left, List.append_assoc,
      List.take_append_of_le_length (Nat.le_of_eq hbefore.symm), List.take_take, Nat.min_self,
      List.take_append_drop, String.ofList_toList]
  have hback : (remove info' position text.toList.length).carried
      ((insert info position text).carried cursor) = cursor := by
    rcases Nat.lt_or_ge cursor position with hbefore | hbehind
    · have hsame : (insert info position text).carried cursor = cursor := carried_of_lt hbefore
      rw [hsame]
      exact carried_of_lt hbefore
    · have hmoved : (insert info position text).carried cursor
          = cursor - (position - position) + text.toList.length := carried_of_le hbehind
      have hstop : position + text.toList.length ≤ (insert info position text).carried cursor := by
        omega
      have hsame : (remove info' position text.toList.length).carried _ = _ - (_ - _) + 0 :=
        carried_of_le hstop
      rw [hsame]
      simp only [Fix.position, stop]
      omega
  rw [hsource, hback]

end Fix

/-- **A fix edits the text and the cursor goes along.**  The edited source is the source with the
text of the fix in place of its range, cut off at the end of the source.  The new cursor lies in the
edited source; a cursor before the edit keeps the text before it, one at or behind an insertion or
behind a range that is taken out keeps the text behind it, one inside such a range goes to its
start, and cursors keep their order.  Taking out a text where it was put in restores both. -/
theorem fix_carries_cursor (source : String) :
    (∀ fix : Fix, fix.Fits source → ∃ edited moved,
      (∀ cursor ≤ source.toList.length, fix.apply source cursor = .ok (edited, moved cursor)) ∧
      fix.Replaces source edited ∧ fix.Carries source edited moved) ∧
    ∀ (info info' text : String) (position cursor : Nat),
      (Fix.insert info position text).Fits source → position ≤ source.toList.length →
      cursor ≤ source.toList.length →
      ∃ edited moved, (Fix.insert info position text).apply source cursor = .ok (edited, moved) ∧
        (Fix.remove info' position text.toList.length).apply edited moved = .ok (source, cursor) :=
  ⟨fun fix hfits => ⟨fix.edited source, fix.carried,
    fun _ hcursor => Fix.apply_eq hfits hcursor, fix.replaces_edited source,
    fix.carries_carried source⟩,
  fun info info' _ _ _ hfits hposition hcursor =>
    Fix.apply_insert_remove info info' hfits hposition hcursor⟩

/-- A range that reaches past the end of a text of several bytes a code point, and an insertion that
is taken back. -/
theorem fix_carries_cursor_past_end :
    (Fix.remove "remove" 2 9).Fits "漢字\n書" ∧ (Fix.insert "insert" 2 "é").Fits "漢字\n書" ∧
    (∃ moved, (Fix.remove "remove" 2 9).apply "漢字\n書" 1 = .ok ("漢字", 1) ∧
      (Fix.remove "remove" 2 9).apply "漢字\n書" 4 = .ok ("漢字", moved) ∧ moved = 2) ∧
    ∃ edited moved, (Fix.insert "insert" 2 "é").apply "漢字\n書" 3 = .ok (edited, moved) ∧
      (Fix.remove "remove" 2 1).apply edited moved = .ok ("漢字\n書", 3) := by
  have hremove : (Fix.remove "remove" 2 9).Fits "漢字\n書" := by
    show 2 + 9 < offsetLimit
    decide
  have hinsert : (Fix.insert "insert" 2 "é").Fits "漢字\n書" := by
    show "漢字\n書".toList.length + "é".toList.length < offsetLimit
    decide
  obtain ⟨hedits, hback⟩ := fix_carries_cursor "漢字\n書"
  obtain ⟨edited, moved, happly, -, hcarries⟩ := hedits _ hremove
  have hfirst : (Fix.remove "remove" 2 9).apply "漢字\n書" 1 = .ok ("漢字", 1) := by rfl
  obtain ⟨rfl, -⟩ := Prod.mk.inj (Except.ok.inj ((happly 1 (by decide)).symm.trans hfirst))
  exact ⟨hremove, hinsert, ⟨moved 4, hfirst, happly 4 (by decide),
    hcarries.within 4 (by decide) (by decide) (by decide)⟩,
    hback "insert" "remove" "é" 2 3 hinsert (by decide) (by decide)⟩

end MacroMarkup
