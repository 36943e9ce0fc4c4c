import Mathlib.Data.List.DropRight
import SyntaxWalk.Location

/-!
# Positions of boundaries

Every boundary between two characters of a text has a line, a column and an offset in UTF-16 units.
`Position.offsetIn` finds the byte of the boundary from the line and the column, and the same byte
from the offset (`Position.offsetIn_boundary`).
-/

namespace SyntaxWalk

namespace Text

def lastLine (text : List Char) : List Char := text.rtakeWhile (· ≠ '\n')

def fullLines (text : List Char) : List Char := text.rdropWhile (· ≠ '\n')

def lineAtEnd (text : List Char) : Nat := 1 + text.count '\n'

def columnAtEnd (text : List Char) : Nat := unitLength (lastLine text)

theorem fullLines_append_lastLine (text : List Char) : fullLines text ++ lastLine text = text :=
  List.rdropWhile_append_rtakeWhile

theorem ne_of_mem_lastLine {text : List Char} {c : Char} (h : c ∈ lastLine text) : c ≠ '\n' := by
  simpa using List.mem_rtakeWhile_imp h

theorem count_lastLine (text : List Char) : (lastLine text).count '\n' = 0 :=
  List.count_eq_zero.2 fun h => ne_of_mem_lastLine h rfl

theorem getLast_fullLines {text : List Char} (h : fullLines text ≠ []) :
    (fullLines text).getLast h = '\n' := by
  have hlast := List.rdropWhile_last_not (· ≠ '\n') text h
  simpa [fullLines] using hlast

theorem byteLength_append (before after : List Char) :
    byteLength (before ++ after) = byteLength before + byteLength after := by
  induction before with
  | nil => simp [byteLength]
  | cons c before ih =>
    simp only [List.cons_append, byteLength, ih]
    omega

theorem byteLength_eq_utf8ByteSize (text : List Char) :
    byteLength text = (String.ofList text).utf8ByteSize := by
  induction text with
  | nil => rfl
  | cons c text ih =>
    rw [String.ofList_cons, String.utf8ByteSize_append, String.utf8ByteSize_singleton, byteLength,
      ih]

theorem units_le_utf8Size (c : Char) : units c ≤ c.utf8Size := by
  simp only [units, Char.utf8Size, Char.toNat, UInt32.le_iff_toNat_le, UInt32.toNat_ofNatLT]
  split_ifs <;> omega

theorem unitLength_le_byteLength (text : List Char) : unitLength text ≤ byteLength text := by
  induction text with
  | nil => exact Nat.le_refl 0
  | cons c text ih =>
    have := units_le_utf8Size c
    simp only [unitLength, byteLength]
    omega

theorem count_le_byteLength (text : List Char) : text.count '\n' ≤ byteLength text := by
  induction text with
  | nil => exact Nat.le_refl 0
  | cons c text ih =>
    have := c.utf8Size_pos
    rw [List.count_cons, byteLength]
    split <;> omega

theorem bytesOfUnits_unitLength (before after : List Char) :
    bytesOfUnits (before ++ after) (unitLength before) = byteLength before := by
  induction before with
  | nil => cases after <;> rfl
  | cons c before ih =>
    have hpos : units c + unitLength before ≠ 0 := by
      have := units_pos c
      omega
    rw [List.cons_append, bytesOfUnits, unitLength, if_neg hpos, Nat.add_sub_cancel_left, ih,
      byteLength]

theorem afterLines_count {lines : List Char} (hlines : ∀ h : lines ≠ [], lines.getLast h = '\n')
    (rest : List Char) :
    afterLines (lines.count '\n') (lines ++ rest) = some (byteLength lines, rest) := by
  induction lines with
  | nil => simp [afterLines, byteLength]
  | cons c lines ih =>
    have htail : ∀ h : lines ≠ [], lines.getLast h = '\n' := by
      intro h
      rw [← hlines (List.cons_ne_nil c lines), List.getLast_cons h]
    have ih := ih htail
    by_cases hc : c = '\n'
    · subst hc
      simp [afterLines, ih, byteLength]
    · -- A line that goes on is not the last one, so that there is a line feed still to come.
      have hne : lines ≠ [] := by
        rintro rfl
        exact hc (hlines (List.cons_ne_nil c []))
      have hpos : 0 < lines.count '\n' := by
        apply List.count_pos_iff.2
        rw [← htail hne]
        exact List.getLast_mem hne
      obtain ⟨n, hn⟩ := Nat.exists_eq_succ_of_ne_zero hpos.ne'
      rw [hn] at ih
      simp [hc, hn, afterLines, ih, byteLength]

theorem takeWhile_lastLine (text rest : List Char) :
    (lastLine text ++ rest).takeWhile (· ≠ '\n') =
      lastLine text ++ rest.takeWhile (· ≠ '\n') := by
  apply List.takeWhile_append_of_pos
  intro c hc
  simpa using ne_of_mem_lastLine hc

theorem count_fullLines (text : List Char) : (fullLines text).count '\n' = text.count '\n' := by
  conv_rhs => rw [← fullLines_append_lastLine text]
  rw [List.count_append, count_lastLine, Nat.add_zero]

theorem afterLines_append (before after : List Char) :
    afterLines (before.count '\n') (before ++ after) =
      some (byteLength (fullLines before), lastLine before ++ after) := by
  have hsplit : before ++ after = fullLines before ++ (lastLine before ++ after) := by
    rw [← List.append_assoc, fullLines_append_lastLine]
  rw [hsplit, ← count_fullLines, afterLines_count getLast_fullLines]

theorem columnAtEnd_le_byteLength (text : List Char) : columnAtEnd text ≤ byteLength text := by
  have hline := unitLength_le_byteLength (lastLine text)
  have hlength := byteLength_append (fullLines text) (lastLine text)
  rw [fullLines_append_lastLine] at hlength
  unfold columnAtEnd
  omega

end Text

namespace Position

open Text (lineAtEnd columnAtEnd unitLength byteLength)

theorem offsetIn_of_offset {line column units : UInt64} {before after : List Char}
    (h : units.toNat = unitLength before) :
    offsetIn ⟨line, column, some units⟩ (String.ofList (before ++ after)) = byteLength before := by
  simp only [offsetIn, String.toList_ofList, h]
  exact Text.bytesOfUnits_unitLength before after

theorem offsetIn_of_line {line column : UInt64} {before after : List Char}
    (hline : line.toNat = lineAtEnd before) (hcolumn : column.toNat = columnAtEnd before) :
    offsetIn ⟨line, column, none⟩ (String.ofList (before ++ after)) = byteLength before := by
  have hfeeds : line.toNat - 1 = before.count '\n' := by
    rw [hline, lineAtEnd, Nat.add_sub_cancel_left]
  simp only [offsetIn, String.toList_ofList, hfeeds, Text.afterLines_append, hcolumn, columnAtEnd]
  rw [Text.takeWhile_lastLine, Text.bytesOfUnits_unitLength, ← Text.byteLength_append,
    Text.fullLines_append_lastLine]

/-- The byte of a boundary is found from its line and column, and from its offset whatever line and
column come with it. The three numbers are words in any text of fewer than `2^64 - 1` bytes. -/
theorem offsetIn_boundary (before after : String) :
    (∀ line column : UInt64, line.toNat = lineAtEnd before.toList →
      column.toNat = columnAtEnd before.toList →
      offsetIn ⟨line, column, none⟩ (before ++ after) = before.utf8ByteSize) ∧
    (∀ line column units : UInt64, units.toNat = unitLength before.toList →
      offsetIn ⟨line, column, some units⟩ (before ++ after) = before.utf8ByteSize) ∧
    (before.utf8ByteSize < 0xffffffffffffffff → ∃ line column units : UInt64,
      line.toNat = lineAtEnd before.toList ∧ column.toNat = columnAtEnd before.toList ∧
      units.toNat = unitLength before.toList) := by
  have hbytes : byteLength before.toList = before.utf8ByteSize := by
    rw [Text.byteLength_eq_utf8ByteSize, String.ofList_toList]
  have htext : before ++ after = String.ofList (before.toList ++ after.toList) := by
    rw [String.ofList_append, String.ofList_toList, String.ofList_toList]
  rw [htext, ← hbytes]
  refine ⟨fun line column hline hcolumn => offsetIn_of_line hline hcolumn,
    fun line column units hunits => offsetIn_of_offset hunits, fun hsize => ?_⟩
  have hfeeds := Text.count_le_byteLength before.toList
  have hunits := Text.unitLength_le_byteLength before.toList
  have hcolumn := Text.columnAtEnd_le_byteLength before.toList
  have hword : ∀ n : Nat, n < 0x10000000000000000 → (UInt64.ofNat n).toNat = n :=
    fun n hn => UInt64.toNat_ofNat_of_lt' hn
  refine ⟨.ofNat (lineAtEnd before.toList), .ofNat (columnAtEnd before.toList),
    .ofNat (unitLength before.toList), hword _ ?_, hword _ ?_, hword _ ?_⟩
  · unfold lineAtEnd
    omega
  · omega
  · omega

theorem offsetIn_boundary_surrogates :
    offsetIn ⟨2, 2, none⟩ ("é\n😀" ++ "x") = 7 ∧ offsetIn ⟨9, 9, some 4⟩ ("é\n😀" ++ "x") = 7 := by
  obtain ⟨hline, hoffset, -⟩ := offsetIn_boundary "é\n😀" "x"
  have hsize : "é\n😀".utf8ByteSize = 7 := by decide
  rw [hsize] at hline hoffset
  exact ⟨hline 2 2 (by decide) (by decide), hoffset 9 9 4 (by decide)⟩

end Position

end SyntaxWalk
