import SyntaxWalk.Proofs.Positions

/-!
# Valid slices

Locations come unchecked, so that their numbers may lie anywhere. Whatever they are, a position is
put on a boundary between two characters, inside the line that it names if there is one, and later
numbers never give an earlier byte. A location therefore always gives a slice of its source
(`Loc.byteSpan_valid`).
-/

namespace SyntaxWalk

namespace Text

/-- A line of the text, counted from one, with what comes before it and after it. -/
structure IsLine (text : List Char) (number : Nat) (before line after : List Char) : Prop where
  split : text = before ++ (line ++ after)
  number_eq : number = lineAtEnd before
  begins : ∀ h : before ≠ [], before.getLast h = '\n'
  unbroken : ∀ c ∈ line, c ≠ '\n'
  ends : ∀ h : after ≠ [], after.head h = '\n'

theorem unitLength_append (before after : List Char) :
    unitLength (before ++ after) = unitLength before + unitLength after := by
  induction before with
  | nil => simp [unitLength]
  | cons c before ih =>
    simp only [List.cons_append, unitLength, ih]
    omega

theorem bytesOfUnits_zero (text : List Char) : bytesOfUnits text 0 = 0 := by
  cases text <;> rfl

theorem bytesOfUnits_mono (text : List Char) {m n : Nat} (h : m ≤ n) :
    bytesOfUnits text m ≤ bytesOfUnits text n := by
  induction text generalizing m n with
  | nil => exact Nat.le_refl 0
  | cons c text ih =>
    have hrest := ih (Nat.sub_le_sub_right h (units c))
    simp only [bytesOfUnits]
    split_ifs <;> omega

theorem bytesOfUnits_append {before : List Char} {n : Nat} (h : unitLength before ≤ n)
    (after : List Char) : bytesOfUnits (before ++ after) n =
      byteLength before + bytesOfUnits after (n - unitLength before) := by
  induction before generalizing n with
  | nil => simp [byteLength, unitLength]
  | cons c before ih =>
    have hpos := units_pos c
    rw [unitLength] at h
    have hrest := ih (n := n - units c) (by omega)
    rw [List.cons_append, bytesOfUnits, if_neg (by omega), hrest, byteLength, unitLength,
      Nat.add_assoc, Nat.sub_add_eq]

/-- A count of units that ends inside a character is taken to the end of that character. -/
theorem bytesOfUnits_inside {before after : List Char} {c : Char} {n : Nat}
    (hafter : unitLength before < n) (hupto : n ≤ unitLength (before ++ [c])) :
    bytesOfUnits (before ++ c :: after) n = byteLength (before ++ [c]) := by
  have hunits : unitLength (before ++ [c]) = unitLength before + units c := unitLength_append ..
  rw [bytesOfUnits_append hafter.le, bytesOfUnits, if_neg (by omega),
    show n - unitLength before - units c = 0 by omega, bytesOfUnits_zero, byteLength_append]
  rfl

theorem bytesOfUnits_split (text : List Char) (n : Nat) :
    ∃ before after, text = before ++ after ∧ bytesOfUnits text n = byteLength before := by
  induction text generalizing n with
  | nil => exact ⟨[], [], rfl, rfl⟩
  | cons c text ih =>
    by_cases hn : n = 0
    · exact ⟨[], c :: text, rfl, by rw [bytesOfUnits, if_pos hn]; rfl⟩
    · obtain ⟨before, after, rfl, hbytes⟩ := ih (n - units c)
      exact ⟨c :: before, after, rfl, by rw [bytesOfUnits, if_neg hn, hbytes, byteLength]⟩

theorem byteLength_isValid {source : String} {before after : List Char}
    (h : source.toList = before ++ after) :
    (String.Pos.Raw.mk (byteLength before)).IsValid source := by
  rw [String.Pos.Raw.isValid_iff_exists_append]
  refine ⟨.ofList before, .ofList after, ?_, ?_⟩
  · rw [← String.ofList_append, ← h, String.ofList_toList]
  · rw [byteLength_eq_utf8ByteSize]
    rfl

theorem afterLines_eq_none {text : List Char} {n : Nat} :
    afterLines n text = none ↔ text.count '\n' < n := by
  induction text generalizing n with
  | nil => cases n <;> simp [afterLines]
  | cons c text ih =>
    cases n with
    | zero => simp [afterLines]
    | succ n =>
      rw [afterLines, Option.map_eq_none_iff, ih]
      by_cases hc : c = '\n'
      · simp [hc]
      · simp [hc]

theorem takeWhile_line {line after : List Char} (hline : ∀ c ∈ line, c ≠ '\n')
    (hafter : ∀ h : after ≠ [], after.head h = '\n') :
    (line ++ after).takeWhile (· ≠ '\n') = line := by
  rw [List.takeWhile_append_of_pos fun c hc => by simpa using hline c hc]
  cases after with
  | nil => simp
  | cons c after =>
    have hc : c = '\n' := hafter (List.cons_ne_nil c after)
    simp [hc]

theorem IsLine.afterLines {text before line after : List Char} {number : Nat}
    (h : IsLine text number before line after) :
    Text.afterLines (number - 1) text = some (byteLength before, line ++ after) := by
  rw [h.split, h.number_eq, lineAtEnd, Nat.add_sub_cancel_left]
  exact afterLines_count h.begins (line ++ after)

theorem of_afterLines_eq_some {text rest : List Char} {n bytes : Nat}
    (h : afterLines n text = some (bytes, rest)) :
    ∃ before, text = before ++ rest ∧ before.count '\n' = n ∧
      ∀ h : before ≠ [], before.getLast h = '\n' := by
  induction text generalizing n bytes with
  | nil =>
    cases n with
    | zero =>
      cases h
      exact ⟨[], rfl, rfl, fun h => absurd rfl h⟩
    | succ n => cases h
  | cons c text ih =>
    cases n with
    | zero =>
      cases h
      exact ⟨[], rfl, rfl, fun h => absurd rfl h⟩
    | succ n =>
      rw [afterLines] at h
      obtain ⟨⟨bytes', rest'⟩, hrest, hmap⟩ := Option.map_eq_some_iff.1 h
      cases hmap
      obtain ⟨before, rfl, hcount, hlast⟩ := ih hrest
      refine ⟨c :: before, rfl, ?_, fun h => ?_⟩
      · rw [List.count_cons, hcount]
        by_cases hc : c = '\n' <;> simp [hc]
      · cases before with
        | nil =>
          -- Nothing follows in the lines passed over, so that this is the last line feed.
          by_contra hc
          rw [if_neg (by simpa using hc)] at hcount
          cases hcount
        | cons d before => exact hlast (List.cons_ne_nil d before)

theorem exists_isLine {text : List Char} {number : Nat} (hpos : 0 < number)
    (h : number ≤ lineAtEnd text) :
    ∃ before line after, IsLine text number before line after := by
  rw [lineAtEnd] at h
  have hsome : afterLines (number - 1) text ≠ none := by
    rw [Ne, afterLines_eq_none]
    omega
  obtain ⟨⟨bytes, rest⟩, hrest⟩ := Option.ne_none_iff_exists'.1 hsome
  obtain ⟨before, hsplit, hcount, hbegins⟩ := of_afterLines_eq_some hrest
  refine ⟨before, rest.takeWhile (· ≠ '\n'), rest.dropWhile (· ≠ '\n'), ?_, ?_, hbegins, ?_, ?_⟩
  · rw [List.takeWhile_append_dropWhile, hsplit]
  · rw [lineAtEnd, hcount]
    omega
  · intro c hc
    simpa using List.mem_takeWhile_imp hc
  · intro h
    simpa using List.head_dropWhile_not (· ≠ '\n') h

namespace IsLine

variable {text before line after : List Char} {number : Nat}

theorem le_lineAtEnd (h : IsLine text number before line after) : number ≤ lineAtEnd text := by
  rw [h.number_eq, h.split, lineAtEnd, lineAtEnd, List.count_append]
  omega

theorem isPrefix (h : IsLine text number before line after) : before ++ line <+: text :=
  ⟨after, by rw [h.split, List.append_assoc]⟩

theorem lineAtEnd_line (h : IsLine text number before line after) :
    lineAtEnd (before ++ line) = number := by
  have hline : line.count '\n' = 0 := List.count_eq_zero.2 fun hmem => h.unbroken _ hmem rfl
  rw [h.number_eq, lineAtEnd, lineAtEnd, List.count_append, hline, Nat.add_zero]

theorem ends_before {number' : Nat} {before' line' after' : List Char}
    (h : IsLine text number before line after) (h' : IsLine text number' before' line' after')
    (hlt : number < number') : byteLength (before ++ line) ≤ byteLength before' := by
  have hbefore' : before' <+: text := ⟨line' ++ after', h'.split.symm⟩
  rcases List.prefix_or_prefix_of_prefix h.isPrefix hbefore' with ⟨rest, hrest⟩ | hle
  · rw [← hrest, byteLength_append (before ++ line) rest]
    exact Nat.le_add_right _ _
  · have hcount := hle.count_le '\n'
    have hend := h.lineAtEnd_line
    have hnumber' := h'.number_eq
    rw [lineAtEnd] at hend hnumber'
    omega

end IsLine

end Text

namespace Position

open Text (IsLine byteLength unitLength lineAtEnd)

def lineNumber (p : Position) : Nat := max p.line.toNat 1

def NotAfter (p q : Position) : Prop := p.line < q.line ∨ (p.line = q.line ∧ p.column ≤ q.column)

variable {p q : Position} {source : String}

theorem lineNumber_sub_one (p : Position) : p.lineNumber - 1 = p.line.toNat - 1 := by
  unfold lineNumber
  omega

theorem offsetIn_of_some {offset : UInt64} (h : p.offset = some offset) :
    p.offsetIn source = Text.bytesOfUnits source.toList offset.toNat := by
  simp only [offsetIn, h]

theorem offsetIn_of_isLine (hp : p.offset = none) {before line after : List Char}
    (h : IsLine source.toList p.lineNumber before line after) :
    p.offsetIn source = byteLength before + Text.bytesOfUnits line p.column.toNat := by
  have hlines := h.afterLines
  rw [lineNumber_sub_one] at hlines
  simp only [offsetIn, hp, hlines, Text.takeWhile_line h.unbroken h.ends]

theorem offsetIn_of_no_line (hp : p.offset = none) (h : lineAtEnd source.toList < p.lineNumber) :
    p.offsetIn source = byteLength source.toList := by
  have hnone : Text.afterLines (p.line.toNat - 1) source.toList = none := by
    rw [Text.afterLines_eq_none, ← lineNumber_sub_one]
    rw [lineAtEnd] at h
    omega
  simp only [offsetIn, hp, hnone]

/-- Every position is at the end of some beginning of the source. -/
theorem offsetIn_split (p : Position) (source : String) :
    ∃ before after, source.toList = before ++ after ∧ p.offsetIn source = byteLength before := by
  cases hp : p.offset with
  | some offset =>
    rw [offsetIn_of_some hp]
    exact Text.bytesOfUnits_split _ _
  | none =>
    rcases Nat.lt_or_ge (lineAtEnd source.toList) p.lineNumber with hnone | hline
    · exact ⟨source.toList, [], (List.append_nil _).symm, offsetIn_of_no_line hp hnone⟩
    · obtain ⟨before, line, after, hl⟩ := Text.exists_isLine (by unfold lineNumber; omega) hline
      obtain ⟨left, right, rfl, hbytes⟩ := Text.bytesOfUnits_split line p.column.toNat
      refine ⟨before ++ left, right ++ after, ?_, ?_⟩
      · simpa using hl.split
      · rw [offsetIn_of_isLine hp hl, hbytes, Text.byteLength_append]

theorem offsetIn_isValid (p : Position) (source : String) :
    (String.Pos.Raw.mk (p.offsetIn source)).IsValid source := by
  obtain ⟨before, after, hsplit, hbytes⟩ := offsetIn_split p source
  rw [hbytes]
  exact Text.byteLength_isValid hsplit

theorem offsetIn_le (p : Position) (source : String) : p.offsetIn source ≤ source.utf8ByteSize :=
  (offsetIn_isValid p source).le_rawEndPos

theorem offsetIn_between (hp : p.offset = none) {before line after : List Char}
    (h : IsLine source.toList p.lineNumber before line after) :
    byteLength before ≤ p.offsetIn source ∧ p.offsetIn source ≤ byteLength (before ++ line) := by
  have hbytes := Text.bytesOfUnits_le line p.column.toNat
  rw [offsetIn_of_isLine hp h, Text.byteLength_append]
  omega

theorem offsetIn_inside_offset {offset : UInt64} (hp : p.offset = some offset)
    {before after : List Char} {c : Char} (hsource : source.toList = before ++ c :: after)
    (hafter : unitLength before < offset.toNat)
    (hupto : offset.toNat ≤ unitLength (before ++ [c])) :
    p.offsetIn source = byteLength (before ++ [c]) := by
  rw [offsetIn_of_some hp, hsource, Text.bytesOfUnits_inside hafter hupto]

theorem offsetIn_inside_column (hp : p.offset = none) {before left right after : List Char}
    {c : Char} (h : IsLine source.toList p.lineNumber before (left ++ c :: right) after)
    (hafter : unitLength left < p.column.toNat)
    (hupto : p.column.toNat ≤ unitLength (left ++ [c])) :
    p.offsetIn source = byteLength (before ++ (left ++ [c])) := by
  rw [offsetIn_of_isLine hp h, Text.bytesOfUnits_inside hafter hupto,
    ← Text.byteLength_append before]

theorem offsetIn_mono_offset {m n : UInt64} (hp : p.offset = some m) (hq : q.offset = some n)
    (h : m ≤ n) : p.offsetIn source ≤ q.offsetIn source := by
  rw [offsetIn_of_some hp, offsetIn_of_some hq]
  exact Text.bytesOfUnits_mono _ (UInt64.le_iff_toNat_le.1 h)

theorem offsetIn_mono_column (hp : p.offset = none) (hq : q.offset = none) (hline : p.line = q.line)
    (hcolumn : p.column ≤ q.column) : p.offsetIn source ≤ q.offsetIn source := by
  have hnumber : p.lineNumber = q.lineNumber := by rw [lineNumber, lineNumber, hline]
  rcases Nat.lt_or_ge (lineAtEnd source.toList) q.lineNumber with hnone | hle
  · rw [offsetIn_of_no_line hp (hnumber ▸ hnone), offsetIn_of_no_line hq hnone]
  · obtain ⟨before, line, after, hl⟩ := Text.exists_isLine (by unfold lineNumber; omega) hle
    rw [offsetIn_of_isLine hp (hnumber ▸ hl), offsetIn_of_isLine hq hl]
    exact Nat.add_le_add_left
      (Text.bytesOfUnits_mono line (UInt64.le_iff_toNat_le.1 hcolumn)) _

theorem offsetIn_mono_line (hp : p.offset = none) (hq : q.offset = none) (hpos : 1 ≤ p.line)
    (hline : p.line < q.line) : p.offsetIn source ≤ q.offsetIn source := by
  have hpos : 1 ≤ p.line.toNat := UInt64.le_iff_toNat_le.1 hpos
  have hline : p.line.toNat < q.line.toNat := UInt64.lt_iff_toNat_lt.1 hline
  have hnumber : p.lineNumber < q.lineNumber := by
    unfold lineNumber
    omega
  rcases Nat.lt_or_ge (lineAtEnd source.toList) q.lineNumber with hnone | hle
  · rw [offsetIn_of_no_line hq hnone, Text.byteLength_eq_utf8ByteSize, String.ofList_toList]
    exact offsetIn_le p source
  · obtain ⟨before', line', after', hl'⟩ := Text.exists_isLine (by unfold lineNumber; omega) hle
    have hle : p.lineNumber ≤ lineAtEnd source.toList := hnumber.le.trans hle
    obtain ⟨before, line, after, hl⟩ := Text.exists_isLine (by unfold lineNumber; omega) hle
    calc
      p.offsetIn source ≤ byteLength (before ++ line) := (offsetIn_between hp hl).2
      _ ≤ byteLength before' := hl.ends_before hl' hnumber
      _ ≤ q.offsetIn source := (offsetIn_between hq hl').1

theorem offsetIn_mono (hp : p.offset = none) (hq : q.offset = none) (hpos : 1 ≤ p.line)
    (h : p.NotAfter q) : p.offsetIn source ≤ q.offsetIn source := by
  rcases h with hline | ⟨hline, hcolumn⟩
  · exact offsetIn_mono_line hp hq hpos hline
  · exact offsetIn_mono_column hp hq hline hcolumn

end Position

namespace Loc

open Text (IsLine byteLength unitLength)

/-- Every position is a boundary of the source, on the line that it names or at the end of the
source; inside a surrogate pair it is the end of the pair. Positions keep their order, by offset or
by line and column. So every location is a slice, which ends where its end position is if both
positions go by line and column and are in order. -/
theorem byteSpan_valid (source : String) :
    (∀ p : Position, (String.Pos.Raw.mk (p.offsetIn source)).IsValid source ∧
      p.offsetIn source ≤ source.utf8ByteSize) ∧
    (∀ p : Position, p.offset = none →
      (∀ before line after, IsLine source.toList p.lineNumber before line after →
        byteLength before ≤ p.offsetIn source ∧ p.offsetIn source ≤ byteLength (before ++ line)) ∧
      ((¬ ∃ before line after, IsLine source.toList p.lineNumber before line after) →
        p.offsetIn source = source.utf8ByteSize)) ∧
    (∀ (p q : Position) (m n : UInt64), p.offset = some m → q.offset = some n → m ≤ n →
      p.offsetIn source ≤ q.offsetIn source) ∧
    (∀ p q : Position, p.offset = none → q.offset = none → 1 ≤ p.line → p.NotAfter q →
      p.offsetIn source ≤ q.offsetIn source) ∧
    (∀ (p : Position) (offset : UInt64) (before after : List Char) (c : Char),
      p.offset = some offset → source.toList = before ++ c :: after →
      unitLength before < offset.toNat → offset.toNat ≤ unitLength (before ++ [c]) →
      p.offsetIn source = byteLength (before ++ [c])) ∧
    (∀ (p : Position) (before left right after : List Char) (c : Char), p.offset = none →
      IsLine source.toList p.lineNumber before (left ++ c :: right) after →
      unitLength left < p.column.toNat → p.column.toNat ≤ unitLength (left ++ [c]) →
      p.offsetIn source = byteLength (before ++ (left ++ [c]))) ∧
    (∀ l : Loc, (l.byteSpan source).start ≤ (l.byteSpan source).stop ∧
      (String.Pos.Raw.mk (l.byteSpan source).start).IsValid source ∧
      (String.Pos.Raw.mk (l.byteSpan source).stop).IsValid source ∧
      (l.start.offset = none → l.stop.offset = none → 1 ≤ l.start.line → 1 ≤ l.stop.line →
        l.start.NotAfter l.stop → (l.byteSpan source).stop = l.stop.offsetIn source)) := by
  refine ⟨fun p => ⟨p.offsetIn_isValid source, p.offsetIn_le source⟩, fun p hp => ⟨?_, ?_⟩,
    fun p q m n => Position.offsetIn_mono_offset, fun p q => Position.offsetIn_mono,
    fun p offset before after c hp => Position.offsetIn_inside_offset hp,
    fun p before left right after c hp => Position.offsetIn_inside_column hp,
    fun l => ⟨?_, ?_, ?_, ?_⟩⟩
  · exact fun before line after => Position.offsetIn_between hp
  · intro hnone
    have hlate : Text.lineAtEnd source.toList < p.lineNumber := by
      by_contra hle
      exact hnone (Text.exists_isLine (by unfold Position.lineNumber; omega) (Nat.le_of_not_lt hle))
    rw [Position.offsetIn_of_no_line hp hlate, Text.byteLength_eq_utf8ByteSize,
      String.ofList_toList]
  · exact l.byteSpan_start_le_stop source
  · exact l.start.offsetIn_isValid source
  · -- The end is that of one of the two positions.
    rcases Nat.le_total (l.stop.offsetIn source) (l.start.offsetIn source) with h | h
    · rw [byteSpan, Nat.max_eq_right h]
      exact l.start.offsetIn_isValid source
    · rw [byteSpan, Nat.max_eq_left h]
      exact l.stop.offsetIn_isValid source
  · intro hstart hstop hpos _ horder
    exact Nat.max_eq_left (Position.offsetIn_mono hstart hstop hpos horder)

theorem emoji_isLine : IsLine "a\n😀".toList 2 ['a', '\n'] ['😀'] [] where
  split := rfl
  number_eq := rfl
  begins _ := rfl
  unbroken c hc := by
    rw [List.mem_singleton.1 hc]
    decide
  ends h := absurd rfl h

theorem byteSpan_valid_emoji :
    (Position.mk 2 1 none).offsetIn "a\n😀" = 6 ∧ (Position.mk 9 9 (some 3)).offsetIn "a\n😀" = 6 ∧
    (2 ≤ (Position.mk 2 7 none).offsetIn "a\n😀" ∧ (Position.mk 2 7 none).offsetIn "a\n😀" ≤ 6) ∧
    (Position.mk 3 0 none).offsetIn "a\n😀" = 6 ∧
    (Position.mk 9 9 (some 1)).offsetIn "a\n😀" ≤ (Position.mk 0 0 (some 2)).offsetIn "a\n😀" ∧
    (Position.mk 1 5 none).offsetIn "a\n😀" ≤ (Position.mk 2 0 none).offsetIn "a\n😀" ∧
    (Loc.byteSpan ⟨⟨1, 1, none⟩, ⟨2, 1, none⟩⟩ "a\n😀").stop =
      (Position.mk 2 1 none).offsetIn "a\n😀" := by
  obtain ⟨-, hline, hoffset, horder, hinside, hcolumn, hspan⟩ := byteSpan_valid "a\n😀"
  refine ⟨?_, ?_, ?_, ?_, ?_, ?_, ?_⟩
  · exact hcolumn ⟨2, 1, none⟩ ['a', '\n'] [] [] [] '😀' rfl emoji_isLine (by decide) (by decide)
  · exact hinside ⟨9, 9, some 3⟩ 3 ['a', '\n'] [] '😀' rfl rfl (by decide) (by decide)
  · exact (hline ⟨2, 7, none⟩ rfl).1 _ _ _ emoji_isLine
  · refine (hline ⟨3, 0, none⟩ rfl).2 fun ⟨before, line, after, h⟩ => ?_
    exact absurd h.le_lineAtEnd (by decide)
  · exact hoffset ⟨9, 9, some 1⟩ ⟨0, 0, some 2⟩ 1 2 rfl rfl (by decide)
  · exact horder ⟨1, 5, none⟩ ⟨2, 0, none⟩ rfl rfl (by decide) (.inl (by decide))
  · exact (hspan ⟨⟨1, 1, none⟩, ⟨2, 1, none⟩⟩).2.2.2 rfl rfl (by decide) (by decide)
      (.inl (by decide))

end Loc

end SyntaxWalk
