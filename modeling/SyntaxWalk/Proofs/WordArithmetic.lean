import SyntaxWalk.Diagnostic.Excerpt
import SyntaxWalk.Lint
import SyntaxWalk.Proofs.PrintedTree
import SyntaxWalk.Proofs.ValidSlices

/-!
# Diagnostics in machine words

The numbers of a location are words, and so are the sums that a diagnostic is made with. Here those
sums are carried out one by one and each has to be a word. Where a position lies in its source is
found without leaving the words, whatever the numbers are; the column that is shown, counted from
one, is a word unless the column is the greatest one, and then nothing is shown
(`words_suffice_iff`).
-/

namespace SyntaxWalk

namespace Word

theorem toNat_add? (a b : UInt64) : (add? a b).map UInt64.toNat =
    if a.toNat + b.toNat < UInt64.size then some (a.toNat + b.toNat) else none := by
  unfold add?
  split
  · rename_i h
    rw [Option.map_some, UInt64.toNat_add, Nat.mod_eq_of_lt h]
  · rfl

theorem add?_of_lt {a b : UInt64} (h : a.toNat + b.toNat < UInt64.size) :
    ∃ sum, add? a b = some sum ∧ sum.toNat = a.toNat + b.toNat := by
  have hsum := toNat_add? a b
  rw [if_pos h] at hsum
  exact Option.map_eq_some_iff.mp hsum

theorem toNat_max (a b : UInt64) : (max a b).toNat = max a.toNat b.toNat := by
  change (if a ≤ b then b else a).toNat = _
  by_cases hle : a ≤ b
  · rw [if_pos hle, Nat.max_eq_right (UInt64.le_iff_toNat_le.mp hle)]
  · rw [if_neg hle, Nat.max_eq_left]
    exact Nat.le_of_not_le fun h => hle (UInt64.le_iff_toNat_le.mpr h)

end Word

namespace Text

def measure (step gain : Char → Nat) : List Char → Nat → Nat
  | [], _ => 0
  | c :: text, n => if n = 0 then 0 else gain c + measure step gain text (n - step c)

theorem bytesOfUnits_eq_measure (text : List Char) (n : Nat) :
    bytesOfUnits text n = measure units Char.utf8Size text n := by
  induction text generalizing n with
  | nil => rfl
  | cons c text ih => rw [bytesOfUnits, measure, ih]

theorem charsOfBytes_eq_measure (text : List Char) (n : Nat) :
    charsOfBytes text n = measure Char.utf8Size (fun _ => 1) text n := by
  induction text generalizing n with
  | nil => rfl
  | cons c text ih => rw [charsOfBytes, measure, ih]

def measure? (step gain : Char → Nat) (stop : UInt64) :
    UInt64 → UInt64 → List Char → Option UInt64
  | _, gained, [] => some gained
  | passed, gained, c :: text =>
    if stop ≤ passed then some gained
    else do
      let passed ← Word.add? passed (.ofNat (step c))
      let gained ← Word.add? gained (.ofNat (gain c))
      measure? step gain stop passed gained text

theorem utf8Size_lt_size (c : Char) : c.utf8Size < UInt64.size :=
  Nat.lt_of_le_of_lt c.utf8Size_le_four (by decide)

theorem measure?_eq {step gain : Char → Nat} (hstep : ∀ c, step c ≤ c.utf8Size)
    (hgain : ∀ c, gain c ≤ c.utf8Size) (stop : UInt64) {passed gained : UInt64} {text : List Char}
    (hpassed : passed.toNat + byteLength text < UInt64.size)
    (hgained : gained.toNat + byteLength text < UInt64.size) :
    (measure? step gain stop passed gained text).map UInt64.toNat =
      some (gained.toNat + measure step gain text (stop.toNat - passed.toNat)) := by
  induction text generalizing passed gained with
  | nil => rfl
  | cons c text ih =>
    rw [measure?, measure]
    by_cases hstop : stop ≤ passed
    · have hzero : stop.toNat - passed.toNat = 0 := Nat.sub_eq_zero_of_le hstop
      rw [if_pos hstop, if_pos hzero]
      rfl
    · have hpos : stop.toNat - passed.toNat ≠ 0 := by
        rw [UInt64.le_iff_toNat_le] at hstop
        omega
      have hs := hstep c
      have hg := hgain c
      have hc := utf8Size_lt_size c
      rw [byteLength] at hpassed hgained
      have hstepWord : (UInt64.ofNat (step c)).toNat = step c :=
        UInt64.toNat_ofNat_of_lt' (by omega)
      have hgainWord : (UInt64.ofNat (gain c)).toNat = gain c :=
        UInt64.toNat_ofNat_of_lt' (by omega)
      obtain ⟨passed', hpassed', hp⟩ := Word.add?_of_lt (a := passed) (b := .ofNat (step c))
        (by omega)
      obtain ⟨gained', hgained', hg'⟩ := Word.add?_of_lt (a := gained) (b := .ofNat (gain c))
        (by omega)
      rw [if_neg hstop, if_neg hpos, hpassed', hgained']
      have hpassed : passed'.toNat + byteLength text < UInt64.size := by omega
      have hgained : gained'.toNat + byteLength text < UInt64.size := by omega
      refine (ih hpassed hgained).trans ?_
      rw [hp, hg', hstepWord, hgainWord, Nat.sub_add_eq, Nat.add_assoc]

def lineStart? (target : UInt64) : UInt64 → UInt64 → List Char →
    Option (Option (UInt64 × List Char))
  | _, _, [] => some none
  | line, start, c :: text => do
    let start ← Word.add? start (.ofNat c.utf8Size)
    if c = '\n' then
      let line ← Word.add? line 1
      if line = target then return some (start, text) else lineStart? target line start text
    else lineStart? target line start text

theorem afterLines_cons (n : Nat) (c : Char) (text : List Char) (start : Nat) :
    ((afterLines (n + 1) (c :: text)).map fun found => (start + found.1, found.2)) =
      (afterLines (if c = '\n' then n else n + 1) text).map fun found =>
        (start + c.utf8Size + found.1, found.2) := by
  rw [afterLines, Option.map_map]
  congr 1
  funext found
  exact Prod.ext (Nat.add_assoc ..).symm rfl

theorem lineStart?_eq {target line start : UInt64} {text : List Char} (hline : line < target)
    (hstart : start.toNat + byteLength text < UInt64.size) :
    (lineStart? target line start text).map (Option.map fun found => (found.1.toNat, found.2)) =
      some ((afterLines (target.toNat - line.toNat) text).map fun found =>
        (start.toNat + found.1, found.2)) := by
  induction text generalizing line start with
  | nil =>
    rw [UInt64.lt_iff_toNat_lt] at hline
    obtain ⟨n, hn⟩ := Nat.exists_eq_succ_of_ne_zero (Nat.sub_ne_zero_of_lt hline)
    rw [hn]
    rfl
  | cons c text ih =>
    rw [UInt64.lt_iff_toNat_lt] at hline
    obtain ⟨n, hn⟩ := Nat.exists_eq_succ_of_ne_zero (Nat.sub_ne_zero_of_lt hline)
    have hsize : (UInt64.ofNat c.utf8Size).toNat = c.utf8Size :=
      UInt64.toNat_ofNat_of_lt' (utf8Size_lt_size c)
    rw [byteLength] at hstart
    obtain ⟨start', hstart', hs⟩ := Word.add?_of_lt (a := start) (b := .ofNat c.utf8Size)
      (by omega)
    rw [hsize] at hs
    rw [hn, afterLines_cons, ← hs, lineStart?, hstart']
    by_cases hc : c = '\n'
    · -- The line number goes up to the target and no further.
      have hbound := target.toNat_lt_size
      obtain ⟨line', hline', hl⟩ := Word.add?_of_lt (a := line) (b := 1)
        (show line.toNat + 1 < UInt64.size by omega)
      have hl : line'.toNat = line.toNat + 1 := hl
      simp only [hc, if_true, hline', Option.bind_eq_bind, Option.bind_some]
      by_cases htarget : line' = target
      · have hzero : n = 0 := by
          rw [htarget] at hl
          omega
        rw [if_pos htarget, hzero, afterLines]
        rfl
      · have hne : line'.toNat ≠ target.toNat := fun h => htarget (UInt64.toNat_inj.mp h)
        have hnext : n = target.toNat - line'.toNat := by omega
        rw [if_neg htarget, hnext]
        exact ih (UInt64.lt_iff_toNat_lt.mpr (by omega)) (by omega)
    · have hsame : n + 1 = target.toNat - line.toNat := hn.symm
      simp only [hc, if_false, Option.bind_eq_bind, Option.bind_some, hsame]
      exact ih (UInt64.lt_iff_toNat_lt.mpr hline) (by omega)

def bytesOfUnits? (stop : UInt64) (text : List Char) : Option UInt64 :=
  measure? units Char.utf8Size stop 0 0 text

def charsOfBytes? (stop : UInt64) (text : List Char) : Option UInt64 :=
  measure? Char.utf8Size (fun _ => 1) stop 0 0 text

def lineAt? (line : UInt64) (text : List Char) : Option (Option (UInt64 × List Char)) :=
  if 1 < line then lineStart? line 1 0 text else some (some (0, text))

theorem byteLength_of_afterLines {text rest : List Char} {n bytes : Nat}
    (h : afterLines n text = some (bytes, rest)) :
    bytes + byteLength rest = byteLength text := by
  induction text generalizing n bytes with
  | nil =>
    cases n with
    | zero =>
      cases h
      rfl
    | succ n => cases h
  | cons c text ih =>
    cases n with
    | zero =>
      cases h
      exact Nat.zero_add _
    | succ n =>
      obtain ⟨⟨bytes', rest'⟩, hrest, hmap⟩ := Option.map_eq_some_iff.mp h
      cases hmap
      rw [byteLength, ← ih hrest, Nat.add_assoc]

theorem byteLength_takeWhile_le (keep : Char → Bool) (text : List Char) :
    byteLength (text.takeWhile keep) ≤ byteLength text := by
  conv_rhs => rw [← List.takeWhile_append_dropWhile (p := keep) (l := text), byteLength_append]
  exact Nat.le_add_right _ _

section Fits

variable {text : List Char} (htext : byteLength text < UInt64.size)

include htext

theorem byteLength_from_zero : UInt64.toNat 0 + byteLength text < UInt64.size := by
  simpa using htext

theorem bytesOfUnits?_eq (stop : UInt64) :
    (bytesOfUnits? stop text).map UInt64.toNat = some (bytesOfUnits text stop.toNat) := by
  have hzero := byteLength_from_zero htext
  rw [bytesOfUnits?, measure?_eq units_le_utf8Size (fun _ => Nat.le_refl _) stop hzero hzero,
    bytesOfUnits_eq_measure]
  simp

theorem charsOfBytes?_eq (stop : UInt64) :
    (charsOfBytes? stop text).map UInt64.toNat = some (charsOfBytes text stop.toNat) := by
  have hzero := byteLength_from_zero htext
  rw [charsOfBytes?, measure?_eq (fun _ => Nat.le_refl _) Char.utf8Size_pos stop hzero hzero,
    charsOfBytes_eq_measure]
  simp

theorem lineAt?_eq (line : UInt64) :
    (lineAt? line text).map (Option.map fun found => (found.1.toNat, found.2)) =
      some (afterLines (line.toNat - 1) text) := by
  unfold lineAt?
  split
  · rename_i hline
    rw [lineStart?_eq hline (byteLength_from_zero htext)]
    simp
  · rename_i hline
    have hfirst : line.toNat - 1 = 0 := by
      rw [UInt64.not_lt, UInt64.le_iff_toNat_le] at hline
      exact Nat.sub_eq_zero_of_le hline
    rw [hfirst, afterLines]
    rfl

end Fits

end Text

def Position.offsetIn? (p : Position) (source : String) : Option UInt64 :=
  let text := source.toList
  match p.offset with
  | some offset => Text.bytesOfUnits? offset text
  | none =>
    (Text.lineAt? p.line text).bind fun
      | none => some (.ofNat (Text.byteLength text))
      | some (start, rest) =>
        (Text.bytesOfUnits? p.column (rest.takeWhile (· ≠ '\n'))).bind (Word.add? start)

namespace Loc

def byteSpan? (l : Loc) (source : String) : Option (UInt64 × UInt64) := do
  let start ← l.start.offsetIn? source
  let stop ← l.stop.offsetIn? source
  return (start, max stop start)

def charSpan? (l : Loc) (source : String) : Option (UInt64 × UInt64) := do
  let (start, stop) ← l.byteSpan? source
  return (← Text.charsOfBytes? start source.toList, ← Text.charsOfBytes? stop source.toList)

end Loc

section Located

variable {source : String} (hsource : source.utf8ByteSize < UInt64.size)

include hsource

theorem byteLength_lt_size : Text.byteLength source.toList < UInt64.size := by
  rwa [Text.byteLength_eq_utf8ByteSize, String.ofList_toList]

theorem Position.offsetIn?_eq (p : Position) :
    (p.offsetIn? source).map UInt64.toNat = some (p.offsetIn source) := by
  have hbytes := byteLength_lt_size hsource
  obtain ⟨line, column, _ | offset⟩ := p
  · obtain ⟨found, hfound, hlines⟩ := Option.map_eq_some_iff.mp (Text.lineAt?_eq hbytes line)
    simp only [offsetIn?, offsetIn, hfound, ← hlines, Option.bind_some]
    rcases found with _ | ⟨start, rest⟩
    · exact congrArg some (UInt64.toNat_ofNat_of_lt' hbytes)
    · have hrest : start.toNat + Text.byteLength rest = Text.byteLength source.toList :=
        Text.byteLength_of_afterLines hlines.symm
      have hline := Text.byteLength_takeWhile_le (· ≠ '\n') rest
      obtain ⟨within, hwithin, hunits⟩ := Option.map_eq_some_iff.mp
        (Text.bytesOfUnits?_eq (Nat.lt_of_le_of_lt hline (by omega)) column)
      have hle := Text.bytesOfUnits_le (rest.takeWhile (· ≠ '\n')) column.toNat
      simp only [hwithin, Option.bind_some, Word.toNat_add?]
      rw [if_pos (by omega), hunits]
      rfl
  · exact Text.bytesOfUnits?_eq hbytes offset

theorem Loc.byteSpan?_eq (l : Loc) :
    (l.byteSpan? source).map (fun (start, stop) => ⟨start.toNat, stop.toNat⟩) =
      some (l.byteSpan source) := by
  obtain ⟨start, hstart, hs⟩ := Option.map_eq_some_iff.mp (l.start.offsetIn?_eq hsource)
  obtain ⟨stop, hstop, ht⟩ := Option.map_eq_some_iff.mp (l.stop.offsetIn?_eq hsource)
  simp only [byteSpan?, byteSpan, hstart, hstop, ← hs, ← ht, ← Word.toNat_max]
  rfl

theorem Loc.charSpan?_eq (l : Loc) :
    (l.charSpan? source).map (fun (start, stop) => ⟨start.toNat, stop.toNat⟩) =
      some (l.charSpan source) := by
  have hbytes := byteLength_lt_size hsource
  obtain ⟨⟨first, last⟩, hspan, hbyteSpan⟩ := Option.map_eq_some_iff.mp (l.byteSpan?_eq hsource)
  obtain ⟨start, hstart, hs⟩ := Option.map_eq_some_iff.mp (Text.charsOfBytes?_eq hbytes first)
  obtain ⟨stop, hstop, ht⟩ := Option.map_eq_some_iff.mp (Text.charsOfBytes?_eq hbytes last)
  simp only [charSpan?, charSpan, hspan, ← hbyteSpan, Option.bind_eq_bind, Option.bind_some, hstart,
    hstop, ← hs, ← ht]
  rfl

end Located

namespace Position

def counted (line column : Nat) : String :=
  String.ofList (Decimal.digitsOf line) ++ ":" ++ String.ofList (Decimal.digitsOf column)

def natural (p : Position) : String := counted p.line.toNat (p.column.toNat + 1)

def ColumnFits (p : Position) : Prop := p.column ≠ 0xffffffffffffffff

instance (p : Position) : Decidable p.ColumnFits := inferInstanceAs (Decidable (_ ≠ _))

theorem columnFits_iff {p : Position} : p.ColumnFits ↔ p.column.toNat + 1 < UInt64.size := by
  have hgreatest : p.column = 0xffffffffffffffff ↔ p.column.toNat = 0xffffffffffffffff :=
    UInt64.toNat_inj.symm
  have hsize : UInt64.size = 0xffffffffffffffff + 1 := rfl
  have hlt := p.column.toNat_lt_size
  rw [ColumnFits, Ne, hgreatest]
  omega

theorem shown?_eq (p : Position) : p.shown? = if p.ColumnFits then some p.natural else none := by
  by_cases hfits : p.ColumnFits
  · obtain ⟨column, hcolumn, hvalue⟩ := Word.add?_of_lt (a := p.column) (b := 1)
      (columnFits_iff.mp hfits)
    have hvalue : column.toNat = p.column.toNat + 1 := hvalue
    rw [shown?, hcolumn, if_pos hfits, natural, ← hvalue]
    rfl
  · have hnone : Word.add? p.column 1 = none := if_neg fun h => hfits (columnFits_iff.mpr h)
    rw [shown?, hnone, if_neg hfits]
    rfl

end Position

section Place

def ColumnFits (loc : Option Loc) : Prop := ∀ l ∈ loc, l.start.ColumnFits

instance (loc : Option Loc) : Decidable (ColumnFits loc) :=
  inferInstanceAs (Decidable (∀ l ∈ loc, l.start.ColumnFits))

/-- The text shows the place in natural numbers where the column fits, and there is none elsewhere. -/
def ShowsPlace (text : Option String) (textWith : Option String → String) (loc : Option Loc) :
    Prop :=
  text = if ColumnFits loc then some (textWith (loc.map fun l => l.start.natural)) else none

theorem columnFits_none : ColumnFits none := fun l hl => by cases hl

theorem columnFits_some {loc : Loc} : ColumnFits (some loc) ↔ loc.start.ColumnFits :=
  ⟨fun h => h loc rfl, fun h l hl => by cases hl; exact h⟩

theorem showsPlace_some (textWith : Option String → String) (loc : Loc) :
    ShowsPlace (loc.start.shown?.map fun place => textWith (some place)) textWith (some loc) := by
  rw [ShowsPlace, Position.shown?_eq]
  by_cases hfits : loc.start.ColumnFits
  · rw [if_pos hfits, if_pos (columnFits_some.mpr hfits)]
    rfl
  · rw [if_neg hfits, if_neg fun h => hfits (columnFits_some.mp h)]
    rfl

theorem showsPlace_none (textWith : Option String → String) :
    ShowsPlace (some (textWith none)) textWith none := (if_pos columnFits_none).symm

def placeWith (filename : String) : Option String → String
  | some place => filename ++ ":" ++ place ++ ": "
  | none => filename ++ ": "

theorem placeText?_showsPlace (filename : String) (loc : Option Loc) :
    ShowsPlace (placeText? filename loc) (placeWith filename) loc := by
  cases loc with
  | none => exact showsPlace_none (placeWith filename)
  | some loc => exact showsPlace_some (placeWith filename) loc

theorem ShowsPlace.map {text : Option String} {textWith : Option String → String}
    {loc : Option Loc} (h : ShowsPlace text textWith loc) (more : String → String) :
    ShowsPlace (text.map more) (fun place => more (textWith place)) loc := by
  rw [ShowsPlace] at h ⊢
  rw [h, apply_ite (Option.map more)]
  rfl

def Warning.textWith (w : Warning) (place : Option String) : String :=
  placeWith w.filename place ++ "warning: " ++ w.description

theorem Warning.text?_showsPlace (w : Warning) : ShowsPlace w.text? w.textWith w.loc :=
  (placeText?_showsPlace w.filename w.loc).map (· ++ "warning: " ++ w.description)

def SyntaxError.textWith (e : SyntaxError) (place : Option String) : String :=
  placeWith e.filename place ++ e.description

theorem SyntaxError.text?_showsPlace (e : SyntaxError) : ShowsPlace e.text? e.textWith e.loc :=
  (placeText?_showsPlace e.filename e.loc).map (· ++ e.description)

def unknownKindWith (kind : String) : Option String → String
  | some place => "error: " ++ unknownKindText kind ++ " at " ++ place ++ "\n"
  | none => "error: " ++ unknownKindText kind ++ "\n"

theorem unknownKind_showsPlace (node : NodeInfo) :
    ShowsPlace (PassError.render? (.unknownKind node)) (unknownKindWith node.kind) node.loc := by
  obtain ⟨kind, loc⟩ := node
  cases loc with
  | none => exact showsPlace_none (unknownKindWith kind)
  | some loc => exact showsPlace_some (unknownKindWith kind) loc

theorem ShowsPlace.eq_none_iff {text : Option String} {textWith : Option String → String}
    {loc : Option Loc} (h : ShowsPlace text textWith loc) : text = none ↔ ¬ColumnFits loc := by
  rw [h]
  simp

end Place

def drawn (severity : Severity) (filename source : String) (description : String) (span : Span) :
    String :=
  severity.word ++ ": " ++ severity.heading ++ " in " ++ filename ++ "\n" ++
    String.ofList ((Excerpt.draw filename source.toList span description).flatMap (· ++ ['\n']))

def report? (severity : Severity) (filename source : String) (description : String) :
    Option Loc → Option String
  | none => some (report severity filename source none description)
  | some loc => (loc.charSpan? source).map fun (start, stop) =>
    drawn severity filename source description ⟨start.toNat, stop.toNat⟩

theorem report?_eq {source : String} (hsource : source.utf8ByteSize < UInt64.size)
    (severity : Severity) (filename description : String) (loc : Option Loc) :
    report? severity filename source description loc =
      some (report severity filename source loc description) := by
  cases loc with
  | none => rfl
  | some loc =>
    have hspan := congrArg (Option.map (drawn severity filename source description))
      (loc.charSpan?_eq hsource)
    rw [Option.map_map, Option.map_some] at hspan
    exact hspan

def located (loc : Loc) : Node := (Node.new "DebuggerStatement").withLoc loc

theorem located_parses (loc : Loc) : parseTree (located loc).text = .ok (located loc) := by
  have hnone {P : String × Field Node → Prop} : ∀ entry ∈ (located loc).fields.entries, P entry :=
    fun entry hentry => by cases hentry
  have harranged : (located loc).Arranged := ⟨⟨.nil, hnone⟩, hnone⟩
  have hread := (Node.readsBack harranged.ordered ⟨hnone, hnone⟩).read
  rw [parseTree, Json.read, Node.readStart_text harranged ⟨hnone, hnone⟩ none]
  show (Node.ofJson (located loc).toJson).mapError ParseError.shape = .ok (located loc)
  rw [hread]
  rfl

/-- The sums that a diagnostic is made with are words, whatever the numbers of its location, but for
the column to be shown, which is a word just when the column is not the greatest one. The texts that
show it are made just then. -/
theorem words_suffice_iff {source : String} (hsource : source.utf8ByteSize < UInt64.size) :
    (∀ loc : Loc, (loc.byteSpan? source).map (fun (start, stop) => ⟨start.toNat, stop.toNat⟩) =
      some (loc.byteSpan source)) ∧
    (∀ severity filename description loc, report? severity filename source description loc =
      some (report severity filename source loc description)) ∧
    (∀ w : Warning, ShowsPlace w.text? w.textWith w.loc) ∧
    (∀ e : SyntaxError, ShowsPlace e.text? e.textWith e.loc) ∧
    (∀ node : NodeInfo,
      ShowsPlace (PassError.render? (.unknownKind node)) (unknownKindWith node.kind) node.loc) ∧
    ∀ loc, ∃ text tree, parseTree text = .ok tree ∧ tree.loc = some loc :=
  ⟨fun loc => loc.byteSpan?_eq hsource, report?_eq hsource, Warning.text?_showsPlace,
    SyntaxError.text?_showsPlace, unknownKind_showsPlace,
    fun loc => ⟨_, located loc, located_parses loc, rfl⟩⟩

def debuggerAt (loc : Loc) : Warning :=
  ⟨some loc, "input.js", "unexpected 'debugger' statement"⟩

theorem words_suffice_far :
    let loc : Loc := ⟨⟨0xffffffffffffffff, 0xfffffffffffffffe, none⟩,
      ⟨1, 0xffffffffffffffff, some 0xffffffffffffffff⟩⟩
    "debugger".utf8ByteSize < UInt64.size ∧
      (loc.byteSpan? "debugger").map (fun (start, stop) => (⟨start.toNat, stop.toNat⟩ : Span)) =
        some ⟨8, 8⟩ ∧
      (debuggerAt loc).text? = some ("input.js:18446744073709551615:18446744073709551615: " ++
        "warning: unexpected 'debugger' statement") := by
  intro loc
  have hsource : "debugger".utf8ByteSize < UInt64.size := by decide
  obtain ⟨hspan, -, htext, -⟩ := words_suffice_iff hsource
  refine ⟨hsource, (hspan loc).trans (by decide +kernel), ?_⟩
  rw [htext (debuggerAt loc), if_pos (by decide)]
  decide +kernel

/-- The greatest column is read like any other, and no text shows it. -/
theorem words_exceeded :
    let loc : Loc := ⟨⟨1, 0xffffffffffffffff, none⟩, ⟨1, 0xffffffffffffffff, none⟩⟩
    parseTree (located loc).text = .ok (located loc) ∧
      ((runPasses 1 (located loc) ⟨"", "input.js", .withFallback .empty .fields⟩
        [Lint.handlers .noDebugger] {} ()).map fun pooled => pooled.results.warnings) =
          some [debuggerAt loc] ∧
      (debuggerAt loc).text? = none ∧
      (debuggerAt loc).textWith (some loc.start.natural) =
        "input.js:1:18446744073709551616: warning: unexpected 'debugger' statement" ∧
      SyntaxError.text? ⟨some loc, "", "", "input.js"⟩ = none ∧
      PassError.render? (.unknownKind ⟨"Mystery", some loc⟩) = none := by
  intro loc
  refine ⟨located_parses loc, rfl, ?_, ?_, ?_, ?_⟩
  · decide +kernel
  · decide +kernel
  · decide +kernel
  · decide +kernel

end SyntaxWalk
