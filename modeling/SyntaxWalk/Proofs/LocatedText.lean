import SyntaxWalk.Diagnostic.Excerpt
import SyntaxWalk.Proofs.ValidSlices

/-!
# The located text

A location is found in bytes, and an excerpt is drawn by characters. Both ends of the located bytes
lie between two characters, so that no character is counted in half: the characters that the excerpt
marks are those of the located slice (`charSpan_selects`).
-/

namespace SyntaxWalk

namespace Text

theorem charsOfBytes_byteLength (before after : List Char) :
    charsOfBytes (before ++ after) (byteLength before) = before.length := by
  induction before with
  | nil => cases after <;> rfl
  | cons c before ih =>
    have hpos : c.utf8Size + byteLength before ≠ 0 := by
      have := c.utf8Size_pos
      omega
    rw [List.cons_append, byteLength, charsOfBytes, if_neg hpos, Nat.add_sub_cancel_left, ih,
      List.length_cons, Nat.add_comm]

theorem exists_append_of_lt {text before longer : List Char} (hbefore : before <+: text)
    (hlonger : longer <+: text) (hlt : byteLength before < byteLength longer) :
    ∃ inside, before ++ inside = longer := by
  rcases List.prefix_or_prefix_of_prefix hbefore hlonger with hle | ⟨rest, rfl⟩
  · exact hle
  · rw [byteLength_append] at hlt
    omega

theorem size_toByteArray (text : List Char) :
    (String.ofList text).toByteArray.size = byteLength text := by
  rw [String.size_toByteArray, byteLength_eq_utf8ByteSize]

theorem extract_of_split {source : String} {before inside after : List Char}
    (h : source.toList = before ++ (inside ++ after)) {start stop : source.Pos}
    (hstart : start.offset.byteIdx = byteLength before)
    (hstop : stop.offset.byteIdx = byteLength (before ++ inside)) :
    (String.extract start stop).toList = inside := by
  have hsource : source.toByteArray = (String.ofList before).toByteArray ++
      ((String.ofList inside).toByteArray ++ (String.ofList after).toByteArray) := by
    rw [← String.toByteArray_append, ← String.toByteArray_append, ← String.ofList_append,
      ← String.ofList_append, ← h, String.ofList_toList]
  have hskip := ByteArray.extract_append_size_add (a := (String.ofList before).toByteArray)
    (b := (String.ofList inside).toByteArray ++ (String.ofList after).toByteArray) (i := 0)
    (j := (String.ofList inside).toByteArray.size)
  have hbytes : (String.extract start stop).toByteArray = (String.ofList inside).toByteArray := by
    rw [String.toByteArray_extract, hstart, hstop, byteLength_append, hsource, ← size_toByteArray,
      ← size_toByteArray]
    exact hskip.trans (ByteArray.extract_append_eq_left rfl)
  rw [String.toByteArray_inj.1 hbytes, String.toList_ofList]

end Text

namespace Loc

open Text (byteLength)

theorem byteSpan_split (l : Loc) (source : String) :
    ∃ before inside after, source.toList = before ++ (inside ++ after) ∧
      (l.byteSpan source).start = byteLength before ∧
      (l.byteSpan source).stop = byteLength (before ++ inside) := by
  obtain ⟨before, after, hstart, hbefore⟩ := l.start.offsetIn_split source
  obtain ⟨upto, rest, hstop, hupto⟩ := l.stop.offsetIn_split source
  rcases Nat.lt_or_ge (byteLength before) (byteLength upto) with hlt | hle
  · obtain ⟨inside, rfl⟩ := Text.exists_append_of_lt ⟨after, hstart.symm⟩ ⟨rest, hstop.symm⟩ hlt
    refine ⟨before, inside, rest, by rw [hstop, List.append_assoc], hbefore, ?_⟩
    rw [byteSpan, hbefore, hupto, Nat.max_eq_left hlt.le]
  · -- The end is no later than the start, so that nothing is located.
    refine ⟨before, [], after, hstart, hbefore, ?_⟩
    rw [byteSpan, hbefore, hupto, Nat.max_eq_right hle, List.append_nil]

theorem charSpan_of_split {l : Loc} {source : String} {before inside after : List Char}
    (h : source.toList = before ++ (inside ++ after))
    (hstart : (l.byteSpan source).start = byteLength before)
    (hstop : (l.byteSpan source).stop = byteLength (before ++ inside)) :
    l.charSpan source = ⟨before.length, (before ++ inside).length⟩ := by
  have hfirst := Text.charsOfBytes_byteLength before (inside ++ after)
  have hlast := Text.charsOfBytes_byteLength (before ++ inside) after
  rw [charSpan, hstart, hstop, h, hfirst, ← List.append_assoc, hlast]

/-- A report with a location is drawn for a span of characters that is the located slice of bytes:
the characters before the span are those before the slice, and the characters in it those of the
slice. -/
theorem charSpan_selects (l : Loc) (source : String) :
    (∀ (severity : Severity) (filename description : String),
      report severity filename source (some l) description =
        severity.word ++ ": " ++ severity.heading ++ " in " ++ filename ++ "\n" ++
          String.ofList ((Excerpt.draw filename source.toList (l.charSpan source)
            description).flatMap (· ++ ['\n']))) ∧
    (l.charSpan source).start ≤ (l.charSpan source).stop ∧
    (l.charSpan source).stop ≤ source.length ∧
    ∃ start stop : source.Pos, start.offset.byteIdx = (l.byteSpan source).start ∧
      stop.offset.byteIdx = (l.byteSpan source).stop ∧
      source.toList.take (l.charSpan source).start =
        (String.extract source.startPos start).toList ∧
      (source.toList.drop (l.charSpan source).start).take
          ((l.charSpan source).stop - (l.charSpan source).start) =
        (String.extract start stop).toList := by
  refine ⟨fun severity filename description => rfl, ?_⟩
  obtain ⟨before, inside, after, hsplit, hstart, hstop⟩ := l.byteSpan_split source
  have hfirst : source.toList = [] ++ (before ++ (inside ++ after)) := hsplit
  have hlast : source.toList = (before ++ inside) ++ after := by rw [hsplit, List.append_assoc]
  rw [charSpan_of_split hsplit hstart hstop]
  refine ⟨?_, ?_, ⟨⟨byteLength before⟩, Text.byteLength_isValid hsplit⟩,
    ⟨⟨byteLength (before ++ inside)⟩, Text.byteLength_isValid hlast⟩, hstart.symm, hstop.symm,
    ?_, ?_⟩
  · exact (List.prefix_append before inside).length_le
  · rw [← String.length_toList, hlast]
    exact (List.prefix_append (before ++ inside) after).length_le
  · rw [Text.extract_of_split hfirst rfl rfl, hsplit, List.take_left]
  · rw [Text.extract_of_split hsplit rfl rfl, hsplit, List.drop_left, List.length_append,
      Nat.add_sub_cancel_left, List.take_left]

end Loc

end SyntaxWalk
