import SyntaxWalk.Json.Reader
import SyntaxWalk.Json.Printer
import Mathlib.Tactic.SplitIfs

/-!
# Numbers and strings read back

The text of an integer that a reader keeps as one is read back as that integer, if what follows is
the end or a sign that can follow a value (`JsonNumber.read_intText`). The text of a string is read
back character by character, escapes and all, up to its closing quote (`Json.readChars_writeChars`).
-/

namespace SyntaxWalk

namespace JsonNumber

open Decimal (digitsOf intText)

/-- The text is over, or goes on with a comma, a closing bracket or the end of the line. -/
def Closes (rest : List Char) : Prop := ∀ c ∈ rest.head?, c = ',' ∨ c = ']' ∨ c = '}' ∨ c = '\n'

theorem Closes.not_digit {rest : List Char} (h : Closes rest) : startsWithDigit rest = false := by
  cases rest with
  | nil => rfl
  | cons c rest => rcases h c rfl with rfl | rfl | rfl | rfl <;> rfl

theorem le_ofDigitChars (digits : List Char) (value : Nat) :
    value ≤ Nat.ofDigitChars 10 digits value := by
  induction digits generalizing value with
  | nil => exact Nat.le_refl value
  | cons c digits ih =>
    have hrest := ih (10 * value + (c.toNat - '0'.toNat))
    have hstep : Nat.ofDigitChars 10 (c :: digits) value =
        Nat.ofDigitChars 10 digits (10 * value + (c.toNat - '0'.toNat)) := rfl
    omega

theorem takeDigits_append {digits rest : List Char} {value taken : Nat}
    (hdigits : ∀ c ∈ digits, c.isDigit) (hrest : startsWithDigit rest = false)
    (hfits : Nat.ofDigitChars 10 digits value < significandBound) :
    takeDigits value taken (digits ++ rest) =
      ⟨Nat.ofDigitChars 10 digits value, taken + digits.length, 0, rest⟩ := by
  induction digits generalizing value taken with
  | nil =>
    cases rest with
    | nil => rfl
    | cons c rest =>
      have hc : c.isDigit = false := hrest
      simp [takeDigits, hc, Nat.ofDigitChars]
  | cons c digits ih =>
    obtain ⟨hc, hmore⟩ := List.forall_mem_cons.1 hdigits
    have hstep : Nat.ofDigitChars 10 (c :: digits) value =
        Nat.ofDigitChars 10 digits (value * 10 + digitValue c) := by
      rw [Nat.mul_comm value 10]
      rfl
    rw [hstep] at hfits ⊢
    have hbound : ¬ significandBound ≤ value * 10 + digitValue c :=
      Nat.not_le.2 (Nat.lt_of_le_of_lt (le_ofDigitChars digits _) hfits)
    rw [List.cons_append, takeDigits, hc, if_neg (by simp), if_neg hbound, ih hmore hfits,
      List.length_cons, Nat.add_assoc, Nat.add_comm 1]

theorem digitsOf_isDigit (n : Nat) : ∀ c ∈ digitsOf n, c.isDigit :=
  fun _ hc => Nat.isDigit_of_mem_toDigits (by decide) (by decide) hc

theorem digitsOf_head (n : Nat) : ∃ c rest, digitsOf n = c :: rest ∧ c.isDigit := by
  cases h : digitsOf n with
  | nil => exact absurd h Nat.toDigits_ne_nil
  | cons c rest => exact ⟨c, rest, rfl, digitsOf_isDigit n c (by simp [h])⟩

theorem digitsOf_head_ne_zero {n : Nat} (hn : 0 < n) : (digitsOf n).head? ≠ some '0' := by
  induction n using Nat.strongRecOn with
  | ind n ih =>
    by_cases hlt : n < 10
    · have hone : digitsOf n = [n.digitChar] := Nat.toDigits_of_lt_base hlt
      rw [hone, List.head?_cons]
      intro h
      have hchar : n.digitChar.toNat = '0'.toNat := congrArg Char.toNat (Option.some.inj h)
      rw [Nat.toNat_digitChar_of_lt_ten hlt] at hchar
      have hzero : '0'.toNat = 48 := rfl
      omega
    · have hmore : digitsOf n = digitsOf (n / 10) ++ [(n % 10).digitChar] :=
        Nat.toDigits_of_base_le (by decide) (Nat.not_lt.1 hlt)
      have ih := ih (n / 10) (by omega) (by omega)
      obtain ⟨c, rest, hdigits, -⟩ := digitsOf_head (n / 10)
      rw [hmore, hdigits]
      rwa [hdigits] at ih

theorem readAfterWhole_of_closes {rest : List Char} (hrest : Closes rest) (negative : Bool)
    (value taken : Nat) :
    readAfterWhole negative ⟨value, taken, 0, rest⟩ = (integerOf negative value).map (·, rest) := by
  cases rest with
  | nil => rfl
  | cons c rest => rcases hrest c rfl with rfl | rfl | rfl | rfl <;> rfl

theorem readUnsigned_digitsOf {n : Nat} (hn : n < significandBound) {rest : List Char}
    (hrest : Closes rest) (negative : Bool) :
    readUnsigned negative (digitsOf n ++ rest) = (integerOf negative n).map (·, rest) := by
  by_cases hzero : n = 0
  · have hdigits : digitsOf n = ['0'] := by rw [hzero]; rfl
    rw [hdigits, hzero, List.singleton_append, readUnsigned, hrest.not_digit,
      if_neg Bool.false_ne_true, readAfterWhole_of_closes hrest]
  · have hvalue : Nat.ofDigitChars 10 (digitsOf n) 0 = n :=
      Nat.ofDigitChars_toDigits (by decide) (by decide)
    have htake : takeDigits 0 0 (digitsOf n ++ rest) = _ :=
      takeDigits_append (digitsOf_isDigit n) hrest.not_digit (by rwa [hvalue])
    have hhead := digitsOf_head_ne_zero (Nat.pos_of_ne_zero hzero)
    obtain ⟨c, more, hdigits, hc⟩ := digitsOf_head n
    have hstart : startsWithDigit (digitsOf n ++ rest) = true := by
      rw [hdigits]
      exact hc
    have hne : c ≠ '0' := fun h => hhead (by rw [hdigits, h]; rfl)
    unfold readUnsigned
    split
    · rename_i text heq
      rw [hdigits] at heq
      exact absurd (List.cons.inj heq).1 hne
    · rw [if_pos hstart, htake, hvalue, readAfterWhole_of_closes hrest]

theorem read_intText {n : Int} (h : -0x8000000000000000 ≤ n ∧ n ≤ 0xffffffffffffffff)
    {rest : List Char} (hrest : Closes rest) : read (intText n ++ rest) = .ok (.int n, rest) := by
  have hfits : n.natAbs < significandBound := by
    rw [significandBound]
    omega
  by_cases hneg : n < 0
  · have hinteger : integerOf true n.natAbs = .ok (.int n) := by
      have hrange : ¬ (n.natAbs = 0 ∨ 0x8000000000000000 < n.natAbs) := by omega
      have hvalue : -(n.natAbs : Int) = n := by omega
      rw [integerOf, if_neg (by decide), if_neg hrange, hvalue]
    rw [intText, if_pos hneg, List.cons_append, read, readUnsigned_digitsOf hfits hrest, hinteger]
    rfl
  · have hinteger : integerOf false n.natAbs = .ok (.int n) := by
      have hvalue : (n.natAbs : Int) = n := by omega
      rw [integerOf, if_pos (by decide), hvalue]
    have hminus : ∀ text, digitsOf n.natAbs ++ rest ≠ '-' :: text := by
      obtain ⟨c, more, hdigits, hc⟩ := digitsOf_head n.natAbs
      intro text heq
      rw [hdigits] at heq
      rw [(List.cons.inj heq).1] at hc
      exact absurd hc (by decide)
    rw [intText, if_neg hneg]
    unfold read
    split
    · rename_i text heq
      exact absurd heq (hminus text)
    · rw [readUnsigned_digitsOf hfits hrest, hinteger]
      rfl

end JsonNumber

namespace Json

theorem hexDigit?_digitChar (n : Nat) (h : n < 16) : Text.hexDigit? n.digitChar = some n := by
  revert n
  decide

theorem readEscape_control {c : Char} (h : c.toNat < 0x20) (rest : List Char) :
    readEscape ('u' :: '0' :: '0' :: (hexPair c.toNat ++ rest)) = .ok (c, rest) := by
  have hhigh := hexDigit?_digitChar (c.toNat / 16) (by omega)
  have hlow := hexDigit?_digitChar (c.toNat % 16) (by omega)
  have hzero : Text.hexDigit? '0' = some 0 := rfl
  have hunit : hexUnit? '0' '0' (c.toNat / 16).digitChar (c.toNat % 16).digitChar =
      some c.toNat := by
    have hvalue : ((0 * 16 + 0) * 16 + c.toNat / 16) * 16 + c.toNat % 16 = c.toNat := by omega
    simp only [hexUnit?, hzero, hhigh, hlow, Option.bind_eq_bind, Option.bind_some, hvalue]
    rfl
  have htrailing : isTrailing c.toNat = false := by
    simp only [isTrailing, Bool.and_eq_false_iff, decide_eq_false_iff_not]
    omega
  have hleading : isLeading c.toNat = false := by
    simp only [isLeading, Bool.and_eq_false_iff, decide_eq_false_iff_not]
    omega
  simp only [hexPair, List.cons_append, List.nil_append, readEscape, readUnit, hunit, htrailing,
    hleading, Bool.false_eq_true, if_false, Char.ofNat_toNat]

theorem readChars_escaped {c : Char} {text rest : List Char} (h : readEscape text = .ok (c, rest)) :
    readChars ('\\' :: text) = (readChars rest).map fun (cs, rest) => (c :: cs, rest) := by
  rw [readChars]
  split
  · rename_i e he
    rw [h] at he
    cases he
  · rename_i c' rest' he
    rw [h] at he
    cases he
    rfl

theorem readChars_escapeChar (c : Char) (rest : List Char) :
    readChars (escapeChar c ++ rest) =
      (readChars rest).map fun (cs, rest) => (c :: cs, rest) := by
  unfold escapeChar
  split_ifs with hquoted hb hf hn hr ht hcontrol
  · rcases hquoted with rfl | rfl <;> exact readChars_escaped rfl
  · rw [hb]; exact readChars_escaped rfl
  · rw [hf]; exact readChars_escaped rfl
  · rw [hn]; exact readChars_escaped rfl
  · rw [hr]; exact readChars_escaped rfl
  · rw [ht]; exact readChars_escaped rfl
  · exact readChars_escaped (readEscape_control hcontrol rest)
  · obtain ⟨hquote, hbackslash⟩ := not_or.1 hquoted
    rw [List.singleton_append, readChars, if_neg hcontrol]
    · exact hquote
    · exact hbackslash

theorem readChars_writeChars (cs rest : List Char) :
    readChars (writeChars cs ('"' :: rest)) = .ok (cs, rest) := by
  induction cs with
  | nil => rw [writeChars, readChars]
  | cons c cs ih =>
    rw [writeChars, readChars_escapeChar, ih]
    rfl

end Json

end SyntaxWalk
