import SyntaxWalk.Proofs.OrderedJson

/-!
# Numbers that fit

A reader holds an integer in 64 bits, with a sign or without one, and takes every number that is too
large for that as a double. So every integer in a value that was read fits (`Json.fits_of_read`).
-/

namespace SyntaxWalk

namespace JsonNumber

def Fits : JsonNumber → Prop
  | .int n => -0x8000000000000000 ≤ n ∧ n < 0x10000000000000000
  | .double _ => True

theorem takeDigits_lt {value : Nat} (h : value < significandBound) (taken : Nat)
    (text : List Char) : (takeDigits value taken text).value < significandBound := by
  fun_induction takeDigits value taken text with
  | case1 => exact h
  | case2 => exact h
  | case3 => exact h
  | case4 value taken c rest hdigit hbound ih => exact ih (by omega)

theorem doubleOf_fits {negative : Bool} {value : Nat} {e : Int} {n : JsonNumber}
    (h : doubleOf negative value e = .ok n) : n.Fits := by
  unfold doubleOf at h
  split at h <;> cases h
  trivial

theorem integerOf_fits {negative : Bool} {value : Nat} (hvalue : value < significandBound)
    {n : JsonNumber} (h : integerOf negative value = .ok n) : n.Fits := by
  unfold integerOf at h
  unfold significandBound at hvalue
  split at h
  · cases h
    constructor <;> omega
  · split at h
    · exact doubleOf_fits h
    · cases h
      constructor <;> omega

theorem fits_of_map_doubleOf {negative : Bool} {value : Nat} {e : Int} {text rest : List Char}
    {n : JsonNumber} (h : (doubleOf negative value e).map (·, text) = .ok (n, rest)) : n.Fits := by
  obtain ⟨m, hm, heq⟩ := of_map_eq_ok h
  cases heq
  exact doubleOf_fits hm

theorem readExponent_fits {negative : Bool} {value : Nat} {e : Int} {text rest : List Char}
    {n : JsonNumber} (h : readExponent negative value e text = .ok (n, rest)) : n.Fits := by
  unfold readExponent at h
  simp only at h
  split at h
  -- Whatever the sign of the exponent, a number with one is a double.
  all_goals
    split at h
    · cases h
    · split at h
      · exact fits_of_map_doubleOf h
      · split at h
        · cases h
        · cases h
          trivial

theorem readFraction_fits {negative : Bool} {value : Nat} {e : Int} {text rest : List Char}
    {n : JsonNumber} (h : readFraction negative value e text = .ok (n, rest)) : n.Fits := by
  unfold readFraction at h
  simp only at h
  split at h
  · cases h
  · split at h
    · exact readExponent_fits h
    · exact readExponent_fits h
    · exact fits_of_map_doubleOf h

theorem readAfterWhole_fits {negative : Bool} {d : Digits} (hd : d.value < significandBound)
    {rest : List Char} {n : JsonNumber} (h : readAfterWhole negative d = .ok (n, rest)) :
    n.Fits := by
  unfold readAfterWhole at h
  split at h
  · exact readFraction_fits h
  · exact readExponent_fits h
  · exact readExponent_fits h
  · split at h
    · obtain ⟨m, hm, heq⟩ := of_map_eq_ok h
      cases heq
      exact integerOf_fits hd hm
    · exact fits_of_map_doubleOf h

theorem readUnsigned_fits {negative : Bool} {text rest : List Char} {n : JsonNumber}
    (h : readUnsigned negative text = .ok (n, rest)) : n.Fits := by
  unfold readUnsigned at h
  split at h
  · split at h
    · cases h
    · exact readAfterWhole_fits (by simp [significandBound]) h
  · split at h
    · exact readAfterWhole_fits (takeDigits_lt (by decide) _ _) h
    · cases h

theorem read_fits {text rest : List Char} {n : JsonNumber} (h : read text = .ok (n, rest)) :
    n.Fits := by
  unfold read at h
  split at h <;> exact readUnsigned_fits h

end JsonNumber

namespace Json

/-- Every integer in the value has at most 64 bits. -/
inductive Fits : Json → Prop
  | null : Fits .null
  | bool (b : Bool) : Fits (.bool b)
  | number {n : JsonNumber} (hn : n.Fits) : Fits (.number n)
  | string (s : String) : Fits (.string s)
  | array {items : List Json} (hitems : ∀ v ∈ items, v.Fits) : Fits (.array items)
  | object {members : NameMap Json} (values : ∀ entry ∈ members.entries, entry.2.Fits) :
      Fits (.object members)

theorem Fits.ofEntries {entries : List (String × Json)} (h : ∀ entry ∈ entries, entry.2.Fits) :
    (ofEntries entries).Fits :=
  .object fun entry hentry => h entry (NameMap.mem_ofList hentry)

theorem fits_readerClosed : ReaderClosed Fits where
  null := .null
  bool := .bool
  number := fun h => .number (JsonNumber.read_fits h)
  string := .string
  array := .array
  object := .ofEntries

theorem fits_of_read {depth : Option Nat} {text : String} {v : Json}
    (h : read text depth = .ok v) : v.Fits := fits_readerClosed.of_read h

theorem fits_inherited : Inherited Fits where
  item := fun | .array hitems => hitems
  member := fun | .object values => values

theorem nat_of_readCount {v : Json} {x : UInt64} (hv : v.Fits) (h : readCount v = .ok x) :
    v = .nat x.toNat := by
  cases hv with
  | @number n hn =>
    cases n with
    | double x => cases h
    | int n =>
      rw [readCount] at h
      split at h
      · cases h
      · cases h
        have hlt : n.toNat < UInt64.size := by
          have := hn.2
          simp only [UInt64.size]
          omega
        have htoNat : n.toNat.toUInt64.toNat = n.toNat := UInt64.toNat_ofNat_of_lt' hlt
        rw [htoNat, Json.nat, Int.toNat_of_nonneg (by omega)]
  | _ => cases h

end Json

/-- An ordered value that carries the proof that its integers fit. -/
structure FittingJson extends OrderedJson where
  fits : value.Fits

namespace FittingJson

def read (text : String) : Except JsonNumber.ReadError FittingJson :=
  match h : Json.read text with
  | .ok v => .ok ⟨⟨v, Json.ordered_of_read h⟩, Json.fits_of_read h⟩
  | .error e => .error e

theorem read_value (text : String) : (read text).map (fun v => v.value) = Json.read text := by
  unfold read
  split <;> rename_i h <;> exact h.symm

end FittingJson

end SyntaxWalk
