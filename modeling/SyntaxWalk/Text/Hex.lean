/-!
# Hexadecimal digits

The value of a digit, in either case.
-/

namespace SyntaxWalk.Text

def hexDigit? (c : Char) : Option Nat :=
  if c.isDigit then some (c.toNat - '0'.toNat)
  else if 'a' ≤ c ∧ c ≤ 'f' then some (c.toNat - 'a'.toNat + 10)
  else if 'A' ≤ c ∧ c ≤ 'F' then some (c.toNat - 'A'.toNat + 10)
  else none

theorem hexDigit?_lt {c : Char} {n : Nat} (h : hexDigit? c = some n) : n < 16 := by
  unfold hexDigit? at h
  split at h
  · rename_i hd
    simp only [Char.isDigit, Bool.and_eq_true, decide_eq_true_eq] at hd
    have : c.toNat ≤ 57 := hd.2
    cases h
    have : '0'.toNat = 48 := rfl
    omega
  · split at h
    · rename_i _ hd
      have : c.toNat ≤ 102 := hd.2
      cases h
      have : 'a'.toNat = 97 := rfl
      omega
    · split at h
      · rename_i _ _ hd
        have : c.toNat ≤ 70 := hd.2
        cases h
        have : 'A'.toNat = 65 := rfl
        omega
      · cases h

end SyntaxWalk.Text
