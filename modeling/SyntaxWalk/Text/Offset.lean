/-!
# Offsets in a text

Three ways to count along a text: UTF-16 units, UTF-8 bytes, characters. `bytesOfUnits` and
`charsOfBytes` convert between them; an offset inside a character goes to the end of that
character, and one past the end goes to the end.
-/

namespace SyntaxWalk.Text

def units (c : Char) : Nat := if c.toNat < 0x10000 then 1 else 2

def unitLength : List Char → Nat
  | [] => 0
  | c :: text => units c + unitLength text

def byteLength : List Char → Nat
  | [] => 0
  | c :: text => c.utf8Size + byteLength text

/-- Bytes of the shortest beginning of the text that has at least `n` UTF-16 units. -/
def bytesOfUnits : List Char → Nat → Nat
  | [], _ => 0
  | c :: text, n => if n = 0 then 0 else c.utf8Size + bytesOfUnits text (n - units c)

def charsOfBytes : List Char → Nat → Nat
  | [], _ => 0
  | c :: text, n => if n = 0 then 0 else 1 + charsOfBytes text (n - c.utf8Size)

def afterLines : Nat → List Char → Option (Nat × List Char)
  | 0, text => some (0, text)
  | _ + 1, [] => none
  | n + 1, c :: text =>
    (afterLines (if c = '\n' then n else n + 1) text).map fun (bytes, rest) =>
      (c.utf8Size + bytes, rest)

def slice (text : List Char) (start stop : Nat) : List Char :=
  let first := charsOfBytes text start
  (text.drop first).take (charsOfBytes text stop - first)

theorem units_pos (c : Char) : 0 < units c := by
  unfold units; split <;> omega

theorem bytesOfUnits_le (text : List Char) (n : Nat) : bytesOfUnits text n ≤ byteLength text := by
  induction text generalizing n with
  | nil => simp [bytesOfUnits]
  | cons c text ih =>
    have := ih (n - units c)
    simp only [bytesOfUnits, byteLength] at this ⊢
    split <;> omega

end SyntaxWalk.Text
