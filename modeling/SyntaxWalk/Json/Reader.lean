import SyntaxWalk.Json.Number
import SyntaxWalk.Text.Offset
import SyntaxWalk.Text.Hex

/-!
# Reading JSON text

A recursive descent over the characters. A text is refused where it first leaves the grammar, as
`unfinished` at its end and as `malformed` elsewhere. Of two members of one name the last counts. A
reader may limit how deep arrays and objects nest.
-/

namespace SyntaxWalk.Json

open JsonNumber (ReadError Reading refuse)
open Text (hexDigit?)

def isBlank (c : Char) : Bool := c = ' ' || c = '\n' || c = '\t' || c = '\r'

def skipBlanks (text : List Char) : List Char := text.dropWhile isBlank

def readWord (v : Json) : List Char → List Char → Reading Json
  | [], rest => .ok (v, rest)
  | _ :: _, [] => .error .unfinished
  | c :: word, d :: rest => if c = d then readWord v word rest else .error .malformed

def hexUnit? (a b c d : Char) : Option Nat := do
  return (((← hexDigit? a) * 16 + (← hexDigit? b)) * 16 + (← hexDigit? c)) * 16 + (← hexDigit? d)

/-- Four hexadecimal digits. They are missing if fewer than four bytes are left. -/
def readUnit : List Char → Reading Nat
  | a :: b :: c :: d :: rest =>
    match hexUnit? a b c d with
    | some n => .ok (n, rest)
    | none => .error .malformed
  | rest => .error (if Text.byteLength rest < 4 then .unfinished else .malformed)

def isLeading (n : Nat) : Bool := 0xd800 ≤ n && n < 0xdc00

def isTrailing (n : Nat) : Bool := 0xdc00 ≤ n && n < 0xe000

def escaped? : Char → Option Char
  | '"' => some '"'
  | '\\' => some '\\'
  | '/' => some '/'
  | 'b' => some '\x08'
  | 'f' => some '\x0c'
  | 'n' => some '\n'
  | 'r' => some '\r'
  | 't' => some '\t'
  | _ => none

def readTrailing (high : Nat) : List Char → Reading Char
  | '\\' :: 'u' :: rest =>
    match readUnit rest with
    | .error e => .error e
    | .ok (low, rest) =>
      if isTrailing low then
        .ok (Char.ofNat (0x10000 + (high - 0xd800) * 0x400 + (low - 0xdc00)), rest)
      else .error .malformed
  | '\\' :: [] | [] => .error .unfinished
  | _ => .error .malformed

def readEscape : List Char → Reading Char
  | [] => .error .unfinished
  | 'u' :: rest =>
    match readUnit rest with
    | .error e => .error e
    | .ok (n, rest) =>
      if isTrailing n then .error .malformed
      else if isLeading n then readTrailing n rest
      else .ok (Char.ofNat n, rest)
  | c :: rest =>
    match escaped? c with
    | some c => .ok (c, rest)
    | none => .error .malformed

theorem readUnit_length {text rest : List Char} {n : Nat} (h : readUnit text = .ok (n, rest)) :
    rest.length < text.length := by
  unfold readUnit at h
  split at h
  · split at h
    · cases h; simp only [List.length_cons]; omega
    · cases h
  · cases h

theorem readTrailing_length {high : Nat} {text rest : List Char} {c : Char}
    (h : readTrailing high text = .ok (c, rest)) : rest.length < text.length := by
  unfold readTrailing at h
  split at h
  · split at h
    · cases h
    · rename_i hu
      have := readUnit_length hu
      split at h
      · simp only [Except.ok.injEq, Prod.mk.injEq] at h
        obtain ⟨_, rfl⟩ := h
        simp only [List.length_cons]; omega
      · cases h
  all_goals cases h

theorem readEscape_length {text rest : List Char} {c : Char}
    (h : readEscape text = .ok (c, rest)) : rest.length < text.length := by
  unfold readEscape at h
  split at h
  · cases h
  · split at h
    · cases h
    · rename_i hu
      have := readUnit_length hu
      split at h
      · cases h
      · split at h
        · have := readTrailing_length h; simp only [List.length_cons]; omega
        · simp only [Except.ok.injEq, Prod.mk.injEq] at h
          obtain ⟨_, rfl⟩ := h
          simp only [List.length_cons]; omega
  · split at h <;> cases h
    simp

def readChars (text : List Char) : Reading (List Char) :=
  match text with
  | [] => .error .unfinished
  | '"' :: rest => .ok ([], rest)
  | '\\' :: rest =>
    match _ : readEscape rest with
    | .error e => .error e
    | .ok (c, rest') => (readChars rest').map fun (cs, rest) => (c :: cs, rest)
  | c :: rest =>
    if c.toNat < 0x20 then .error .malformed
    else (readChars rest).map fun (cs, rest) => (c :: cs, rest)
termination_by text.length
decreasing_by
  · have := readEscape_length ‹_›; simp only [List.length_cons]; omega
  · simp

def readColon (text : List Char) : Except ReadError (List Char) :=
  match skipBlanks text with
  | ':' :: rest => .ok rest
  | rest => refuse rest

mutual

/-- A value. `depth` is how many levels of arrays and objects may still open. -/
def readValue (depth : Option Nat) : Nat → List Char → Reading Json
  | 0, _ => .error .malformed
  | fuel + 1, text =>
    match skipBlanks text with
    | 'n' :: rest => readWord .null ['u', 'l', 'l'] rest
    | 't' :: rest => readWord (.bool true) ['r', 'u', 'e'] rest
    | 'f' :: rest => readWord (.bool false) ['a', 'l', 's', 'e'] rest
    | '"' :: rest => (readChars rest).map fun (cs, rest) => (.string (String.ofList cs), rest)
    | '[' :: rest =>
      if depth = some 0 then .error .malformed
      else (readItems (depth.map (· - 1)) fuel true rest).map fun (items, rest) =>
        (.array items, rest)
    | '{' :: rest =>
      if depth = some 0 then .error .malformed
      else (readMembers (depth.map (· - 1)) fuel true rest).map fun (entries, rest) =>
        (ofEntries entries, rest)
    | c :: rest =>
      if c = '-' ∨ c.isDigit then
        (JsonNumber.read (c :: rest)).map fun (n, rest) => (.number n, rest)
      else .error .malformed
    | [] => .error .unfinished

def readItems (depth : Option Nat) : Nat → Bool → List Char → Reading (List Json)
  | 0, _, _ => .error .malformed
  | fuel + 1, first, text =>
    match skipBlanks text with
    | ']' :: rest => .ok ([], rest)
    | ',' :: rest =>
      if first then .error .malformed
      else
        match readValue depth fuel rest with
        | .error e => .error e
        | .ok (v, rest) => (readItems depth fuel false rest).map fun (vs, rest) => (v :: vs, rest)
    | rest =>
      if !first then refuse rest
      else
        match readValue depth fuel rest with
        | .error e => .error e
        | .ok (v, rest) => (readItems depth fuel false rest).map fun (vs, rest) => (v :: vs, rest)

def readMembers (depth : Option Nat) : Nat → Bool → List Char → Reading (List (String × Json))
  | 0, _, _ => .error .malformed
  | fuel + 1, first, text =>
    match skipBlanks text with
    | '}' :: rest => .ok ([], rest)
    | ',' :: rest =>
      if first then .error .malformed else readMember depth fuel (skipBlanks rest)
    | rest => if !first then refuse rest else readMember depth fuel rest

def readMember (depth : Option Nat) : Nat → List Char → Reading (List (String × Json))
  | 0, _ => .error .malformed
  | fuel + 1, text =>
    match text with
    | '"' :: rest =>
      match readChars rest with
      | .error e => .error e
      | .ok (name, rest) =>
        match readColon rest with
        | .error e => .error e
        | .ok rest =>
          match readValue depth fuel rest with
          | .error e => .error e
          | .ok (v, rest) =>
            (readMembers depth fuel false rest).map fun (entries, rest) =>
              ((String.ofList name, v) :: entries, rest)
    | rest => refuse rest

end

/-- Levels of recursion that a text of this length cannot exceed. -/
def readFuel (text : List Char) : Nat := 3 * text.length + 3

def readStart (depth : Option Nat) (text : String) : Reading Json :=
  readValue depth (readFuel text.toList) text.toList

def readEnd (rest : List Char) : Except ReadError Unit :=
  if (skipBlanks rest).isEmpty then .ok () else .error .malformed

def read (text : String) (depth : Option Nat := none) : Except ReadError Json := do
  let (v, rest) ← readStart depth text
  readEnd rest
  return v

end SyntaxWalk.Json
