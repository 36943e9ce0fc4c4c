import SyntaxWalk.Json.Number

/-!
# Printing JSON

Compact text, and text laid out over lines with two spaces a level. A string escapes the quote, the
backslash and the characters below the space, and nothing else. Each function puts its text in
front of the characters that follow.
-/

namespace SyntaxWalk.Json

def hexPair (n : Nat) : List Char := [Nat.digitChar (n / 16), Nat.digitChar (n % 16)]

def escapeChar (c : Char) : List Char :=
  if c = '"' ∨ c = '\\' then ['\\', c]
  else if c = '\x08' then ['\\', 'b']
  else if c = '\x0c' then ['\\', 'f']
  else if c = '\n' then ['\\', 'n']
  else if c = '\r' then ['\\', 'r']
  else if c = '\t' then ['\\', 't']
  else if c.toNat < 0x20 then '\\' :: 'u' :: '0' :: '0' :: hexPair c.toNat
  else [c]

def writeChars : List Char → List Char → List Char
  | [], rest => rest
  | c :: cs, rest => escapeChar c ++ writeChars cs rest

def writeString (s : String) (rest : List Char) : List Char :=
  '"' :: writeChars s.toList ('"' :: rest)

mutual

def write : Json → List Char → List Char
  | .null, rest => 'n' :: 'u' :: 'l' :: 'l' :: rest
  | .bool true, rest => 't' :: 'r' :: 'u' :: 'e' :: rest
  | .bool false, rest => 'f' :: 'a' :: 'l' :: 's' :: 'e' :: rest
  | .number n, rest => n.text ++ rest
  | .string s, rest => writeString s rest
  | .array items, rest => '[' :: writeItems items rest
  | .object ⟨entries⟩, rest => '{' :: writeMembers entries rest

def writeItems : List Json → List Char → List Char
  | [], rest => ']' :: rest
  | [v], rest => v.write (']' :: rest)
  | v :: w :: more, rest => v.write (',' :: writeItems (w :: more) rest)

def writeMembers : List (String × Json) → List Char → List Char
  | [], rest => '}' :: rest
  | [(name, v)], rest => writeString name (':' :: v.write ('}' :: rest))
  | (name, v) :: entry :: more, rest =>
    writeString name (':' :: v.write (',' :: writeMembers (entry :: more) rest))

end

def compact (v : Json) : String := String.ofList (v.write [])

def writeLine (level : Nat) (rest : List Char) : List Char :=
  '\n' :: List.replicate (2 * level) ' ' ++ rest

mutual

def writePretty (level : Nat) : Json → List Char → List Char
  | .array [], rest => '[' :: ']' :: rest
  | .array (v :: more), rest => '[' :: writePrettyItems level (v :: more) rest
  | .object ⟨[]⟩, rest => '{' :: '}' :: rest
  | .object ⟨entry :: more⟩, rest => '{' :: writePrettyMembers level (entry :: more) rest
  | v, rest => v.write rest

def writePrettyItems (level : Nat) : List Json → List Char → List Char
  | [], rest => writeLine level (']' :: rest)
  | [v], rest => writeLine (level + 1) (writePretty (level + 1) v (writeLine level (']' :: rest)))
  | v :: w :: more, rest =>
    writeLine (level + 1) <| writePretty (level + 1) v <|
      ',' :: writePrettyItems level (w :: more) rest

def writePrettyMembers (level : Nat) : List (String × Json) → List Char → List Char
  | [], rest => writeLine level ('}' :: rest)
  | [(name, v)], rest =>
    writeLine (level + 1) <| writeString name <| ':' :: ' ' ::
      writePretty (level + 1) v (writeLine level ('}' :: rest))
  | (name, v) :: entry :: more, rest =>
    writeLine (level + 1) <| writeString name <| ':' :: ' ' ::
      writePretty (level + 1) v (',' :: writePrettyMembers level (entry :: more) rest)

end

def pretty (v : Json) : String := String.ofList (writePretty 0 v [])

theorem writeChars_append (cs rest more : List Char) :
    writeChars cs rest ++ more = writeChars cs (rest ++ more) := by
  induction cs with
  | nil => rfl
  | cons c cs ih => simp [writeChars, ih]

end SyntaxWalk.Json
