import SyntaxWalk.Toml.Table
import SyntaxWalk.Text.Hex

/-!
# Reading TOML text

A whole text is read as one table, or refused. Every reader takes the characters that are left and
answers what it read and what is left then, or none.
-/

namespace SyntaxWalk.Toml

open Decimal (Binary64)
open Text (hexDigit?)

/-! ## Blanks -/

def isBlank (c : Char) : Bool := c = ' ' || c = '\t'

def skipBlanks (text : List Char) : List Char := text.dropWhile isBlank

/-- Controls but the tab never stand in a text outside line ends. -/
def isPlain (c : Char) : Bool := c = '\t' || (0x20 ≤ c.toNat && c.toNat ≠ 0x7f)

def newline? : List Char → Option (List Char)
  | '\n' :: rest => some rest
  | '\r' :: '\n' :: rest => some rest
  | _ => none

def lineEnd? (text : List Char) : Option (List Char) :=
  if text.isEmpty then some [] else newline? text

def skipComment : List Char → List Char
  | '#' :: rest => rest.dropWhile isPlain
  | text => text

def trailing? (text : List Char) : Option (List Char) := lineEnd? (skipComment (skipBlanks text))

def skipLines : Nat → List Char → List Char
  | 0, text => text
  | fuel + 1, text =>
    let text := skipBlanks text
    match newline? (skipComment text) with
    | some rest => skipLines fuel rest
    | none => text

/-! ## Strings -/

def hexNumber? (digits : List Char) : Option Nat :=
  digits.foldlM (fun n c => do return n * 16 + (← hexDigit? c)) 0

def readCode (width : Nat) (text : List Char) : Option (Char × List Char) := do
  let digits := text.take width
  let n ← hexNumber? digits
  if digits.length = width ∧ n.isValidChar then some (Char.ofNat n, text.drop width) else none

def readEscape : List Char → Option (Char × List Char)
  | 'b' :: rest => some ('\x08', rest)
  | 'f' :: rest => some ('\x0c', rest)
  | 'n' :: rest => some ('\n', rest)
  | 'r' :: rest => some ('\r', rest)
  | 't' :: rest => some ('\t', rest)
  | '"' :: rest => some ('"', rest)
  | '\\' :: rest => some ('\\', rest)
  | 'u' :: rest => readCode 4 rest
  | 'U' :: rest => readCode 8 rest
  | _ => none

def push (c : Char) : Option (List Char × List Char) → Option (List Char × List Char)
  | some (cs, rest) => some (c :: cs, rest)
  | none => none

def readBasic : Nat → List Char → Option (List Char × List Char)
  | 0, _ => none
  | fuel + 1, text =>
    match text with
    | '"' :: rest => some ([], rest)
    | '\\' :: rest => do
      let (c, rest) ← readEscape rest
      push c (readBasic fuel rest)
    | c :: rest => if isPlain c then push c (readBasic fuel rest) else none
    | [] => none

def readLiteral : List Char → Option (List Char × List Char)
  | '\'' :: rest => some ([], rest)
  | c :: rest => if isPlain c then push c (readLiteral rest) else none
  | [] => none

def skipFold : List Char → List Char
  | '\r' :: '\n' :: rest => skipFold rest
  | c :: rest => if isBlank c || c = '\n' then skipFold rest else c :: rest
  | [] => []

/-- Blanks and line ends after a backslash that ends a line; none if it does not. -/
def foldedLine? (text : List Char) : Option (List Char) :=
  (newline? (skipBlanks text)).map skipFold

/-- The quotes at the end of a string over several lines: three close it, up to two more belong to
it. -/
def closing? (quote : Char) (text : List Char) : Option (List Char × List Char) :=
  let quotes := (text.takeWhile (· = quote)).length
  if quotes < 3 then none
  else
    let kept := min (quotes - 3) 2
    some (List.replicate kept quote, text.drop (kept + 3))

def readMultiline (quote : Char) (escapes : Bool) : Nat → List Char → Option (List Char × List Char)
  | 0, _ => none
  | fuel + 1, text =>
    match closing? quote text with
    | some (last, rest) => some (last, rest)
    | none =>
      match newline? text with
      | some rest => push '\n' (readMultiline quote escapes fuel rest)
      | none =>
        match text with
        | [] => none
        | c :: rest =>
          if escapes && c = '\\' then
            match foldedLine? rest with
            | some rest => readMultiline quote escapes fuel rest
            | none => do
              let (c, rest) ← readEscape rest
              push c (readMultiline quote escapes fuel rest)
          else if isPlain c then push c (readMultiline quote escapes fuel rest)
          else none

/-- A line end right after the opening quotes does not count. -/
def afterOpening (text : List Char) : List Char := (newline? text).getD text

def asString : Option (List Char × List Char) → Option (String × List Char)
  | some (cs, rest) => some (String.ofList cs, rest)
  | none => none

def readString (text : List Char) : Option (String × List Char) :=
  let fuel := text.length + 1
  match text with
  | '"' :: '"' :: '"' :: rest => asString (readMultiline '"' true fuel (afterOpening rest))
  | '\'' :: '\'' :: '\'' :: rest => asString (readMultiline '\'' false fuel (afterOpening rest))
  | '"' :: rest => asString (readBasic fuel rest)
  | '\'' :: rest => asString (readLiteral rest)
  | _ => none

/-! ## Numbers -/

def readDigits (isDigit : Char → Bool) : List Char → Option (List Char × List Char)
  | c :: '_' :: d :: rest =>
    if isDigit c then
      if isDigit d then push c (readDigits isDigit (d :: rest)) else some ([c], '_' :: d :: rest)
    else none
  | c :: rest =>
    if isDigit c then
      match readDigits isDigit rest with
      | some (cs, rest) => some (c :: cs, rest)
      | none => some ([c], rest)
    else none
  | [] => none

def numberOf (base : Nat) (digits : List Char) : Nat :=
  digits.foldl (fun n c => n * base + (hexDigit? c).getD 0) 0

structure Sign where
  negative : Bool
  given : Bool

def readSign : List Char → Sign × List Char
  | '+' :: rest => (⟨false, true⟩, rest)
  | '-' :: rest => (⟨true, true⟩, rest)
  | text => (⟨false, false⟩, text)

def readWhole : List Char → Option (List Char × List Char)
  | '0' :: rest => some (['0'], rest)
  | text => readDigits Char.isDigit text

def inRange (n : Int) : Option Int :=
  if -0x8000000000000000 ≤ n ∧ n < 0x8000000000000000 then some n else none

def readBased (base : Nat) (isDigit : Char → Bool) (text : List Char) :
    Option (Value × List Char) := do
  let (digits, rest) ← readDigits isDigit text
  return (.integer (← inRange (numberOf base digits)), rest)

def readInteger : List Char → Option (Value × List Char)
  | '0' :: 'x' :: rest => readBased 16 (fun c => (hexDigit? c).isSome) rest
  | '0' :: 'o' :: rest => readBased 8 (fun c => '0' ≤ c && c ≤ '7') rest
  | '0' :: 'b' :: rest => readBased 2 (fun c => c = '0' || c = '1') rest
  | text => do
    let (sign, text) := readSign text
    let (digits, rest) ← readWhole text
    let n : Int := numberOf 10 digits
    return (.integer (← inRange (if sign.negative then -n else n)), rest)

def readPlaces : List Char → Option (List Char × List Char)
  | '.' :: rest => readDigits Char.isDigit rest
  | text => some ([], text)

def readExponent : List Char → Option (Option Int × List Char)
  | 'e' :: rest | 'E' :: rest => do
    let (sign, rest) := readSign rest
    let (digits, rest) ← readDigits Char.isDigit rest
    let n : Int := numberOf 10 digits
    return (some (if sign.negative then -n else n), rest)
  | text => some (none, text)

/-- Past these powers of ten every number is zero or too large, and they are costly to write out. -/
def clampExponent (digits : Nat) (e : Int) : Int :=
  max (-(digits : Int) - 400) (min e 400)

def realOf (negative : Bool) (digits : List Char) (e : Int) : Real :=
  let n := numberOf 10 digits
  let e := clampExponent digits.length e
  let (num, den) := Decimal.scaleByTen n e
  match Binary64.ofRatio negative num den with
  | some x => .finite x
  | none => .infinite negative

/-- A number with a point or an exponent. One too large is refused, unless it is negative. -/
def readDecimal (sign : Sign) (text : List Char) : Option (Value × List Char) := do
  let (whole, rest) ← readWhole text
  let (places, rest) ← readPlaces rest
  let (e, rest) ← readExponent rest
  if places.isEmpty && e.isNone then none
  else
    let x := realOf sign.negative (whole ++ places) (e.getD 0 - places.length)
    if x = .infinite false then none else some (.real x, rest)

def readReal (text : List Char) : Option (Value × List Char) :=
  let (sign, text) := readSign text
  match text with
  | 'i' :: 'n' :: 'f' :: rest => some (.real (.infinite sign.negative), rest)
  | 'n' :: 'a' :: 'n' :: rest => some (.real .nan, rest)
  | _ => readDecimal sign text

/-! ## Dates and times -/

def readFixed (width : Nat) (text : List Char) : Option (Nat × List Char) :=
  let digits := text.take width
  if digits.length = width ∧ digits.all Char.isDigit then
    some (numberOf 10 digits, text.drop width)
  else none

def readChar (c : Char) : List Char → Option (List Char)
  | d :: rest => if c = d then some rest else none
  | [] => none

def daysIn (year month : Nat) : Nat :=
  if month = 2 then
    if year % 4 = 0 ∧ (year % 100 ≠ 0 ∨ year % 400 = 0) then 29 else 28
  else if month = 4 ∨ month = 6 ∨ month = 9 ∨ month = 11 then 30
  else 31

def readDate (text : List Char) : Option (Date × List Char) := do
  let (year, rest) ← readFixed 4 text
  let (month, rest) ← readFixed 2 (← readChar '-' rest)
  let (day, rest) ← readFixed 2 (← readChar '-' rest)
  if 1 ≤ month ∧ month ≤ 12 ∧ 1 ≤ day ∧ day ≤ daysIn year month then
    some (⟨year, month, day⟩, rest)
  else none

/-- Nine digits of the fraction of a second count, the rest are dropped. -/
def readFraction : List Char → Option (Nat × List Char)
  | '.' :: rest =>
    let digits := rest.takeWhile Char.isDigit
    if digits.isEmpty then none
    else some (numberOf 10 ((digits ++ Decimal.zeros 9).take 9), rest.dropWhile Char.isDigit)
  | text => some (0, text)

def readTime (text : List Char) : Option (Time × List Char) := do
  let (hour, rest) ← readFixed 2 text
  let (minute, rest) ← readFixed 2 (← readChar ':' rest)
  let (second, rest) ← readFixed 2 (← readChar ':' rest)
  let (nanosecond, rest) ← readFraction rest
  if hour < 24 ∧ minute < 60 ∧ second ≤ 60 then some (⟨hour, minute, second, nanosecond⟩, rest)
  else none

def readOffset (negative : Bool) (text : List Char) : Option (Zone × List Char) := do
  let (hour, rest) ← readFixed 2 text
  let (minute, rest) ← readFixed 2 (← readChar ':' rest)
  let minutes : Int := hour * 60 + minute
  if hour < 24 ∧ minute < 60 then some (.offset (if negative then -minutes else minutes), rest)
  else none

def readZone : List Char → Option (Option Zone × List Char)
  | 'Z' :: rest | 'z' :: rest => some (some .utc, rest)
  | '+' :: rest => (readOffset false rest).map fun (z, rest) => (some z, rest)
  | '-' :: rest => (readOffset true rest).map fun (z, rest) => (some z, rest)
  | text => some (none, text)

/-- The time after a date, behind a `T` or one space. A space may also just end the date. -/
def readTimeAfter (date : Date) (text : List Char) : Option (DateTime × List Char) :=
  match text with
  | c :: rest =>
    if c = 'T' ∨ c = 't' ∨ c = ' ' then
      match readTime rest with
      | some (time, rest) =>
        (readZone rest).map fun (zone, rest) => (⟨some date, some time, zone⟩, rest)
      | none => some (⟨some date, none, none⟩, text)
    else some (⟨some date, none, none⟩, text)
  | [] => some (⟨some date, none, none⟩, [])

def readDateTime (text : List Char) : Option (DateTime × List Char) :=
  match readDate text with
  | some (date, rest) => readTimeAfter date rest
  | none => (readTime text).map fun (time, rest) => (⟨none, some time, none⟩, rest)

/-! ## Keys and values -/

def isBareKeyChar (c : Char) : Bool := c.isAlphanum || c = '_' || c = '-'

def readSimpleKey (text : List Char) : Option (String × List Char) :=
  match text with
  | '"' :: rest => asString (readBasic (rest.length + 1) rest)
  | '\'' :: rest => asString (readLiteral rest)
  | _ =>
    let name := text.takeWhile isBareKeyChar
    if name.isEmpty then none else some (String.ofList name, text.dropWhile isBareKeyChar)

structure Key where
  path : List String
  last : String

def Key.length (k : Key) : Nat := k.path.length + 1

def readKeyParts : Nat → List Char → Option (Key × List Char)
  | 0, _ => none
  | fuel + 1, text => do
    let (name, rest) ← readSimpleKey (skipBlanks text)
    match skipBlanks rest with
    | '.' :: rest =>
      let (k, rest) ← readKeyParts fuel rest
      return (⟨name :: k.path, k.last⟩, rest)
    | rest => return (⟨[], name⟩, rest)

def nestingBound : Nat := 80

def readKey (text : List Char) : Option (Key × List Char) := do
  let (k, rest) ← readKeyParts (text.length + 1) text
  if k.length < nestingBound then some (k, rest) else none

def readWord (v : Value) : List Char → List Char → Option (Value × List Char)
  | [], rest => some (v, rest)
  | _ :: _, [] => none
  | c :: word, d :: rest => if c = d then readWord v word rest else none

def readNumber (text : List Char) : Option (Value × List Char) :=
  match readDateTime text with
  | some (d, rest) => some (.dateTime d, rest)
  | none =>
    match readReal text with
    | some r => some r
    | none => readInteger text

mutual

def readValue (depth : Nat) : Nat → List Char → Option (Value × List Char)
  | 0, _ => none
  | fuel + 1, text =>
    match text with
    | '"' :: _ | '\'' :: _ => (readString text).map fun (s, rest) => (.string s, rest)
    | '[' :: rest =>
      if nestingBound ≤ depth + 1 then none
      else (readItems (depth + 1) fuel rest).map fun (items, rest) => (.array items, rest)
    | '{' :: rest =>
      if nestingBound ≤ depth + 1 then none
      else (readPairs (depth + 1) fuel rest).map fun (entries, rest) =>
        (.table (Draft.finishEntries entries), rest)
    | 't' :: rest => readWord (.boolean true) ['r', 'u', 'e'] rest
    | 'f' :: rest => readWord (.boolean false) ['a', 'l', 's', 'e'] rest
    | _ => readNumber text
termination_by structural fuel _ => fuel

def readItems (depth : Nat) : Nat → List Char → Option (List Value × List Char)
  | 0, _ => none
  | fuel + 1, text =>
    match skipLines text.length text with
    | ']' :: rest => some ([], rest)
    | text =>
      match readValue depth fuel text with
      | none => none
      | some (v, rest) =>
        match skipLines rest.length rest with
        | ',' :: rest => (readItems depth fuel rest).map fun (vs, rest) => (v :: vs, rest)
        | ']' :: rest => some ([v], rest)
        | _ => none

/-- The pairs of an inline table, on one line and without a comma after the last. -/
def readPairs (depth : Nat) : Nat → List Char → Option (Drafts × List Char)
  | 0, _ => none
  | fuel + 1, text =>
    match skipBlanks text with
    | '}' :: rest => some ([], rest)
    | text => readPair depth fuel [] text

def readPair (depth : Nat) : Nat → Drafts → List Char → Option (Drafts × List Char)
  | 0, _, _ => none
  | fuel + 1, entries, text =>
    match readKey text with
    | none => none
    | some (k, rest) =>
      match rest with
      | '=' :: rest =>
        match readValue depth fuel (skipBlanks rest) with
        | none => none
        | some (v, rest) =>
          match Draft.assign k.path k.last v .explicit entries with
          | none => none
          | some entries =>
            match skipBlanks rest with
            | ',' :: rest => readPair depth fuel entries rest
            | '}' :: rest => some (entries, rest)
            | _ => none
      | _ => none

end

/-! ## The text -/

structure Progress where
  root : Drafts := []
  current : List String := []

def Progress.assign (p : Progress) (k : Key) (v : Value) : Option Progress := do
  let add := Draft.assign k.path k.last v
  return { p with root := ← Draft.edit false p.current add .explicit p.root }

def Progress.openTable (p : Progress) (k : Key) : Option Progress := do
  return ⟨← Draft.openTable k.path k.last p.root, k.path ++ [k.last]⟩

def Progress.openElement (p : Progress) (k : Key) : Option Progress := do
  return ⟨← Draft.openElement k.path k.last p.root, k.path ++ [k.last]⟩

def readFuel (text : List Char) : Nat := 3 * text.length + 3

def readPairLine (p : Progress) (text : List Char) : Option (Progress × List Char) := do
  let (k, rest) ← readKey text
  let rest ← readChar '=' rest
  let rest := skipBlanks rest
  let (v, rest) ← readValue 0 (readFuel rest) rest
  let rest ← trailing? rest
  return (← p.assign k v, rest)

def readHeader (p : Progress) (text : List Char) : Option (Progress × List Char) := do
  let (k, rest) ← readKey text
  let rest ← trailing? (← readChar ']' rest)
  return (← p.openTable k, rest)

def readElementHeader (p : Progress) (text : List Char) : Option (Progress × List Char) := do
  let (k, rest) ← readKey text
  let rest ← trailing? (← readChar ']' (← readChar ']' rest))
  return (← p.openElement k, rest)

def readLine (p : Progress) (text : List Char) : Option (Progress × List Char) :=
  match text with
  | '#' :: _ | '\n' :: _ | '\r' :: _ => (trailing? text).map fun rest => (p, rest)
  | '[' :: '[' :: rest => readElementHeader p rest
  | '[' :: rest => readHeader p rest
  | _ => readPairLine p text

def readLines : Nat → Progress → List Char → Option Progress
  | 0, _, _ => none
  | fuel + 1, p, text =>
    match skipBlanks text with
    | [] => some p
    | text => do
      let (p, rest) ← readLine p text
      readLines fuel p rest

def withoutMark : List Char → List Char
  | '\ufeff' :: rest => rest
  | text => text

def read? (text : String) : Option (List (String × Value)) :=
  let text := withoutMark text.toList
  (readLines (text.length + 1) {} text).map fun p => Draft.finishEntries p.root

end SyntaxWalk.Toml
