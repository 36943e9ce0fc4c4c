import SyntaxWalk.Json.Value
import SyntaxWalk.Decimal.Layout

/-!
# JSON numbers

An integer literal from `-2^63` to `2^64 - 1` is an integer, every other number a double. A double
is computed from the first digits that fit in 64 bits: they are rounded to a double, which is then
multiplied or divided by a power of ten, each step rounded.
-/

namespace SyntaxWalk.JsonNumber

open Decimal

inductive ReadError where
  | malformed
  | unfinished
  deriving DecidableEq, Inhabited

abbrev Reading (α : Type) := Except ReadError (α × List Char)

def digitValue (c : Char) : Nat := c.toNat - '0'.toNat

def startsWithDigit : List Char → Bool
  | c :: _ => c.isDigit
  | [] => false

def refuse {α : Type} (rest : List Char) : Except ReadError α :=
  .error (if rest.isEmpty then .unfinished else .malformed)

def significandBound : Nat := 0x10000000000000000

/-- The digits read, as a natural number below `2^64`, and how many more of them there were. -/
structure Digits where
  value : Nat
  taken : Nat
  dropped : Nat
  rest : List Char

def takeDigits (value taken : Nat) : List Char → Digits
  | [] => ⟨value, taken, 0, []⟩
  | c :: rest =>
    if !c.isDigit then ⟨value, taken, 0, c :: rest⟩
    else if significandBound ≤ value * 10 + digitValue c then
      ⟨value, taken, ((c :: rest).takeWhile Char.isDigit).length,
        (c :: rest).dropWhile Char.isDigit⟩
    else takeDigits (value * 10 + digitValue c) (taken + 1) rest

/-- `f · 10^e` in steps of at most `10^308`; none if it is too large. -/
def timesTen (f : Binary64) (e : Int) : Option Binary64 :=
  if f.isZero then some f
  else if -308 ≤ e then
    if 308 < e then none
    else do
      let power ← Binary64.ofNat (Nat.pow 10 e.natAbs)
      if 0 ≤ e then f.mul power else f.div power
  else do
    let power ← Binary64.ofNat (Nat.pow 10 308)
    timesTen (← f.div power) (e + 308)
termination_by e.natAbs

def doubleOf (negative : Bool) (value : Nat) (e : Int) : Except ReadError JsonNumber :=
  match (Binary64.ofNat value).bind (timesTen · e) with
  | some f => .ok (.double { f with negative })
  | none => .error .malformed

def integerOf (negative : Bool) (value : Nat) : Except ReadError JsonNumber :=
  if !negative then .ok (.int value)
  else if value = 0 ∨ 0x8000000000000000 < value then doubleOf true value 0
  else .ok (.int (-(value : Int)))

/-- Exponent digits, none once they pass `2^31 - 1`. -/
def exponentOf (digits : List Char) : Option Nat :=
  let e := digits.foldl (fun e c => e * 10 + digitValue c) 0
  if e < 0x80000000 then some e else none

/-- The exponent after its letter. One too large to hold makes the number zero or too large. -/
def readExponent (negative : Bool) (value : Nat) (e : Int) (text : List Char) :
    Reading JsonNumber :=
  let (below, digits) := match text with
    | '+' :: rest => (false, rest)
    | '-' :: rest => (true, rest)
    | rest => (false, rest)
  if !startsWithDigit digits then refuse digits
  else
    let rest := digits.dropWhile Char.isDigit
    match exponentOf (digits.takeWhile Char.isDigit) with
    | some x => (doubleOf negative value (if below then e - x else e + x)).map (·, rest)
    | none =>
      if value ≠ 0 ∧ !below then .error .malformed
      else .ok (.double (Binary64.zero negative), rest)

/-- The places after the point. Once they no longer fit the rest of them count for nothing. -/
def readFraction (negative : Bool) (value : Nat) (e : Int) (text : List Char) :
    Reading JsonNumber :=
  if !startsWithDigit text then refuse text
  else
    let d := takeDigits value 0 text
    let e := e - d.taken
    match d.rest with
    | 'e' :: rest | 'E' :: rest => readExponent negative d.value e rest
    | rest => (doubleOf negative d.value e).map (·, rest)

def readAfterWhole (negative : Bool) (d : Digits) : Reading JsonNumber :=
  match d.rest with
  | '.' :: rest => readFraction negative d.value d.dropped rest
  | 'e' :: rest | 'E' :: rest => readExponent negative d.value d.dropped rest
  | rest =>
    if d.dropped = 0 then (integerOf negative d.value).map (·, rest)
    else (doubleOf negative d.value d.dropped).map (·, rest)

def readUnsigned (negative : Bool) (text : List Char) : Reading JsonNumber :=
  match text with
  | '0' :: rest =>
    if startsWithDigit rest then .error .malformed else readAfterWhole negative ⟨0, 1, 0, rest⟩
  | _ => if startsWithDigit text then readAfterWhole negative (takeDigits 0 0 text) else refuse text

def read : List Char → Reading JsonNumber
  | '-' :: rest => readUnsigned true rest
  | text => readUnsigned false text

def text : JsonNumber → List Char
  | .int n => intText n
  | .double x => Layout.bounded.text x

end SyntaxWalk.JsonNumber
