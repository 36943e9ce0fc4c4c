import SyntaxWalk.Decimal.Binary64

/-!
# Shortest decimals

The shortest decimal that rounds back to a binary64 number, and of several of that length the
nearest, a tie going to the even digit. A grid of step `10^e` has a point in the interval of reals
that round to the number only if one of the number's two neighbours on the grid is such a point.
-/

namespace SyntaxWalk.Decimal

/-- `digits · 10^exponent`. -/
structure Scientific where
  digits : Nat
  exponent : Int
  deriving DecidableEq, Inhabited

/-- Numerators over one denominator of a number and of the ends of its rounding interval. -/
structure Interval where
  lower : Nat
  value : Nat
  upper : Nat
  denominator : Nat
  closed : Bool

def Binary64.interval (x : Binary64) : Interval :=
  let m := x.mantissa
  let (scale, den) := scaleRatio 1 1 (x.exponent - 2)
  let below := if m = leastFull ∧ -1074 < x.exponent then 4 * m - 1 else 4 * m - 2
  ⟨below * scale, 4 * m * scale, (4 * m + 2) * scale, den, m % 2 = 0⟩

def Interval.holds (i : Interval) (num den digits : Nat) : Bool :=
  let point := digits * num * i.denominator
  if i.closed then i.lower * den ≤ point && point ≤ i.upper * den
  else i.lower * den < point && point < i.upper * den

/-- The point of the grid of step `10^e` that reads back, the nearer one when both neighbours do. -/
def Interval.onGrid? (i : Interval) (e : Int) : Option Nat :=
  let (num, den) := scaleByTen 1 e
  let value := i.value * den
  let step := num * i.denominator
  let d := value / step
  let twice := 2 * (value % step)
  match i.holds num den d, i.holds num den (d + 1) with
  | true, true =>
    if twice < step then some d else if step < twice then some (d + 1)
    else some (if d % 2 = 0 then d else d + 1)
  | true, false => some d
  | false, true => some (d + 1)
  | false, false => none

def leadingExponent (num den : Nat) : Int :=
  let guess : Int := (((num.log2 : Int) - (den.log2 : Int)) * 30103).fdiv 100000
  let atLeast (e : Int) : Bool :=
    let (p, q) := scaleByTen 1 e
    p * den ≤ num * q
  if atLeast (guess + 1) then guess + 1 else if atLeast guess then guess else guess - 1

def Interval.firstGrid (i : Interval) (e : Int) : Nat → Scientific
  | 0 => ⟨i.value / i.denominator, 0⟩
  | n + 1 =>
    match i.onGrid? e with
    | some d => ⟨d, e⟩
    | none => i.firstGrid (e - 1) n

def Binary64.shortest (x : Binary64) : Scientific :=
  if x.isZero then ⟨0, 0⟩
  else
    let i := x.interval
    i.firstGrid (leadingExponent i.value i.denominator) 17

end SyntaxWalk.Decimal
