/-!
# Finite binary64 numbers

A number is held as `± mantissa · 2^exponent`, with the largest mantissa below `2^53` that keeps the
exponent at or above `-1074`. Every operation computes the exact ratio and rounds it once, to the
nearest number, a tie going to the even mantissa; a result past the largest number is `none`.
-/

namespace SyntaxWalk.Decimal

structure Binary64 where
  negative : Bool
  mantissa : Nat
  exponent : Int
  deriving DecidableEq, Inhabited

/-- `num / den` to the nearest integer, a half to the even one. -/
def roundHalfEven (num den : Nat) : Nat :=
  let q := num / den
  let twice := 2 * (num % den)
  if twice < den then q
  else if den < twice then q + 1
  else if q % 2 = 0 then q else q + 1

theorem roundHalfEven_near (num : Nat) {den : Nat} (h : 0 < den) :
    2 * num ≤ 2 * (den * roundHalfEven num den) + den ∧
      2 * (den * roundHalfEven num den) ≤ 2 * num + den := by
  have hsplit := Nat.div_add_mod num den
  have hrest := Nat.mod_lt num h
  have hnext : den * (num / den + 1) = den * (num / den) + den := Nat.mul_succ ..
  unfold roundHalfEven
  dsimp only
  repeat' split
  all_goals omega

/-- `num · 2^e` over `den · 2^f`, with the powers moved to the side where they are natural. -/
def scaleRatio (num den : Nat) (e : Int) : Nat × Nat :=
  if 0 ≤ e then (num * Nat.pow 2 e.toNat, den) else (num, den * Nat.pow 2 (-e).toNat)

def scaleByTen (n : Nat) (e : Int) : Nat × Nat :=
  if 0 ≤ e then (n * Nat.pow 10 e.toNat, 1) else (n, Nat.pow 10 (-e).toNat)

def leastFull : Nat := 0x10000000000000

namespace Binary64

def zero (negative : Bool) : Binary64 := ⟨negative, 0, -1074⟩

def largestExponent : Int := 971

/-- The exponent for a ratio: the one that gives 53 bits, or the least there is. -/
def ratioExponent (num den : Nat) : Int :=
  let e : Int := (num.log2 : Int) - (den.log2 : Int) - 52
  let (n, d) := scaleRatio num den (-e)
  max (if n < leastFull * d then e - 1 else e) (-1074)

def ofRatio (negative : Bool) (num den : Nat) : Option Binary64 :=
  if num = 0 then some (zero negative)
  else
    let e := ratioExponent num den
    let (n, d) := scaleRatio num den (-e)
    let m := roundHalfEven n d
    let (m, e) := if m = 2 * leastFull then (leastFull, e + 1) else (m, e)
    if largestExponent < e then none else some ⟨negative, m, e⟩

def ofNat (n : Nat) : Option Binary64 := ofRatio false n 1

def isZero (x : Binary64) : Bool := x.mantissa == 0

def neg (x : Binary64) : Binary64 := { x with negative := !x.negative }

def mul (x y : Binary64) : Option Binary64 :=
  let (n, d) := scaleRatio (x.mantissa * y.mantissa) 1 (x.exponent + y.exponent)
  ofRatio (x.negative != y.negative) n d

def div (x y : Binary64) : Option Binary64 :=
  let (n, d) := scaleRatio x.mantissa y.mantissa (x.exponent - y.exponent)
  ofRatio (x.negative != y.negative) n d

instance : BEq Binary64 where
  beq x y := (x.isZero && y.isZero) || decide (x = y)

theorem beq_self (x : Binary64) : (x == x) = true := by
  simp [BEq.beq]

end Binary64

end SyntaxWalk.Decimal
