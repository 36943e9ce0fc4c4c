import SyntaxWalk.Decimal.Shortest

/-!
# Decimal layout

How the shortest decimal of a number is written: positionally with at least one place, or with an
exponent when a layout bounds the positional range.
-/

namespace SyntaxWalk.Decimal

/-- The exponents of the first digit that are written positionally; no bounds, all of them. -/
structure Layout where
  positional : Option (Int × Int)

def Layout.bounded : Layout := ⟨some (-5, 15)⟩

def Layout.unbounded : Layout := ⟨none⟩

def digitsOf (n : Nat) : List Char := Nat.toDigits 10 n

def intText (n : Int) : List Char :=
  if n < 0 then '-' :: digitsOf n.natAbs else digitsOf n.natAbs

def dropTrailingZeros (digits : List Char) : List Char :=
  (digits.reverse.dropWhile (· = '0')).reverse

def zeros (n : Nat) : List Char := List.replicate n '0'

/-- Digits `d₀d₁…` read as `d₀.d₁… · 10^k`. -/
def positionalText (digits : List Char) (k : Int) : List Char :=
  if k < 0 then '0' :: '.' :: zeros (-k - 1).toNat ++ digits
  else
    let whole := k.toNat + 1
    if digits.length ≤ whole then digits ++ zeros (whole - digits.length) ++ ['.', '0']
    else digits.take whole ++ '.' :: digits.drop whole

def exponentText (digits : List Char) (k : Int) : List Char :=
  let fraction := match digits.drop 1 with
    | [] => []
    | rest => '.' :: rest
  digits.take 1 ++ fraction ++ 'e' :: (if k < 0 then [] else ['+']) ++ intText k

def Layout.text (layout : Layout) (x : Binary64) : List Char :=
  let sign := if x.negative then ['-'] else []
  if x.isZero then sign ++ ['0', '.', '0']
  else
    let s := x.shortest
    let all := digitsOf s.digits
    let k := s.exponent + all.length - 1
    let digits := dropTrailingZeros all
    let positional := match layout.positional with
      | none => true
      | some (least, most) => least ≤ k && k ≤ most
    sign ++ if positional then positionalText digits k else exponentText digits k

end SyntaxWalk.Decimal
