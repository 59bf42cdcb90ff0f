import Reckoner.Binary64.Basic

/-! The double nearest to a quotient of naturals, ties to the even significand. Everything is exact:
the quotient is compared and divided as naturals, so integers of any width and decimals of any length
go through the same function. -/
namespace Reckoner.Binary64

/-- The integer nearest to `num / den`, ties to even. -/
def roundDiv (num den : Nat) : Nat :=
  let quotient := num / den
  let twice := 2 * (num % den)
  if den < twice ∨ (twice = den ∧ quotient % 2 = 1) then quotient + 1 else quotient

/-- The numerator and denominator of `num / den / 2 ^ shift`. -/
def unscale (num den : Nat) (shift : Int) : Nat × Nat :=
  (num * Nat.pow 2 (-shift).toNat, den * Nat.pow 2 shift.toNat)

/-- The greatest `e` with `2 ^ e ≤ num / den`, for positive arguments. -/
def floorLog (num den : Nat) : Int :=
  let guess : Int := num.log2 - den.log2
  let scaled := unscale num den guess
  if scaled.2 ≤ scaled.1 then guess else guess - 1

/-- A positive quotient rounded to `2 ^ exponent` steps with 53 significant bits, or fewer where
`least` is reached: the significand and the exponent. -/
def significand (least : Int) (num den : Nat) : Nat × Int :=
  let exponent := max least (floorLog num den - 52)
  let scaled := unscale num den exponent
  (roundDiv scaled.1 scaled.2, exponent)

/-- The double nearest to `± num / den`. -/
def nearest (negative : Bool) (num den : Nat) : Float :=
  if num = 0 then zero negative
  else
    let (m, e) := significand leastExponent num den
    pack negative m e

def ofNat (n : Nat) : Float := nearest false n 1

def ofInt (n : Int) : Float := nearest (n < 0) n.natAbs 1

end Reckoner.Binary64
