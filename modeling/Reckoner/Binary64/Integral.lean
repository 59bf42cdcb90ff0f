import Reckoner.Binary64.Nearest

/-! Integers next to a double: floor, ceiling and the nearest one with ties to even, as integers and
as doubles. The doubles keep the sign of what they were taken from, also when they are zero. -/
namespace Reckoner.Binary64

/-- The numerator and denominator of `significand · 2 ^ exponent`. -/
def ratio (significand : Nat) (exponent : Int) : Nat × Nat :=
  unscale significand 1 (-exponent)

/-- How a magnitude is taken to a whole number. -/
inductive Direction where
  | floor
  | ceiling
  | halfEven
  deriving Repr, DecidableEq

/-- The magnitude of the whole number next to `± num / den`. -/
def Direction.magnitude (d : Direction) (negative : Bool) (num den : Nat) : Nat :=
  let up := (num + (den - 1)) / den
  match d with
  | .floor => if negative then up else num / den
  | .ceiling => if negative then num / den else up
  | .halfEven => roundDiv num den

def signed (negative : Bool) (n : Nat) : Int := if negative then -n else n

/-- The whole number next to a finite double. -/
def toInt? (d : Direction) (x : Float) : Option Int :=
  match view x with
  | .finite negative m e =>
    let (num, den) := ratio m e
    some (signed negative (d.magnitude negative num den))
  | _ => none

/-- The whole number next to a double, as a double of the same sign. -/
def toIntegral (d : Direction) (x : Float) : Float :=
  match view x with
  | .finite negative m e =>
    let (num, den) := ratio m e
    nearest negative (d.magnitude negative num den) 1
  | _ => x

def floor (x : Float) : Float := toIntegral .floor x

def roundHalfEven (x : Float) : Float := toIntegral .halfEven x

def isIntegral (x : Float) : Bool :=
  match view x with
  | .finite _ m e =>
    let (num, den) := ratio m e
    num % den = 0
  | _ => false

/-- The remainder of the division truncated toward zero, exact and with the sign of the dividend. -/
def remainder (x y : Float) : Float :=
  match view x, view y with
  | .finite negative m e, .finite _ n f =>
    if n = 0 then 0.0 / 0.0
    else
      let least := min e f
      let dividend := m * Nat.pow 2 (e - least).toNat
      let divisor := n * Nat.pow 2 (f - least).toNat
      let (num, den) := ratio (dividend % divisor) least
      nearest negative num den
  | .finite _ _ _, .infinite _ => x
  | _, _ => 0.0 / 0.0

def copySign (magnitude sign : Float) : Float :=
  match view magnitude with
  | .nan => magnitude
  | .infinite _ => infinity (isNegative sign)
  | .finite _ m e => pack (isNegative sign) m e

end Reckoner.Binary64
