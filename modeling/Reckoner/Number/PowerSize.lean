import Reckoner.Binary64.Nearest

/-! An estimate of the bits that a power of an integer takes: the exponent times the binary logarithm
of the base. Each factor is a number of 53 significant bits, and the product is rounded to as many. -/
namespace Reckoner.PowerSize

/-- A positive number `significand · 2 ^ exponent`. -/
structure Size where
  significand : Nat
  exponent : Int
  deriving Repr, DecidableEq

/-- A quotient rounded to 53 significant bits. -/
def Size.round (num den : Nat) : Size :=
  let (m, e) := Binary64.significand Binary64.leastExponent num den
  ⟨m, e⟩

def Size.ofNat (n : Nat) : Size := Size.round n 1

def Size.mul (a b : Size) : Size :=
  let (num, den) := Binary64.unscale (a.significand * b.significand) 1 (-(a.exponent + b.exponent))
  Size.round num den

def Size.lt (a b : Size) : Bool :=
  let least := min a.exponent b.exponent
  a.significand * Nat.pow 2 (a.exponent - least).toNat < b.significand * Nat.pow 2 (b.exponent - least).toNat

/-- The binary places kept of a number between one and two while its logarithm is taken. -/
def places : Nat := 128

/-- The next `n` binary digits of the logarithm of `x / 2 ^ places`, after `found`: squaring a number
between one and two doubles its logarithm, and the integer part that comes out is a digit. -/
def logDigits : Nat → Nat → Nat → Nat
  | 0, _, found => found
  | n + 1, x, found =>
    let square := x * x / Nat.pow 2 places
    if Nat.pow 2 (places + 1) ≤ square then logDigits n (square / 2) (2 * found + 1)
    else logDigits n square (2 * found)

/-- The digits computed of a logarithm's fraction. -/
def logPlaces : Nat := 80

/-- The binary logarithm of a size of at least two: its fraction is cut to `logPlaces` digits, and what is left is
rounded to 53 significant bits. Where the digits cut off decide about the rounding, the logarithm is not the
nearest one of 53 bits. -/
def Size.log2 (s : Size) : Size :=
  let whole := (s.significand.log2 + s.exponent).toNat
  let x := s.significand * Nat.pow 2 (places - s.significand.log2)
  Size.round (logDigits logPlaces x whole) (Nat.pow 2 logPlaces)

/-- The binary logarithm of a base of at least two; beyond the doubles its bits are counted. -/
def logOfBase (base : Nat) : Size :=
  let s := Size.ofNat base
  if s.significand.log2 + s.exponent < 1024 then s.log2 else Size.ofNat (base.log2 + 1)

/-- Whether the estimate for `base ^ exponent` is above `maxBits`, for a base of at least two. -/
def exceeds (base exponent : Nat) (maxBits : UInt64) : Bool :=
  (Size.ofNat maxBits.toNat).lt ((Size.ofNat exponent).mul (logOfBase base))

end Reckoner.PowerSize
