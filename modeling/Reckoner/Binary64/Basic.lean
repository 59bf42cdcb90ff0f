/-! A double as a sign, a significand and a binary exponent. `view` and `pack` pass between the two;
the bits of a finite double grow with its magnitude, so a carry out of the significand needs no case. -/
namespace Reckoner.Binary64

/-- What a double stands for; a finite one is `± significand · 2 ^ exponent`. -/
inductive View where
  | nan
  | infinite (negative : Bool)
  | finite (negative : Bool) (significand : Nat) (exponent : Int)
  deriving Repr, DecidableEq

/-- The exponent of the least positive double. -/
def leastExponent : Int := -1074

/-- The least significand with all 53 bits, and the number of codes with one exponent: `2 ^ 52`. -/
def leastNormal : Nat := 0x10000000000000

/-- The code of the sign: `2 ^ 63`. -/
def signCode (negative : Bool) : Nat := if negative then 0x8000000000000000 else 0

def view (x : Float) : View :=
  let bits := x.toBits.toNat
  let negative := decide (signCode true ≤ bits)
  let biased : Nat := bits / leastNormal % 2048
  let fraction := bits % leastNormal
  if biased = 2047 then
    if fraction = 0 then .infinite negative else .nan
  else if biased = 0 then .finite negative fraction leastExponent
  else .finite negative (leastNormal + fraction) (leastExponent + (biased - 1))

/-- The bits of infinity, and the first code past every finite magnitude. -/
def infinityCode : Nat := 2047 * leastNormal

/-- The double `± significand · 2 ^ exponent`, for a significand of at most 53 bits that has all of
them unless the exponent is the least one. Magnitudes out of range become infinite. -/
def pack (negative : Bool) (significand : Nat) (exponent : Int) : Float :=
  let code := (exponent - leastExponent).toNat * leastNormal + significand
  Float.ofBits (signCode negative + min code infinityCode).toUInt64

def infinity (negative : Bool) : Float := Float.ofBits (signCode negative + infinityCode).toUInt64

def zero (negative : Bool) : Float := pack negative 0 leastExponent

/-- The sign bit, set for `-0.0` as well; a NaN has none. -/
def isNegative (x : Float) : Bool :=
  match view x with
  | .nan => false
  | .infinite negative => negative
  | .finite negative _ _ => negative

end Reckoner.Binary64
