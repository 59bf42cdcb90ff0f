import Reckoner.Number.Basic
import Reckoner.Binary64.Integral
import Reckoner.Decimal.Fixed

/-! Values taken to whole numbers, and rounded to a number of decimal places. A negative number of
places counts digits before the point. Ties go to the even neighbour throughout. -/
namespace Reckoner.Number

/-- The whole number next to a value; integers stay as they are. -/
def toWhole (d : Binary64.Direction) : Number → Except EvalError Number
  | .int n => .ok (.int n)
  | .float x =>
    match Binary64.toInt? d x with
    | some n => .ok (.int n)
    | none => .error (if x.isNaN then .domain .nanToInteger else .overflow .infinityToInteger)

/-- The decimal logarithm of two. -/
def log10Two : Float := 0.301029995663981195

/-- An estimate of the decimal digits of an integer from its bits, not too low for integers below
`2 ^ (2 ^ 32)`. The product is rounded, and then cut to a whole number. -/
def decimalWidth (n : Int) : Nat :=
  ((Binary64.toInt? .floor (Binary64.ofNat (bitLength n) * log10Two)).getD 0).toNat + 2

/-- The multiple of `10 ^ k` nearest to an integer. An integer of an estimated width below `k` is nearer to
zero than to any other multiple. The power is taken of 32 bits of `k`. -/
def roundIntTo (n : Int) (k : Nat) : Int :=
  if decimalWidth n < k then 0
  else
    let unit : Int := Nat.pow 10 (k % UInt32.size)
    match intDivMod n unit with
    | .error _ => n
    | .ok (below, rest) =>
      let twice := rest * 2
      (if unit < twice ∨ (twice = unit ∧ below % 2 = 1) then below + 1 else below) * unit

def roundInt (n places : Int) : Int := if 0 ≤ places then n else roundIntTo n places.natAbs

/-- The power of a double by repeated squaring, each product rounded. -/
def floatPowNat (a : Float) (n : Nat) (found : Float) : Float :=
  let found := if n % 2 = 1 then found * a else found
  if n / 2 = 0 then found else floatPowNat (a * a) (n / 2) found
termination_by n
decreasing_by omega

/-- Places past the last binary place of a double change nothing, and units above every double leave
zero. Between them, whole units are counted in doubles, each operation rounded. -/
def roundFloat (x : Float) (places : Int) : Except EvalError Float :=
  if !x.isFinite || x == 0.0 then .ok x
  else if 330 < places then .ok x
  else if 0 ≤ places then .ok (Decimal.roundToPlaces x places.toNat)
  else if -308 ≤ places then
    let unit := floatPowNat 10.0 places.natAbs 1.0
    let rounded := Binary64.roundHalfEven (x / unit) * unit
    if rounded.isFinite then .ok rounded else .error (.overflow .rounding)
  else .ok (Binary64.copySign 0.0 x)

def round (places : Int) : Number → Except EvalError Number
  | .int n => .ok (.int (roundInt n places))
  | .float x => (roundFloat x places).map .float

end Reckoner.Number
