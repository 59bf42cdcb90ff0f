import Reckoner.Decimal.Digits
import Reckoner.Binary64.Integral

/-! A double written with a set number of decimal places, and rounded to them. The exact value is
rounded, ties to even. -/
namespace Reckoner.Decimal

/-- The nearest multiple of `10 ^ (-places)`, as a count of them. -/
def toPlaces (significand : Nat) (exponent : Int) (places : Nat) : Nat :=
  let (num, den) := Binary64.ratio significand exponent
  Binary64.roundDiv (num * Nat.pow 10 places) den

/-- The count of `10 ^ (-places)` with its point; no point without places. -/
def fixedDigits (count places : Nat) : List Char :=
  let whole := digits (count / Nat.pow 10 places)
  if places = 0 then whole
  else
    let fraction := digits (count % Nat.pow 10 places)
    whole ++ '.' :: List.replicate (places - fraction.length) '0' ++ fraction

/-- The finite double nearest to the decimal that rounds `x` to `places`; other doubles unchanged. -/
def roundToPlaces (x : Float) (places : Nat) : Float :=
  match Binary64.view x with
  | .finite negative m e => Binary64.nearest negative (toPlaces m e places) (Nat.pow 10 places)
  | _ => x

end Reckoner.Decimal
