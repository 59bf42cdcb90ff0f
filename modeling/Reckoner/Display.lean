import Reckoner.Number.Rounding

/-! The text that a calculator shows for a value. -/
namespace Reckoner.Display

/-- The longest integer shown, in digits. -/
def maxIntDigits : Nat := 4300

/-- Decimal places of a double before the zeros at the end are cut. -/
def places : Nat := 10

/-- The longest text shown with these places, its sign included. -/
def maxFixedLength : Nat := 15

/-- Whether its bits alone tell that an integer is too wide: in doubles, their number times the decimal
logarithm of two is more than a digit above the limit. -/
def clearlyTooWide (n : Int) : Bool :=
  Binary64.ofNat maxIntDigits + 1.0 < Binary64.ofNat (bitLength n) * Number.log10Two

/-- Integers that are clearly too wide are refused without being written. -/
def integer (n : Int) : Except EvalError String :=
  let tooWide := .error (.overflow (.displayDigits maxIntDigits))
  if clearlyTooWide n then tooWide
  else if maxIntDigits < (Decimal.digits n.natAbs).length then tooWide
  else .ok (Decimal.intText n)

/-- Without zeros at the end, and then without a point there. -/
def trim (cs : List Char) : List Char :=
  ((cs.reverse.dropWhile (· = '0')).dropWhile (· = '.')).reverse

/-- A finite double with its places, trimmed; where that is long, the double nearest to the written
decimal with as many digits as identify it. -/
def finite (negative : Bool) (significand : Nat) (exponent : Int) : String :=
  let count := Decimal.toPlaces significand exponent places
  let fixed := Decimal.fixedDigits count places
  let shown := trim (if negative then '-' :: fixed else fixed)
  if shown.length ≤ maxFixedLength then String.ofList shown
  else Decimal.Layout.plain.text (Binary64.nearest negative count (Nat.pow 10 places))

def float (x : Float) : Except EvalError String :=
  match Binary64.view x with
  | .nan => .error (.domain .notANumber)
  | .infinite _ => .ok "Infinity"
  | .finite negative m e => .ok (finite negative m e)

def number : Number → Except EvalError String
  | .int n => integer n
  | .float x => float x

end Reckoner.Display
