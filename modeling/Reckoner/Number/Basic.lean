import Reckoner.EvalError
import Reckoner.Binary64.Nearest

/-! Values of the calculator: integers of any width, and doubles. -/
namespace Reckoner

inductive Number where
  | int (value : Int)
  | float (value : Float)
  deriving Repr, Inhabited

/-- The bits of an integer's magnitude; zero has none. -/
def bitLength (n : Int) : Nat := if n = 0 then 0 else n.natAbs.log2 + 1

namespace Number

def isZero : Number → Bool
  | .int n => n = 0
  | .float x => x == 0.0

/-- The nearest double; integers beyond the doubles have none. -/
def toFloat : Number → Except EvalError Float
  | .int n =>
    let x := Binary64.ofInt n
    if x.isFinite then .ok x else .error (.overflow .integerToFloat)
  | .float x => .ok x

def neg : Number → Number
  | .int n => .int (-n)
  | .float x => .float (-x)

def text : Number → String
  | .int n => Decimal.intText n
  | .float x => Decimal.Layout.exact.text x

/-- The integer as a value, unless it is wider than allowed. -/
def ofIntWithin (maxBits : UInt64) (n : Int) : Except EvalError Number :=
  if maxBits.toNat < bitLength n then .error (.overflow (.integerWidth maxBits)) else .ok (.int n)

/-- Quotient and remainder of the division that rounds down. The division of the integers rounds toward zero, so its
quotient is one too high where its remainder has the wrong sign. -/
def intDivMod (a b : Int) : Except EvalError (Int × Int) :=
  if b = 0 then .error .divisionByZero
  else
    let quotient := a.tdiv b
    let rest := a.tmod b
    if rest ≠ 0 ∧ decide (rest < 0) ≠ decide (b < 0) then .ok (quotient - 1, rest + b)
    else .ok (quotient, rest)

end Number
end Reckoner
