import Reckoner.Number.Work
import Reckoner.Expr.Basic
import Reckoner.Binary64.Integral

/-! The binary operators. Integers stay exact within a width; a double on either side makes both
operands doubles. Division and remainder round down, so the remainder takes the divisor's sign. -/
namespace Reckoner.Number

/-- An operator that knows integers and doubles apart. -/
def mixed (onInts : Int → Int → Except EvalError Number)
    (onFloats : Float → Float → Except EvalError Float) : Number → Number → Except EvalError Number
  | .int a, .int b => onInts a b
  | a, b => do
    let x ← a.toFloat
    let y ← b.toFloat
    let z ← onFloats x y
    return .float z

def trueDiv (lhs rhs : Number) : Except EvalError Number :=
  if rhs.isZero then .error .divisionByZero
  else do
    let x ← lhs.toFloat
    let y ← rhs.toFloat
    return .float (x / y)

def intFloorDiv (maxBits : UInt64) (a b : Int) : Except EvalError Number := do
  let (quotient, _) ← intDivMod a b
  ofIntWithin maxBits quotient

def intMod (maxBits : UInt64) (a b : Int) : Except EvalError Number := do
  let (_, rest) ← intDivMod a b
  ofIntWithin maxBits rest

/-- The remainder with the sign of the divisor, and the quotient that belongs to it before rounding. -/
def floatRemainder (x y : Float) : Float × Float :=
  let rest := Binary64.remainder x y
  let quotient := (x - rest) / y
  if rest == 0.0 then (quotient, Binary64.copySign 0.0 y)
  else if decide (y < 0.0) != decide (rest < 0.0) then (quotient - 1.0, rest + y)
  else (quotient, rest)

/-- The quotient is rounded to the whole number next to it; a zero has the sign of the division. -/
def floatFloorDiv (x y : Float) : Except EvalError Float :=
  if y == 0.0 then .error .divisionByZero
  else
    let quotient := (floatRemainder x y).1
    if quotient == 0.0 then .ok (Binary64.copySign 0.0 (x / y))
    else
      let below := Binary64.floor quotient
      .ok (if 0.5 < quotient - below then below + 1.0 else below)

def floatMod (x y : Float) : Except EvalError Float :=
  if y == 0.0 then .error .divisionByZero else .ok (floatRemainder x y).2

def floatPow (x y : Float) : Except EvalError Float :=
  if x == 0.0 && y < 0.0 then .error .divisionByZero
  else if x < 0.0 && x.isFinite && y.isFinite && !Binary64.isIntegral y then .error (.domain .fractionalPower)
  else
    let z := Float.pow x y
    if z.isInf && x.isFinite && y.isFinite then .error (.overflow .floatPower) else .ok z

/-- Integers to a negative power become doubles. -/
def pow (maxBits : UInt64) : Number → Number → Except EvalError Number
  | .int a, .int b =>
    if 0 ≤ b then intPow maxBits a b.toNat
    else if a = 0 then .error .divisionByZero
    else viaFloats (.int a) (.int b)
  | a, b => viaFloats a b
where
  viaFloats (a b : Number) : Except EvalError Number := do
    let x ← a.toFloat
    let y ← b.toFloat
    let z ← floatPow x y
    return .float z

/-- The value of an operator. -/
def binary (op : BinaryOp) (lhs rhs : Number) (maxBits : UInt64) : Except EvalError Number :=
  match op with
  | .add => mixed (fun a b => ofIntWithin maxBits (a + b)) (fun x y => .ok (x + y)) lhs rhs
  | .sub => mixed (fun a b => ofIntWithin maxBits (a - b)) (fun x y => .ok (x - y)) lhs rhs
  | .mul => mixed (intMul maxBits) (fun x y => .ok (x * y)) lhs rhs
  | .div => trueDiv lhs rhs
  | .floorDiv => mixed (intFloorDiv maxBits) floatFloorDiv lhs rhs
  | .mod => mixed (intMod maxBits) floatMod lhs rhs
  | .pow => pow maxBits lhs rhs

end Reckoner.Number
