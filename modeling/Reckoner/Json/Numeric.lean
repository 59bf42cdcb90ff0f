import Reckoner.Json.Basic
import Reckoner.Decimal.Layout
import Reckoner.Binary64.Nearest

/-! The values of JSON numbers. An integer of 64 bits is exact. Any other number becomes a double: as
many digits as fit 64 bits are read, made a double, and scaled by one power of ten. -/
namespace Reckoner.Json

/-- Digits read into 64 bits, and the power of ten they are to be scaled by. -/
structure Scaled where
  significand : Nat
  exponent : Int
  deriving Repr, DecidableEq

/-- The bound of significands, kept closed so that no comparison with it is counted out. -/
@[irreducible]
def Scaled.limit : Nat := UInt64.size

/-- A further digit, unless it makes the significand too wide. -/
def Scaled.push? (s : Scaled) (digit : Char) : Option Nat :=
  let n := 10 * s.significand + (digit.toNat - '0'.toNat)
  if n < Scaled.limit then some n else none

/-- Digits before the point: from the first one that does not fit, each counts as a factor of ten. -/
def Scaled.readWhole (s : Scaled) : List Char → Scaled
  | [] => s
  | d :: ds =>
    match s.push? d with
    | some n => Scaled.readWhole ⟨n, s.exponent⟩ ds
    | none => ⟨s.significand, s.exponent + (d :: ds).length⟩

/-- Digits after the point: from the first one that does not fit, none counts. -/
def Scaled.readFraction (s : Scaled) : List Char → Scaled
  | [] => s
  | d :: ds =>
    match s.push? d with
    | some n => Scaled.readFraction ⟨n, s.exponent - 1⟩ ds
    | none => s

/-- Powers of ten that are doubles in range. -/
def powerOfTen (k : Nat) : Float := Binary64.ofNat (Nat.pow 10 k)

def maxPower : Nat := 308

/-- Divides by the greatest power of ten until the rest of the exponent is one, or nothing is left. -/
def divideByPowers (x : Float) (k : Nat) : Float :=
  if k ≤ maxPower then x / powerOfTen k
  else if x == 0.0 then x
  else divideByPowers (x / powerOfTen maxPower) (k - maxPower)
termination_by k
decreasing_by simp only [maxPower] at *; omega

/-- The magnitude of the double; there is none beyond the doubles. -/
def Scaled.toFloat? (s : Scaled) : Option Float :=
  let x := Binary64.ofNat s.significand
  if s.exponent < 0 then some (divideByPowers x s.exponent.natAbs)
  else if s.exponent.toNat ≤ maxPower then
    let y := x * powerOfTen s.exponent.toNat
    if y.isFinite then some y else none
  else if s.significand = 0 then some x
  else none

/-- Exponents of this size end the reading: only zero and numbers that round to it are left. -/
def exponentLimit : Nat := 2147483648

def magnitude? (l : Literal) : Option Float :=
  let s := (Scaled.readWhole ⟨0, 0⟩ l.whole).readFraction l.fraction
  match l.exponent with
  | none => s.toFloat?
  | some e =>
    let k := Decimal.value e.digits
    if exponentLimit ≤ k then
      if s.significand = 0 ∨ e.negative then some 0.0 else none
    else Scaled.toFloat? ⟨s.significand, if e.negative then s.exponent - k else s.exponent + k⟩

def Literal.isInteger (l : Literal) : Bool := l.fraction.isEmpty && l.exponent.isNone

/-- A minus sign before zero needs a double. -/
def Literal.integer? (l : Literal) : Option Int :=
  if l.isInteger then
    let n := Decimal.value l.whole
    if l.negative then (if 0 < n ∧ n ≤ 9223372036854775808 then some (-n) else none)
    else if n < UInt64.size then some n
    else none
  else none

def Literal.numeric? (l : Literal) : Option Numeric :=
  match l.integer? with
  | some n => some (.int n)
  | none => (magnitude? l).map fun x => .float (if l.negative then -x else x)

/-- Doubles are written with a point or a signed exponent. -/
def floatLayout : Decimal.Layout where
  tie := .even
  positional e := -5 ≤ e && e < 16
  pointZero := true
  plus := true
  exponentWidth := 1
  nan := "null"
  infinity := "null"

def Numeric.text : Numeric → String
  | .int n => Decimal.intText n
  | .float x => floatLayout.text x

def Literal.ofNat (n : Nat) : Literal := ⟨false, Decimal.digits n, [], none⟩

def natural (n : Nat) : Json := .number (.ofNat n)

end Reckoner.Json
