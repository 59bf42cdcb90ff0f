import Reckoner.Number.Basic
import Reckoner.Number.PowerSize

/-! Products and powers of integers. Guards judge the width of the result by the operands, only what they let through
is computed, and the width is judged again when the result is there. -/
namespace Reckoner.Number

/-- An operation that is carried out exactly. -/
inductive Work where
  | product (a b : Int)
  | power (base : Int) (exponent : Nat)
  deriving Repr, DecidableEq

def Work.result : Work → Int
  | .product a b => a * b
  | .power base exponent => Int.pow base exponent

/-- What the guards make of an operation: its outcome, or work that is still to be done. -/
inductive Plan where
  | done (outcome : Except EvalError Number)
  | compute (work : Work)

namespace Plan

def refused (maxBits : UInt64) : Plan := .done (.error (.overflow (.integerWidth maxBits)))

/-- What is computed is an integer unless it is wider than allowed. -/
def outcome (maxBits : UInt64) : Plan → Except EvalError Number
  | .done outcome => outcome
  | .compute work => ofIntWithin maxBits work.result

end Plan

/-- Products are refused by the widths of their factors; the bound on the sum of the widths wraps at 64 bits. -/
def mulPlan (maxBits : UInt64) (a b : Int) : Plan :=
  if (maxBits + 1).toNat < bitLength a + bitLength b then .refused maxBits else .compute (.product a b)

/-- Bases of magnitude below two are no larger than their powers; all others are refused by an estimate of the size
that `exceeds` compares with the width. -/
def powPlan (exceeds : Nat → Nat → UInt64 → Bool) (maxBits : UInt64) (base : Int) (exponent : Nat) : Plan :=
  if exponent = 0 then .done (.ok (.int 1))
  else if base = 0 ∨ base = 1 then .done (.ok (.int base))
  else if base = -1 then .done (.ok (.int (if exponent % 2 = 1 then -1 else 1)))
  else if exceeds base.natAbs exponent maxBits ∨ UInt32.size ≤ exponent then .refused maxBits
  else .compute (.power base exponent)

def intMul (maxBits : UInt64) (a b : Int) : Except EvalError Number := (mulPlan maxBits a b).outcome maxBits

/-- A power with an exponent that is not negative. -/
def intPow (maxBits : UInt64) (base : Int) (exponent : Nat) : Except EvalError Number :=
  (powPlan PowerSize.exceeds maxBits base exponent).outcome maxBits

theorem intMul_eq (maxBits : UInt64) (a b : Int) : intMul maxBits a b =
    if (maxBits + 1).toNat < bitLength a + bitLength b then .error (.overflow (.integerWidth maxBits))
    else ofIntWithin maxBits (a * b) :=
  apply_ite (Plan.outcome maxBits) _ _ _

theorem intPow_eq (maxBits : UInt64) (base : Int) (exponent : Nat) : intPow maxBits base exponent =
    if exponent = 0 then .ok (.int 1)
    else if base = 0 ∨ base = 1 then .ok (.int base)
    else if base = -1 then .ok (.int (if exponent % 2 = 1 then -1 else 1))
    else if PowerSize.exceeds base.natAbs exponent maxBits ∨ UInt32.size ≤ exponent then
      .error (.overflow (.integerWidth maxBits))
    else ofIntWithin maxBits (Int.pow base exponent) := by
  unfold intPow powPlan
  simp only [apply_ite (Plan.outcome maxBits)]
  rfl

end Reckoner.Number
