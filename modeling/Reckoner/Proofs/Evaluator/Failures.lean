import Reckoner.Proofs.Evaluator.Metering
import Reckoner.Proofs.Failure

/-! How evaluation may fail. Operators and functions fail for their operands only: neither names nor the
meter are their concern. -/
namespace Reckoner

/-- Failures of operators and functions. -/
def EvalError.OfOperands : EvalError → Prop
  | .nameNotAllowed _ _ | .gasExhausted => False
  | _ => True

/-- Whatever goes wrong lies in the operands. -/
def Arithmetic {α : Type} (x : Except EvalError α) : Prop := ∀ d, x = .error d → d.OfOperands

namespace Arithmetic

variable {α β : Type} {x y : Except EvalError α} {f : α → Except EvalError β} {d : EvalError}

theorem ok (a : α) : Arithmetic (.ok a : Except EvalError α) := by
  intro d h
  cases h

theorem error (h : d.OfOperands) : Arithmetic (.error d : Except EvalError α) := by
  intro d' h'
  cases h'
  exact h

theorem bind (h : Arithmetic x) (hf : ∀ a, Arithmetic (f a)) : Arithmetic (x >>= f) := by
  intro d hd
  obtain hx | ⟨a, -, ha⟩ := bind_eq_error_iff.mp hd
  · exact h d hx
  · exact hf a d ha

theorem ite {c : Prop} [Decidable c] (h : Arithmetic x) (h' : Arithmetic y) :
    Arithmetic (if c then x else y) := by
  split
  · exact h
  · exact h'

end Arithmetic

namespace Number
open Arithmetic

theorem toFloat_arithmetic (x : Number) : Arithmetic x.toFloat := by
  cases x with
  | int n => exact ite (ok _) (error trivial)
  | float x => exact ok x

theorem ofIntWithin_arithmetic (bits : UInt64) (n : Int) : Arithmetic (ofIntWithin bits n) :=
  ite (error trivial) (ok _)

theorem mixed_arithmetic {onInts : Int → Int → Except EvalError Number}
    {onFloats : Float → Float → Except EvalError Float} (hints : ∀ a b, Arithmetic (onInts a b))
    (hfloats : ∀ x y, Arithmetic (onFloats x y)) (a b : Number) : Arithmetic (mixed onInts onFloats a b) := by
  unfold mixed
  split
  · exact hints _ _
  · exact (toFloat_arithmetic _).bind fun x => (toFloat_arithmetic _).bind fun y =>
      (hfloats x y).bind fun z => ok _

theorem trueDiv_arithmetic (a b : Number) : Arithmetic (trueDiv a b) :=
  ite (error trivial) ((toFloat_arithmetic a).bind fun _ => (toFloat_arithmetic b).bind fun _ => ok _)

theorem intMul_arithmetic (bits : UInt64) (a b : Int) : Arithmetic (intMul bits a b) := by
  rw [intMul_eq]
  exact ite (error trivial) (ofIntWithin_arithmetic bits _)

theorem intDivMod_arithmetic (a b : Int) : Arithmetic (intDivMod a b) :=
  ite (error trivial) (ite (ok _) (ok _))

theorem intFloorDiv_arithmetic (bits : UInt64) (a b : Int) : Arithmetic (intFloorDiv bits a b) :=
  (intDivMod_arithmetic a b).bind fun _ => ofIntWithin_arithmetic bits _

theorem intMod_arithmetic (bits : UInt64) (a b : Int) : Arithmetic (intMod bits a b) :=
  (intDivMod_arithmetic a b).bind fun _ => ofIntWithin_arithmetic bits _

theorem floatFloorDiv_arithmetic (x y : Float) : Arithmetic (floatFloorDiv x y) :=
  ite (error trivial) (ite (ok _) (ok _))

theorem floatMod_arithmetic (x y : Float) : Arithmetic (floatMod x y) :=
  ite (error trivial) (ok _)

theorem intPow_arithmetic (bits : UInt64) (base : Int) (exponent : Nat) :
    Arithmetic (intPow bits base exponent) := by
  rw [intPow_eq]
  exact ite (ok _) (ite (ok _) (ite (ok _) (ite (error trivial) (ofIntWithin_arithmetic bits _))))

theorem floatPow_arithmetic (x y : Float) : Arithmetic (floatPow x y) :=
  ite (error trivial) (ite (error trivial) (ite (error trivial) (ok _)))

theorem viaFloats_arithmetic (a b : Number) : Arithmetic (pow.viaFloats a b) :=
  (toFloat_arithmetic a).bind fun x => (toFloat_arithmetic b).bind fun y =>
    (floatPow_arithmetic x y).bind fun _ => ok _

theorem pow_arithmetic (bits : UInt64) (a b : Number) : Arithmetic (pow bits a b) := by
  unfold pow
  split
  · exact ite (intPow_arithmetic bits _ _) (ite (error trivial) (viaFloats_arithmetic _ _))
  · exact viaFloats_arithmetic a b

theorem binary_arithmetic (op : BinaryOp) (a b : Number) (bits : UInt64) :
    Arithmetic (binary op a b bits) := by
  cases op with
  | add | sub => exact mixed_arithmetic (fun _ _ => ofIntWithin_arithmetic bits _) (fun _ _ => ok _) a b
  | mul => exact mixed_arithmetic (intMul_arithmetic bits) (fun _ _ => ok _) a b
  | div => exact trueDiv_arithmetic a b
  | floorDiv => exact mixed_arithmetic (intFloorDiv_arithmetic bits) floatFloorDiv_arithmetic a b
  | mod => exact mixed_arithmetic (intMod_arithmetic bits) floatMod_arithmetic a b
  | pow => exact pow_arithmetic bits a b

theorem toWhole_arithmetic (d : Binary64.Direction) (x : Number) : Arithmetic (x.toWhole d) := by
  unfold toWhole
  split
  · exact ok _
  · split
    · exact ok _
    · split <;> exact error trivial

theorem roundFloat_arithmetic (x : Float) (places : Int) : Arithmetic (roundFloat x places) :=
  ite (ok _) (ite (ok _) (ite (ok _) (ite (ite (ok _) (error trivial)) (ok _))))

theorem round_arithmetic (places : Int) (x : Number) : Arithmetic (x.round places) := by
  cases x with
  | int n => exact ok _
  | float x =>
    intro d hd
    cases hr : roundFloat x places with
    | ok y => simp [round, hr, Except.map] at hd
    | error d' =>
      simp only [round, hr, Except.map] at hd
      cases hd
      exact roundFloat_arithmetic x places d hr

end Number

namespace Function
open Arithmetic Number

theorem onFloat_arithmetic (f : Function) (g : Float → Float) (x : Number) : Arithmetic (onFloat f g x) :=
  (toFloat_arithmetic x).bind fun _ => ite (error trivial) (ok _)

theorem positive_arithmetic (f : Function) (x : Number) : Arithmetic (positive f x) :=
  (toFloat_arithmetic x).bind fun _ => ite (error trivial) (ok _)

theorem natLog_arithmetic (x : Number) (base : Option Number) : Arithmetic (natLog x base) := by
  cases base with
  | none => exact (positive_arithmetic .ln x).bind fun _ => ok _
  | some base =>
    exact (positive_arithmetic .ln x).bind fun _ => (positive_arithmetic .ln base).bind fun _ =>
      ite (error trivial) (ok _)

theorem rounded_arithmetic (x : Number) (places : Option Number) : Arithmetic (rounded x places) := by
  unfold rounded
  split
  · exact toWhole_arithmetic _ x
  · exact round_arithmetic _ x
  · exact error trivial

theorem value_arithmetic (f : Function) (x : Number) (second : Option Number) :
    Arithmetic (f.value x second) := by
  cases f with
  | sin | cos | tan | sqrt | rad | deg => exact onFloat_arithmetic _ _ x
  | log => exact (positive_arithmetic .log x).bind fun _ => ok _
  | ln => exact natLog_arithmetic x second
  | abs => exact ok _
  | floor | ceil => exact toWhole_arithmetic _ x
  | round => exact rounded_arithmetic x second

theorem call_arithmetic (f : Function) (args : List Number) : Arithmetic (f.call args) := by
  cases args with
  | nil => exact error trivial
  | cons x rest => exact ite (value_arithmetic f x _) (error trivial)

end Function
end Reckoner
