import Reckoner.Number.Arithmetic
import Reckoner.Proofs.Failure
import Reckoner.Proofs.Number.PowerSize

/-! What integer operators compute within a width they compute within every greater one, as far as the
greater one does not wrap when one is added to it. -/
namespace Reckoner

/-- Every result of the one computation is the result of the other. -/
def Keeps {ε α : Type} (x y : Except ε α) : Prop := ∀ a, x = .ok a → y = .ok a

namespace Keeps

variable {ε α β : Type} {x y : Except ε α} {f g : α → Except ε β} {d d' : ε} {c c' : Prop} [Decidable c]
  [Decidable c']

theorem refl (x : Except ε α) : Keeps x x := fun _ h => h

theorem bind (h : Keeps x y) (hf : ∀ a, Keeps (f a) (g a)) : Keeps (x >>= f) (y >>= g) := by
  intro b hb
  obtain ⟨a, hx, ha⟩ := bind_eq_ok_iff.mp hb
  exact bind_eq_ok_iff.mpr ⟨a, h a hx, hf a b ha⟩

theorem ite {x' y' : Except ε α} (h : Keeps x y) (h' : Keeps x' y') :
    Keeps (if c then x else x') (if c then y else y') := by
  split
  · exact h
  · exact h'

/-- A check that refuses less before a computation that keeps its results. -/
theorem guard (hc : c' → c) (h : Keeps x y) :
    Keeps (if c then .error d else x) (if c' then .error d' else y) := by
  intro a ha
  split at ha
  · cases ha
  · next hno =>
    rw [if_neg fun h' => hno (hc h')]
    exact h a ha

end Keeps

/-- A width allows what another one does; products are compared with the width plus one, which may wrap. -/
structure Allows (bits' bits : UInt64) : Prop where
  le : bits ≤ bits'
  succ_le : bits + 1 ≤ bits' + 1

namespace Number
open Keeps

variable {bits bits' : UInt64} (h : Allows bits' bits)

include h

theorem ofIntWithin_keeps (n : Int) : Keeps (ofIntWithin bits n) (ofIntWithin bits' n) :=
  guard (UInt64.le_iff_toNat_le.mp h.le).trans_lt (refl _)

theorem intMul_keeps (a b : Int) : Keeps (intMul bits a b) (intMul bits' a b) := by
  rw [intMul_eq, intMul_eq]
  exact guard (UInt64.le_iff_toNat_le.mp h.succ_le).trans_lt (ofIntWithin_keeps h _)

theorem intFloorDiv_keeps (a b : Int) : Keeps (intFloorDiv bits a b) (intFloorDiv bits' a b) :=
  (refl _).bind fun _ => ofIntWithin_keeps h _

theorem intMod_keeps (a b : Int) : Keeps (intMod bits a b) (intMod bits' a b) :=
  (refl _).bind fun _ => ofIntWithin_keeps h _

theorem intPow_keeps (base : Int) (exponent : Nat) :
    Keeps (intPow bits base exponent) (intPow bits' base exponent) := by
  rw [intPow_eq, intPow_eq]
  exact ite (refl _) (ite (refl _) (ite (refl _)
    (guard (Or.imp_left (PowerSize.exceeds_anti h.le)) (ofIntWithin_keeps h _))))

omit h in
theorem mixed_keeps {onInts onInts' : Int → Int → Except EvalError Number}
    (hints : ∀ a b, Keeps (onInts a b) (onInts' a b)) (onFloats : Float → Float → Except EvalError Float)
    (a b : Number) : Keeps (mixed onInts onFloats a b) (mixed onInts' onFloats a b) := by
  cases a with
  | int m =>
    cases b with
    | int n => exact hints m n
    | float y => exact refl _
  | float x => exact refl _

theorem pow_keeps (a b : Number) : Keeps (pow bits a b) (pow bits' a b) := by
  cases a with
  | int m =>
    cases b with
    | int n => exact ite (intPow_keeps h m n.toNat) (refl _)
    | float y => exact refl _
  | float x => exact refl _

theorem binary_keeps (op : BinaryOp) (a b : Number) : Keeps (binary op a b bits) (binary op a b bits') := by
  cases op with
  | add | sub => exact mixed_keeps (fun _ _ => ofIntWithin_keeps h _) _ a b
  | mul => exact mixed_keeps (intMul_keeps h) _ a b
  | div => exact refl _
  | floorDiv => exact mixed_keeps (intFloorDiv_keeps h) _ a b
  | mod => exact mixed_keeps (intMod_keeps h) _ a b
  | pow => exact pow_keeps h a b

end Number
end Reckoner
