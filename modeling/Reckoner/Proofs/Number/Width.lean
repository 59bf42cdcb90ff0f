import Reckoner.Function
import Reckoner.Number.Arithmetic
import Reckoner.Proofs.Binary64.Codes
import Reckoner.Proofs.Binary64.Rounding
import Reckoner.Proofs.Failure

/-! The integers that operators and functions give. Operators give narrow ones whatever their operands are;
functions keep what is true of narrow integers and does not depend on the sign, but for the rounding to a
number of places. -/
namespace Reckoner

theorem bitLength_le_iff {n : Int} {bits : ℕ} : bitLength n ≤ bits ↔ n.natAbs < 2 ^ bits := by
  unfold bitLength
  split
  · next h => simp [h]
  · next h => rw [Nat.succ_le_iff, Nat.log2_lt (Int.natAbs_ne_zero.mpr h)]

namespace Binary64

variable {x : Float} {d : Direction} {negative : Bool} {num den : ℕ} {n : Int}

theorem roundDiv_le (num : ℕ) (h : 0 < den) : roundDiv num den ≤ num := by
  refine (isNearest_roundDiv num h).le_natCast ?_
  exact div_le_self (Nat.cast_nonneg num) (mod_cast h)

theorem magnitude_le (d : Direction) (negative : Bool) (num : ℕ) (h : 0 < den) :
    d.magnitude negative num den ≤ num := by
  have hdown : num / den ≤ num := Nat.div_le_self num den
  have hup : (num + (den - 1)) / den ≤ num := by
    rw [Nat.div_le_iff_le_mul h]
    have : num ≤ num * den := Nat.le_mul_of_pos_right num h
    omega
  cases d with
  | floor | ceiling => cases negative <;> assumption
  | halfEven => exact roundDiv_le num h

/-- The whole numbers next to doubles have no more than 1024 bits. -/
theorem bitLength_of_toInt? (h : toInt? d x = some n) : bitLength n ≤ 1024 := by
  unfold toInt? at h
  split at h
  · next negative m e hview =>
    have hm := (canonical_of_view hview).lt
    have he : e.toNat ≤ 971 := by
      have := (canonical_of_view hview).le
      omega
    cases h
    rw [bitLength_le_iff]
    calc (signed negative (d.magnitude negative (ratio m e).1 (ratio m e).2)).natAbs
        = d.magnitude negative (ratio m e).1 (ratio m e).2 := by cases negative <;> simp [signed]
      _ ≤ (ratio m e).1 := magnitude_le d negative _ (unscale_pos (-e) Nat.one_pos)
      _ = m * 2 ^ e.toNat := by rw [ratio, unscale, neg_neg, Nat.pow_eq]
      _ < 2 ^ 53 * 2 ^ e.toNat := Nat.mul_lt_mul_of_pos_right hm (Nat.two_pow_pos _)
      _ ≤ 2 ^ 1024 := by
        rw [← pow_add]
        exact pow_le_pow_right₀ one_le_two (by omega)
  · cases h

end Binary64

/-- Every integer that is the result has a property. -/
def Yields (P : Int → Prop) (x : Except EvalError Number) : Prop := ∀ n, x = .ok (.int n) → P n

namespace Yields

variable {α : Type} {P : Int → Prop} {x y : Except EvalError Number}

theorem int {n : Int} (h : P n) : Yields P (.ok (.int n)) := by
  intro n' h'
  cases h'
  exact h

theorem float (x : Float) : Yields P (.ok (.float x)) := by
  intro n h
  cases h

theorem error (d : EvalError) : Yields P (.error d) := by
  intro n h
  cases h

theorem bind {x : Except EvalError α} {f : α → Except EvalError Number} (h : ∀ a, x = .ok a → Yields P (f a)) :
    Yields P (x >>= f) := by
  intro n hn
  obtain ⟨a, hx, ha⟩ := bind_eq_ok_iff.mp hn
  exact h a hx n ha

theorem ite {c : Prop} [Decidable c] (h : c → Yields P x) (h' : ¬ c → Yields P y) :
    Yields P (if c then x else y) := by
  split
  · next hc => exact h hc
  · next hc => exact h' hc

end Yields

/-- A property of integers that the narrow ones have, those of doubles among them, and that changing the
sign keeps. -/
structure Width (bits : UInt64) (P : Int → Prop) : Prop where
  narrow : ∀ n, bitLength n ≤ bits.toNat → P n
  neg : ∀ n, P n → P (-n)
  double : 1024 ≤ bits.toNat

variable {bits : UInt64} {P : Int → Prop}

namespace Number

theorem mixed_yields {onInts : Int → Int → Except EvalError Number}
    {onFloats : Float → Float → Except EvalError Float} (hints : ∀ a b, Yields P (onInts a b)) (a b : Number) :
    Yields P (mixed onInts onFloats a b) := by
  unfold mixed
  split
  · exact hints _ _
  · exact .bind fun x _ => .bind fun y _ => .bind fun z _ => .float z

section
variable (h : ∀ n, bitLength n ≤ bits.toNat → P n)

include h

theorem ofIntWithin_yields (n : Int) : Yields P (ofIntWithin bits n) :=
  .ite (fun _ => .error _) fun hn => .int (h n (Nat.not_lt.mp hn))

theorem intMul_yields (a b : Int) : Yields P (intMul bits a b) := by
  rw [intMul_eq]
  exact .ite (fun _ => .error _) fun _ => ofIntWithin_yields h _

theorem intPow_yields (hbits : 1 ≤ bits.toNat) (base : Int) (exponent : ℕ) :
    Yields P (intPow bits base exponent) := by
  have hunit {n : Int} (hn : bitLength n ≤ 1) : Yields P (.ok (.int n)) := .int (h n (hn.trans hbits))
  rw [intPow_eq]
  refine .ite (fun _ => hunit (by decide)) fun _ => .ite (fun hbase => hunit ?_) fun _ =>
    .ite (fun _ => hunit ?_) fun _ => .ite (fun _ => .error _) fun _ => ofIntWithin_yields h _
  · obtain rfl | rfl := hbase <;> decide
  · split <;> decide

end

theorem pow_yields (h : Width bits P) (a b : Number) : Yields P (pow bits a b) := by
  have hfloats (x y : Number) : Yields P (pow.viaFloats x y) :=
    .bind fun _ _ => .bind fun _ _ => .bind fun _ _ => .float _
  unfold pow
  split
  · exact .ite (fun _ => intPow_yields h.narrow (le_trans (by decide) h.double) _ _) fun _ =>
      .ite (fun _ => .error _) fun _ => hfloats _ _
  · exact hfloats a b

/-- The integers among the results of operators are narrow. -/
theorem binary_yields (h : Width bits P) (op : BinaryOp) (a b : Number) : Yields P (binary op a b bits) := by
  have hwithin := ofIntWithin_yields h.narrow
  cases op with
  | add | sub => exact mixed_yields (fun _ _ => hwithin _) a b
  | mul => exact mixed_yields (intMul_yields h.narrow) a b
  | div => exact .ite (fun _ => .error _) fun _ => .bind fun _ _ => .bind fun _ _ => .float _
  | floorDiv | mod => exact mixed_yields (fun _ _ => .bind fun _ _ => hwithin _) a b
  | pow => exact pow_yields h a b

end Number

namespace Function

theorem toWhole_yields (h : Width bits P) (d : Binary64.Direction) {x : Number} (hx : ∀ n, x = .int n → P n) :
    Yields P (x.toWhole d) := by
  cases x with
  | int n => exact .int (hx n rfl)
  | float x =>
    unfold Number.toWhole
    dsimp only
    split
    · next n hn => exact .int (h.narrow n ((Binary64.bitLength_of_toInt? hn).trans h.double))
    · exact .error _

theorem magnitude_yields (h : Width bits P) {x : Number} (hx : ∀ n, x = .int n → P n) :
    Yields P (.ok (magnitude x)) := by
  cases x with
  | int n =>
    obtain habs | habs := Int.natAbs_eq n
    · exact .int (habs ▸ hx n rfl)
    · have hneg : (n.natAbs : Int) = -n := by omega
      exact .int (hneg ▸ h.neg n (hx n rfl))
  | float x => exact .float _

/-- Where integers are rounded to places the property is kept. -/
def KeepsRounding (P : Int → Prop) : Prop := ∀ n places, P n → P (Number.roundInt n places)

theorem rounded_yields (h : Width bits P) {x : Number} {second : Option Number}
    (hround : second.isSome → KeepsRounding P) (hx : ∀ n, x = .int n → P n) : Yields P (rounded x second) := by
  unfold rounded
  split
  · exact toWhole_yields h _ hx
  · next places =>
    cases x with
    | int n => exact .int (hround rfl n places (hx n rfl))
    | float x =>
      intro n hn
      rw [Number.round] at hn
      cases hr : Number.roundFloat x places <;> rw [hr] at hn <;> cases hn
  · exact .error _

theorem value_yields (h : Width bits P) (f : Function) {x : Number} {second : Option Number}
    (hround : f = .round → second.isSome → KeepsRounding P) (hx : ∀ n, x = .int n → P n) :
    Yields P (f.value x second) := by
  cases f with
  | sin | cos | tan | sqrt | rad | deg =>
    exact .bind fun _ _ => .ite (fun _ => .error _) fun _ => .float _
  | log => exact .bind fun _ _ => .float _
  | ln =>
    cases second with
    | none => exact .bind fun _ _ => .float _
    | some base => exact .bind fun _ _ => .bind fun _ _ => .ite (fun _ => .error _) fun _ => .float _
  | abs => exact magnitude_yields h hx
  | floor | ceil => exact toWhole_yields h _ hx
  | round => exact rounded_yields h (hround rfl) hx

/-- The integers among the results of functions are as wide as the arguments, if rounding keeps that. -/
theorem call_yields (h : Width bits P) (f : Function) {args : List Number}
    (hround : f = .round → args.length = 2 → KeepsRounding P) (hargs : ∀ n, .int n ∈ args → P n) :
    Yields P (f.call args) := by
  cases args with
  | nil => exact .error _
  | cons x rest =>
    refine .ite (fun hle => value_yields h f (fun hf hsecond => hround hf ?_) fun n hn => hargs n ?_)
      fun _ => .error _
    · cases rest with
      | nil => cases hsecond
      | cons y more =>
        cases hf
        exact Nat.le_antisymm hle (by simp)
    · simp [hn]

end Function
end Reckoner
