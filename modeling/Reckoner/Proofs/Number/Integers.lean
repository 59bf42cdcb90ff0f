import Reckoner.Proofs.Number.FloorDivision
import Reckoner.Proofs.Number.Width

/-! Sums, differences, products, quotients and remainders of integers: each is the integer itself wherever the
width allows it. Products are refused by the widths of their factors only if they are too wide, and quotients
and remainders are never wider than the operands. -/
namespace Reckoner

variable {a b n : Int} {k : ℕ}

theorem lt_bitLength_iff : k < bitLength n ↔ 2 ^ k ≤ n.natAbs := by
  rw [← not_le, bitLength_le_iff, not_lt]

theorem bitLength_mono (h : a.natAbs ≤ b.natAbs) : bitLength a ≤ bitLength b :=
  bitLength_le_iff.mpr (h.trans_lt (bitLength_le_iff.mp le_rfl))

@[simp] theorem bitLength_zero : bitLength 0 = 0 := rfl

theorem bitLength_pos (h : n ≠ 0) : 0 < bitLength n :=
  lt_bitLength_iff.mpr (Nat.one_le_iff_ne_zero.mpr (Int.natAbs_ne_zero.mpr h))

/-- A product has at most one bit less than its factors together. -/
theorem bitLength_add_le_mul (ha : a ≠ 0) (hb : b ≠ 0) : bitLength a + bitLength b ≤ bitLength (a * b) + 1 := by
  obtain ⟨i, hi⟩ := Nat.exists_eq_add_of_lt (bitLength_pos ha)
  obtain ⟨j, hj⟩ := Nat.exists_eq_add_of_lt (bitLength_pos hb)
  have hpow : 2 ^ (i + j) ≤ (a * b).natAbs := by
    rw [pow_add, Int.natAbs_mul]
    exact Nat.mul_le_mul (lt_bitLength_iff.mp (by omega)) (lt_bitLength_iff.mp (by omega))
  have := lt_bitLength_iff.mpr hpow
  omega

/-- A product has no more bits than its factors together. -/
theorem bitLength_mul_le (a b : Int) : bitLength (a * b) ≤ bitLength a + bitLength b := by
  rw [bitLength_le_iff, Int.natAbs_mul, pow_add]
  exact Nat.mul_lt_mul'' (bitLength_le_iff.mp le_rfl) (bitLength_le_iff.mp le_rfl)

namespace Number

variable {bits : UInt64} {outcome : Except EvalError Number}

/-- An outcome that is an integer if its width is allowed, and an overflow if it is not. -/
structure ExactWithin (bits : UInt64) (n : Int) (outcome : Except EvalError Number) : Prop where
  ok : bitLength n ≤ bits.toNat → outcome = .ok (.int n)
  overflow : bits.toNat < bitLength n → outcome = .error (.overflow (.integerWidth bits))

theorem ofIntWithin_exact (bits : UInt64) (n : Int) : ExactWithin bits n (ofIntWithin bits n) where
  ok h := if_neg (Nat.not_lt.mpr h)
  overflow h := if_pos h

/-- Only the greatest width of all wraps when one is added to it. -/
theorem toNat_add_one (hbits : bits.toNat ≤ 2 ^ 64 - 2) : (bits + 1).toNat = bits.toNat + 1 := by
  rw [UInt64.toNat_add, UInt64.toNat_one]
  omega

/-- The widths of two factors are compared with a bound that a product of zero meets and that any other
product exceeds only if it is too wide. -/
theorem intMul_exact (hbits : bits.toNat ≤ 2 ^ 64 - 2) (ha : bitLength a ≤ bits.toNat)
    (hb : bitLength b ≤ bits.toNat) : ExactWithin bits (a * b) (intMul bits a b) := by
  -- with the greatest width of all the sum would wrap, and the guard refuse every product
  rw [intMul_eq, toNat_add_one hbits]
  split
  · next hguard =>
    have hwide : bits.toNat < bitLength (a * b) := by
      have hane : a ≠ 0 := by
        rintro rfl
        rw [bitLength_zero] at hguard
        omega
      have hbne : b ≠ 0 := by
        rintro rfl
        rw [bitLength_zero] at hguard
        omega
      have := bitLength_add_le_mul hane hbne
      omega
    exact ⟨fun h => absurd hwide (Nat.not_lt.mpr h), fun _ => rfl⟩
  · exact ofIntWithin_exact bits (a * b)

/-- Both operators see the same division; its results are no wider than the operands. -/
theorem floor_operators_eq (ha : bitLength a ≤ bits.toNat) (hb : bitLength b ≤ bits.toNat) (hne : b ≠ 0) :
    ∃ q r, intFloorDiv bits a b = .ok (.int q) ∧ intMod bits a b = .ok (.int r) ∧ IsFloorDivision a b q r := by
  obtain ⟨q, r, heq, h⟩ := intDivMod_isFloorDivision a hne
  refine ⟨q, r, ?_, ?_, h⟩
  · rw [intFloorDiv, heq]
    exact (ofIntWithin_exact bits q).ok ((bitLength_mono (h.natAbs_quotient_le hne)).trans ha)
  · rw [intMod, heq]
    exact (ofIntWithin_exact bits r).ok ((bitLength_mono h.natAbs_rest_le).trans hb)

/-- Operands within the width have their exact sum, difference and product where that is within it too, and
always a quotient and a remainder unless the divisor is zero. -/
theorem integer_operators_exact (bits : UInt64) (hbits : bits.toNat ≤ 2 ^ 64 - 2) (a b : Int)
    (ha : bitLength a ≤ bits.toNat) (hb : bitLength b ≤ bits.toNat) :
    ExactWithin bits (a + b) (binary .add (.int a) (.int b) bits) ∧
    ExactWithin bits (a - b) (binary .sub (.int a) (.int b) bits) ∧
    ExactWithin bits (a * b) (binary .mul (.int a) (.int b) bits) ∧
    (b = 0 → binary .floorDiv (.int a) (.int b) bits = .error .divisionByZero ∧
      binary .mod (.int a) (.int b) bits = .error .divisionByZero) ∧
    (b ≠ 0 → ∃ q r, binary .floorDiv (.int a) (.int b) bits = .ok (.int q) ∧
      binary .mod (.int a) (.int b) bits = .ok (.int r) ∧ IsFloorDivision a b q r) := by
  refine ⟨ofIntWithin_exact bits (a + b), ofIntWithin_exact bits (a - b), intMul_exact hbits ha hb,
    fun hzero => ?_, fun hne => ?_⟩
  · subst hzero
    exact ⟨rfl, rfl⟩
  · exact floor_operators_eq ha hb hne

/-- Within three bits, minus seven times zero is zero, the square of seven overflows, and minus seven divided by
two is minus four with one left. -/
theorem operators_within_three_bits :
    bitLength (-7) ≤ (3 : UInt64).toNat ∧ bitLength 2 ≤ (3 : UInt64).toNat ∧
    binary .mul (.int (-7)) (.int 0) 3 = .ok (.int 0) ∧
    binary .mul (.int (-7)) (.int (-7)) 3 = .error (.overflow (.integerWidth 3)) ∧
    binary .floorDiv (.int (-7)) (.int 2) 3 = .ok (.int (-4)) ∧
    binary .mod (.int (-7)) (.int 2) 3 = .ok (.int 1) := by
  have hseven : bitLength (-7) ≤ (3 : UInt64).toNat := by decide
  have htwo : bitLength 2 ≤ (3 : UInt64).toNat := by decide
  have hzero : bitLength 0 ≤ (3 : UInt64).toNat := by decide
  have hbits : (3 : UInt64).toNat ≤ 2 ^ 64 - 2 := by decide
  obtain ⟨-, -, hproduct, -⟩ := integer_operators_exact 3 hbits (-7) 0 hseven hzero
  obtain ⟨-, -, hsquare, -⟩ := integer_operators_exact 3 hbits (-7) (-7) hseven hseven
  obtain ⟨-, -, -, -, hdivision⟩ := integer_operators_exact 3 hbits (-7) 2 hseven htwo
  obtain ⟨q, r, hq, hr, h⟩ := hdivision (by decide)
  obtain ⟨hlow, hhigh⟩ := h.rest_of_pos (by decide)
  have heq := h.eq
  obtain rfl : q = -4 := by omega
  obtain rfl : r = 1 := by omega
  exact ⟨hseven, htwo, hproduct.ok (by decide), hsquare.overflow (by decide), hq, hr⟩

end Number
end Reckoner
