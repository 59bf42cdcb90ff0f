import Reckoner.Number.PowerSize
import Reckoner.Proofs.Binary64.Rounding

/-! The estimate of a power's size against a width: what fits a width fits every greater one, though
both are rounded before they are compared. -/
namespace Reckoner.PowerSize
open Binary64

/-- The number that a size stands for. -/
def Size.value (s : Size) : ℚ := magnitude s.significand s.exponent

variable {a b : Size} {m n base exponent : ℕ}

theorem Size.lt_iff : a.lt b ↔ a.value < b.value := by
  have hscale (s : Size) (h : min a.exponent b.exponent ≤ s.exponent) :
      s.value = (s.significand * 2 ^ (s.exponent - min a.exponent b.exponent).toNat : ℕ) *
        2 ^ min a.exponent b.exponent := by
    rw [value, magnitude, Nat.cast_mul, Nat.cast_pow, Nat.cast_ofNat, ← zpow_natCast,
      Int.toNat_of_nonneg (by omega), mul_assoc, ← zpow_add₀ two_ne_zero, sub_add_cancel]
  rw [hscale a (min_le_left _ _), hscale b (min_le_right _ _),
    mul_lt_mul_iff_left₀ (zpow_pos (two_pos (α := ℚ)) _), Nat.cast_lt]
  simp [Size.lt]

theorem Size.value_ofNat_zero : (Size.ofNat 0).value = 0 := by
  have h : (Size.ofNat 0).significand = 0 := by decide
  rw [value, magnitude, h, Nat.cast_zero, zero_mul]

theorem Size.value_nonneg (s : Size) : 0 ≤ s.value := by
  unfold value magnitude
  positivity

theorem Size.value_ofNat_mono (h : m ≤ n) : (Size.ofNat m).value ≤ (Size.ofNat n).value := by
  obtain rfl | hm := Nat.eq_zero_or_pos m
  · rw [value_ofNat_zero]
    exact value_nonneg _
  · have hrm := significand_rounds leastExponent hm Nat.one_pos
    have hrn := significand_rounds leastExponent (hm.trans_le h) Nat.one_pos
    exact hrm.mono hrn (by gcongr)

/-- A greater width refuses no more powers. -/
theorem exceeds_anti {bits bits' : UInt64} (h : bits ≤ bits') (hlarge : exceeds base exponent bits') :
    exceeds base exponent bits := by
  rw [exceeds, Size.lt_iff] at *
  exact (Size.value_ofNat_mono (UInt64.le_iff_toNat_le.mp h)).trans_lt hlarge

end Reckoner.PowerSize
