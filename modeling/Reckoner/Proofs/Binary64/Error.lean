import Reckoner.Proofs.Binary64.Operations

/-! How far rounding moves a number. Doubles of full length are near to what they are rounded from, and numbers
of 53 bits are not moved at all. -/
namespace Reckoner.Binary64

variable {x y : Float} {negative negative' : Bool} {q r v w : ℚ} {m n : ℕ} {e : ℤ}

namespace Rounds

/-- Rounding moves a quotient that is not below the normal doubles by one part in `2 ^ 53` at most. -/
theorem close (h : Rounds leastExponent q m e) (hq : 2 ^ (-1022 : ℤ) ≤ q) :
    |q - magnitude m e| ≤ q * 2 ^ (-53 : ℤ) := by
  have hpos : (0 : ℚ) < 2 ^ e := zpow_pos two_pos e
  have hnormal : (2 : ℚ) ^ (e + 52) ≤ q := by
    obtain hlt | rfl := h.least_le.lt_or_eq
    · exact h.normal hlt
    · exact hq
  have hscale : |q - magnitude m e| = |q / 2 ^ e - m| * 2 ^ e := by
    rw [magnitude, ← abs_of_pos hpos, ← abs_mul, abs_of_pos hpos, sub_mul, div_mul_cancel₀ q hpos.ne']
  have hhalf : (2 : ℚ) ^ (e + 52) * 2 ^ (-53 : ℤ) = 1 / 2 * 2 ^ e := by
    rw [← zpow_add₀ two_ne_zero, show e + 52 + -53 = -1 + e by ring, zpow_add₀ two_ne_zero]
    norm_num
  calc |q - magnitude m e| = |q / 2 ^ e - m| * 2 ^ e := hscale
    _ ≤ 1 / 2 * 2 ^ e := mul_le_mul_of_nonneg_right h.nearest.close hpos.le
    _ = 2 ^ (e + 52) * 2 ^ (-53 : ℤ) := hhalf.symm
    _ ≤ q * 2 ^ (-53 : ℤ) := mul_le_mul_of_nonneg_right hnormal (zpow_pos two_pos _).le

theorem magnitude_le_mul (h : Rounds leastExponent q m e) (hq : 1 ≤ q) :
    magnitude m e ≤ q * (1 + 2 ^ (-53 : ℤ)) := by
  have := (abs_le.mp (h.close ((zpow_le_one_of_nonpos₀ one_le_two (by decide)).trans hq))).1
  linarith

theorem mul_le_magnitude (h : Rounds leastExponent q m e) (hq : 2 ^ (-1022 : ℤ) ≤ q) :
    q * (1 - 2 ^ (-53 : ℤ)) ≤ magnitude m e := by
  have := (abs_le.mp (h.close hq)).2
  linarith

/-- Powers of two and whole numbers of 53 bits round to themselves. -/
theorem eq_of_magnitude (m' : ℕ) (e' : ℤ) (h : Rounds leastExponent q m e) (hq : q = magnitude m' e')
    (hm' : m' ≤ 2 ^ 53) (he' : leastExponent ≤ e') : magnitude m e = q := by
  have hclosest := h.closest hm' he'
  rw [← hq, sub_self, abs_zero] at hclosest
  have hzero := abs_eq_zero.mp (le_antisymm hclosest (abs_nonneg _))
  linarith

end Rounds

end Reckoner.Binary64
