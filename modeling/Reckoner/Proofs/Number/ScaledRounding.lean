import Reckoner.Proofs.Number.FloatPower

/-! Doubles counted in units before the point. The quotient by the unit is rounded before it is taken to a whole
number. While the unit is exact and the places of the double reach below it, that does no harm: a quotient that is
not halfway between two whole numbers is further from the middle than rounding can move it. -/
namespace Reckoner.Number
open Binary64 Decimal

variable {x : Float} {negative : Bool} {m c k : ℕ} {e : ℤ} {u v w : ℚ}

/-- The distances to the halves are multiples of a gap. -/
theorem quotient_sub_half (m : ℕ) (he : e < k) (z : ℤ) :
    ∃ n : ℤ, magnitude m e / 10 ^ k - z / 2 = n * (2 ^ e / 10 ^ k) := by
  obtain ⟨j, hj⟩ := Int.eq_ofNat_of_zero_le (show 0 ≤ (k : ℤ) - 1 - e by omega)
  refine ⟨m - z * 5 ^ k * 2 ^ j, ?_⟩
  have hten : (10 : ℚ) ^ k = 5 ^ k * (2 ^ e * 2 ^ j * 2) := by
    have hsplit : (2 : ℚ) ^ k = 2 ^ e * 2 ^ j * 2 := by
      rw [← zpow_natCast, ← zpow_natCast, ← zpow_add₀ two_ne_zero, ← zpow_add_one₀ two_ne_zero]
      congr 1
      omega
    rw [← hsplit, ← mul_pow]
    norm_num
  have hpos : (0 : ℚ) < 2 ^ e := zpow_pos two_pos e
  rw [magnitude, hten]
  push_cast
  field_simp

/-- A number that is no half is a gap away from each half. -/
theorem gap_le_of_ne (m : ℕ) (he : e < k) {z : ℤ} (hne : magnitude m e / 10 ^ k ≠ z / 2) :
    2 ^ e / 10 ^ k ≤ |magnitude m e / 10 ^ k - z / 2| := by
  obtain ⟨n, hn⟩ := quotient_sub_half m he z
  have hpos : (0 : ℚ) < 2 ^ e / 10 ^ k := by positivity
  have hone : (1 : ℚ) ≤ |(n : ℚ)| := by
    have hn0 : n ≠ 0 := by
      rintro rfl
      rw [Int.cast_zero, zero_mul] at hn
      exact hne (sub_eq_zero.mp hn)
    exact_mod_cast Int.one_le_abs hn0
  rw [hn, abs_mul, abs_of_pos hpos]
  exact le_mul_of_one_le_left hpos.le hone

/-- Rounding moves a quotient above a quarter by less than a gap. -/
theorem close_lt_gap (hm : m < 2 ^ 53) (hquarter : 1 / 4 < magnitude m e / 10 ^ k)
    (hu : RoundsTo (magnitude m e / 10 ^ k) u) : |magnitude m e / 10 ^ k - u| < 2 ^ e / 10 ^ k := by
  obtain ⟨m', e', h, rfl⟩ := hu
  have hlast : leastExponent < e' := by
    by_contra! hle
    have hsmall : (2 : ℚ) ^ (e' + 53) ≤ 2 ^ (-2 : ℤ) :=
      zpow_le_zpow_right₀ one_le_two (by unfold leastExponent at hle; omega)
    have hlt := h.lt
    norm_num at hsmall
    linarith
  have hpos : (0 : ℚ) < 2 ^ e' := zpow_pos two_pos e'
  have hgap : (0 : ℚ) < 2 ^ e / 10 ^ k := by positivity
  have hbits : (m : ℚ) < 2 ^ 53 := mod_cast hm
  have hplace : (2 : ℚ) ^ 52 * 2 ^ e' < 2 ^ 53 * (2 ^ e / 10 ^ k) := by
    calc (2 : ℚ) ^ 52 * 2 ^ e' = 2 ^ (e' + 52) := by
          rw [zpow_add₀ two_ne_zero, mul_comm]
          rfl
      _ ≤ magnitude m e / 10 ^ k := h.normal hlast
      _ = m * (2 ^ e / 10 ^ k) := by rw [magnitude, mul_div_assoc]
      _ < 2 ^ 53 * (2 ^ e / 10 ^ k) := mul_lt_mul_of_pos_right hbits hgap
  have hclose : |magnitude m e / 10 ^ k - magnitude m' e'| ≤ 1 / 2 * 2 ^ e' := by
    obtain ⟨hlow, hhigh⟩ := h.bounds
    have hvalue : magnitude m' e' = m' * 2 ^ e' := rfl
    rw [hvalue, abs_le]
    constructor <;> linarith
  linarith

/-- A half between the whole numbers below a quotient is a double. -/
theorem roundsTo_half (hm : m < 2 ^ 53) (he : e < k) {z : ℤ} (hz : magnitude m e / 10 ^ k = z / 2) :
    RoundsTo (magnitude m e / 10 ^ k) (magnitude m e / 10 ^ k) := by
  have hnonneg : (0 : ℚ) ≤ magnitude m e / 10 ^ k := div_nonneg (magnitude_nonneg m e) (by positivity)
  obtain ⟨n, rfl⟩ := Int.eq_ofNat_of_zero_le (show 0 ≤ z by
    have : (0 : ℚ) ≤ z := by linarith
    exact_mod_cast this)
  have hhalf : magnitude m e / 10 ^ k = magnitude n (-1) := by
    rw [hz, magnitude, zpow_neg_one, div_eq_mul_inv]
    rfl
  have hlt : (n : ℚ) < 2 ^ 53 := by
    have hbits : (m : ℚ) < 2 ^ 53 := mod_cast hm
    have htwo : (2 : ℚ) ^ (e + 1) ≤ 10 ^ k := by
      calc (2 : ℚ) ^ (e + 1) ≤ 2 ^ (k : ℤ) := zpow_le_zpow_right₀ one_le_two (by omega)
        _ = 2 ^ k := zpow_natCast 2 k
        _ ≤ 10 ^ k := pow_le_pow_left₀ (by norm_num) (by norm_num) k
    have hcast : ((n : ℤ) : ℚ) = n := Int.cast_natCast n
    have hdouble : (n : ℚ) = m * (2 ^ (e + 1) / 10 ^ k) := by
      rw [hcast] at hz
      rw [zpow_add_one₀ two_ne_zero]
      rw [magnitude] at hz
      linarith [hz, show (m : ℚ) * (2 ^ e * 2 / 10 ^ k) = 2 * (m * 2 ^ e / 10 ^ k) by ring]
    rw [hdouble]
    exact (mul_le_of_le_one_right (Nat.cast_nonneg m) ((div_le_one (by positivity)).mpr htwo)).trans_lt hbits
  rw [hhalf]
  exact .self (by exact_mod_cast hlt.le) (by decide)

theorem isNearest_zero_of_le_half (hv : 0 ≤ v) (h : v ≤ 1 / 2) : IsNearest v 0 where
  close := by rwa [Nat.cast_zero, sub_zero, abs_of_nonneg hv]
  even _ := rfl

theorem roundsTo_one_half : RoundsTo (1 / 2) (1 / 2) := by
  have hself := RoundsTo.self (m := 1) (e := -1) (by decide) (by decide)
  have hvalue : magnitude 1 (-1) = 1 / 2 := by
    rw [magnitude]
    norm_num
  rwa [hvalue] at hself

/-- The whole number nearest to the rounded quotient is nearest to the quotient. -/
theorem isNearest_of_rounded_quotient (hm : m < 2 ^ 53) (he : e < k)
    (hu : RoundsTo (magnitude m e / 10 ^ k) u) (h : IsNearest u c) : IsNearest (magnitude m e / 10 ^ k) c := by
  obtain hsmall | hquarter := le_or_gt (magnitude m e / 10 ^ k) (1 / 4)
  · have hnonneg : (0 : ℚ) ≤ magnitude m e / 10 ^ k := div_nonneg (magnitude_nonneg m e) (by positivity)
    have hhalf := hsmall.trans (by norm_num : (1 / 4 : ℚ) ≤ 1 / 2)
    rw [h.unique (isNearest_zero_of_le_half hu.nonneg (hu.mono roundsTo_one_half hhalf))]
    exact isNearest_zero_of_le_half hnonneg hhalf
  · obtain ⟨hbelow, habove⟩ := abs_lt.mp (close_lt_gap hm hquarter hu)
    obtain ⟨hlow, hhigh⟩ := abs_le.mp h.close
    -- beyond a half there is a gap first, which rounding does not cross
    have hupper : magnitude m e / 10 ^ k ≤ c + 1 / 2 := by
      by_contra! hlt
      have hgap := gap_le_of_ne m he (z := 2 * c + 1) (by push_cast; linarith)
      push_cast at hgap
      rw [abs_of_pos (by linarith)] at hgap
      linarith
    have hlower : c - 1 / 2 ≤ magnitude m e / 10 ^ k := by
      by_contra! hlt
      have hgap := gap_le_of_ne m he (z := 2 * c - 1) (by push_cast; linarith)
      push_cast at hgap
      rw [abs_of_neg (by linarith)] at hgap
      linarith
    refine ⟨abs_le.mpr ⟨by linarith, by linarith⟩, fun htie => ?_⟩
    obtain ⟨z, hz⟩ : ∃ z : ℤ, magnitude m e / 10 ^ k = z / 2 := by
      obtain hup | hdown := (abs_eq (by norm_num)).mp htie
      · exact ⟨2 * c + 1, by push_cast; linarith⟩
      · exact ⟨2 * c - 1, by push_cast; linarith⟩
    rw [(roundsTo_half hm he hz).unique hu] at htie
    exact h.even htie

end Reckoner.Number
