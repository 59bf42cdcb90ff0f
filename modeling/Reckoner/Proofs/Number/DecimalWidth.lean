import Reckoner.Number.Rounding
import Reckoner.Proofs.Binary64.Whole

/-! The estimated decimal width of an integer is not too low. The logarithm is rounded, and so is its product with
the bits, but two digits more make up for that below `2 ^ 32` bits. -/
namespace Reckoner.Number
open Binary64

variable {n : ℤ}

/-- The rounded logarithm. -/
def log10TwoValue : ℚ := 5422874305198591 / 2 ^ 54

theorem log10Two_hasValue : HasValue log10Two false log10TwoValue := by
  have h : view log10Two = .finite false 5422874305198591 (-54) := by decide +kernel
  have hvalue : magnitude 5422874305198591 (-54) = log10TwoValue := by
    rw [magnitude, log10TwoValue, zpow_neg]
    norm_num
  exact hvalue ▸ .of_view h

/-- The width is two more than the whole part of the rounded product. -/
theorem decimalWidth_bounds (h : bitLength n < 2 ^ 32) :
    (bitLength n : ℚ) * log10TwoValue * (1 - 2 ^ (-53 : ℤ)) < decimalWidth n - 1 ∧ decimalWidth n < 2 ^ 32 := by
  have hwidth : decimalWidth n =
      ((toInt? .floor (ofNat (bitLength n) * log10Two)).getD 0).toNat + 2 := rfl
  generalize bitLength n = bits at *
  have hbits : (bits : ℚ) < 2 ^ 32 := mod_cast h
  have hnonneg : (0 : ℚ) ≤ bits * log10TwoValue := by
    unfold log10TwoValue
    positivity
  have hle : (bits : ℚ) * log10TwoValue ≤ (2 ^ 31 : ℕ) := by
    unfold log10TwoValue
    push_cast
    linarith
  obtain ⟨u, hu⟩ := RoundsTo.exists_of_nonneg hnonneg
  have hproduct := (HasValue.ofNat (h.le.trans (by decide))).mul_right log10Two_hasValue hu
    (hle.trans (natCast_le_greatest (by decide)))
  obtain ⟨whole, hfloor, hwhole, hlt⟩ := hproduct.floor
  rw [hfloor, Option.getD_some, Int.toNat_natCast] at hwidth
  rw [hwidth]
  constructor
  · have hclose : bits * log10TwoValue * (1 - 2 ^ (-53 : ℤ)) ≤ u := by
      obtain rfl | hpos := Nat.eq_zero_or_pos bits
      · rw [Nat.cast_zero, zero_mul, zero_mul]
        exact hproduct.nonneg
      · have hone : (1 : ℚ) ≤ bits := mod_cast hpos
        have hquarter : 1 / 4 ≤ bits * log10TwoValue := by
          unfold log10TwoValue
          linarith
        linarith [(abs_le.mp (hu.close_of_quarter_le hquarter)).2]
    push_cast
    linarith
  · have hsmall : (whole : ℚ) ≤ (2 ^ 31 : ℕ) := hwhole.trans (hu.mono (.natCast (by decide)) hle)
    have : whole ≤ 2 ^ 31 := mod_cast hsmall
    omega

/-- A bound on the logarithm of two bounds all powers of two. -/
theorem two_pow_le_ten_pow {p q a b : ℕ} (hpow : 2 ^ q ≤ 10 ^ p) (hq : q ≠ 0) (h : p * a ≤ q * b) :
    2 ^ a ≤ 10 ^ b := by
  refine (Nat.pow_le_pow_iff_left hq).mp ?_
  calc (2 ^ a) ^ q = (2 ^ q) ^ a := by rw [← pow_mul, ← pow_mul, mul_comm]
    _ ≤ (10 ^ p) ^ a := Nat.pow_le_pow_left hpow a
    _ = 10 ^ (p * a) := (pow_mul 10 p a).symm
    _ ≤ 10 ^ (q * b) := Nat.pow_le_pow_right (by decide) h
    _ = (10 ^ b) ^ q := by rw [← pow_mul, mul_comm]

/-- A power of ten of more digits than the width is more than twice the integer. -/
theorem pow_le_decimalWidth (h : bitLength n < 2 ^ 32) : 2 ^ (bitLength n + 1) ≤ 10 ^ (decimalWidth n + 1) := by
  obtain ⟨hlow, -⟩ := decimalWidth_bounds h
  have hbits : (bitLength n : ℚ) < 2 ^ 32 := mod_cast h
  generalize bitLength n = bits at *
  generalize decimalWidth n = width at *
  -- the next fraction above the logarithm that is near enough for 32 bits
  refine two_pow_le_ten_pow (p := 12655) (q := 42039) (by decide +kernel) (by decide) ?_
  have hfraction : (12655 * (bits + 1) : ℚ) ≤ 42039 * (width + 1) := by
    unfold log10TwoValue at hlow
    norm_num at hlow
    linarith
  exact_mod_cast hfraction

end Reckoner.Number
