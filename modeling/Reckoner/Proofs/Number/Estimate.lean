import Reckoner.Proofs.Number.Logarithm

/-! The estimate of a power's size from conversions and a logarithm that are only nearly right. If each of them is
off by at most one part in `2 ^ 50`, a power that is let through exceeds the width by at most one part in `2 ^ 47`. -/
namespace Reckoner.PowerSize
open Binary64

variable {base exponent : ℕ} {bits : UInt64}

/-- Doubles near to whole numbers, before those beyond the greatest double become infinite: each is off by at most
one part in `2 ^ 50`. -/
structure Conversion where
  size : ℕ → Size
  error : ∀ n, |((size n).value : ℝ) - n| ≤ n * 2 ^ (-50 : ℤ)

namespace Conversion

theorem le_value (c : Conversion) (n : ℕ) : n * (1 - 2 ^ (-50 : ℤ)) ≤ ((c.size n).value : ℝ) := by
  linarith [(abs_le.mp (c.error n)).1]

theorem value_le (c : Conversion) (n : ℕ) : ((c.size n).value : ℝ) ≤ n * (1 + 2 ^ (-50 : ℤ)) := by
  linarith [(abs_le.mp (c.error n)).2]

theorem ofNat_error (n : ℕ) : |((Size.ofNat n).value : ℝ) - n| ≤ n * 2 ^ (-50 : ℤ) := by
  obtain rfl | hn := Nat.eq_zero_or_pos n
  · rw [Size.value_ofNat_zero, Rat.cast_zero, Nat.cast_zero, sub_zero, abs_zero, zero_mul]
  · have hnormal : (2 : ℚ) ^ (-1022 : ℤ) ≤ n :=
      (zpow_le_one_of_nonpos₀ one_le_two (by decide)).trans (by exact_mod_cast hn)
    have hclose := (Rat.cast_le (K := ℝ)).mpr ((Size.ofNat_rounds hn).close hnormal)
    push_cast at hclose
    rw [abs_sub_comm]
    exact hclose.trans (mul_le_mul_of_nonneg_left (by norm_num) (Nat.cast_nonneg _))

/-- To the nearest double. -/
def nearest : Conversion := ⟨Size.ofNat, ofNat_error⟩

end Conversion

/-- A product is rounded by at most one part in `2 ^ 53` if its factors are far from the least doubles. -/
theorem Size.le_value_mul {a b : Size} (ha : 1 / 2 ≤ a.value) (hb : 1 / 2 ≤ b.value) :
    (a.value * b.value * (1 - 2 ^ (-53 : ℤ)) : ℝ) ≤ (a.mul b).value := by
  have hhalf : (0 : ℚ) < 1 / 2 := by norm_num
  have hnormal : (2 : ℚ) ^ (-1022 : ℤ) ≤ a.value * b.value := by
    calc (2 : ℚ) ^ (-1022 : ℤ) ≤ 2 ^ (-2 : ℤ) := zpow_le_zpow_right₀ one_le_two (by decide)
      _ = 1 / 2 * (1 / 2) := by norm_num
      _ ≤ a.value * b.value := mul_le_mul ha hb hhalf.le (hhalf.le.trans ha)
  have hround := (mul_rounds (hhalf.trans_le ha) (hhalf.trans_le hb)).mul_le_magnitude hnormal
  have hreal := (Rat.cast_le (K := ℝ)).mpr hround
  push_cast at hreal
  exact hreal

/-- What is near to a number from one on is no less than a half. -/
theorem half_le_of_near {x : ℝ} {v : ℚ} (hx : 1 ≤ x) (h : x * (1 - 2 ^ (-48 : ℤ)) ≤ v) : 1 / 2 ≤ v := by
  refine (Rat.cast_le (K := ℝ)).mp ?_
  push_cast
  calc (1 / 2 : ℝ) ≤ 1 * (1 - 2 ^ (-48 : ℤ)) := by norm_num
    _ ≤ x * (1 - 2 ^ (-48 : ℤ)) := mul_le_mul_of_nonneg_right hx (by norm_num)
    _ ≤ v := h

/-- What a power's size is estimated from: doubles for bases and exponents, doubles for widths, and a binary
logarithm of finite doubles from two on. No base from two on has a double below two. -/
structure Approximation where
  ofInteger : Conversion
  ofWidth : Conversion
  log2 : Size → Size
  proper : ∀ n, 2 ≤ n → (ofInteger.size n).Proper
  log2_error : ∀ s : Size, s.Proper → s.value < 2 ^ (1024 : ℤ) →
    |((log2 s).value : ℝ) - Real.logb 2 s.value| ≤ Real.logb 2 s.value * 2 ^ (-50 : ℤ)

namespace Approximation

variable (r : Approximation)

/-- The logarithm of a base of at least two; of one that has no finite double the bits are counted. -/
def logOfBase (base : ℕ) : Size :=
  let s := r.ofInteger.size base
  if s.significand.log2 + s.exponent < 1024 then r.log2 s else r.ofWidth.size (base.log2 + 1)

/-- Whether the estimate for `base ^ exponent` is above `maxBits`. -/
def exceeds (base exponent : ℕ) (maxBits : UInt64) : Bool :=
  (r.ofWidth.size maxBits.toNat).lt ((r.ofInteger.size exponent).mul (r.logOfBase base))

theorem log2_nearest_error (s : Size) (hs : s.Proper) :
    |((Size.log2 s).value : ℝ) - Real.logb 2 s.value| ≤ Real.logb 2 s.value * 2 ^ (-50 : ℤ) := by
  have hlog := zero_le_one.trans hs.one_le_logb_value
  have hlow : Real.logb 2 s.value * (1 - 2 ^ (-50 : ℤ)) ≤ s.log2.value :=
    (mul_le_mul_of_nonneg_left (by norm_num) hlog).trans hs.le_value_log2
  have hhigh : (s.log2.value : ℝ) ≤ Real.logb 2 s.value * (1 + 2 ^ (-50 : ℤ)) :=
    hs.value_log2_le.trans (mul_le_mul_of_nonneg_left (by norm_num) hlog)
  rw [abs_le]
  constructor
  · linarith
  · linarith

/-- Correctly rounded conversions and the logarithm by its digits. -/
def nearest : Approximation where
  ofInteger := .nearest
  ofWidth := .nearest
  log2 := Size.log2
  proper _ hn := Size.proper_ofNat hn
  log2_error s hs _ := log2_nearest_error s hs

theorem exceeds_nearest : nearest.exceeds = PowerSize.exceeds := rfl

/-- A conversion lowers a base's logarithm by at most one part in `2 ^ 49`. -/
theorem le_logb_size (hbase : 2 ≤ base) :
    Real.logb 2 base * (1 - 2 ^ (-49 : ℤ)) ≤ Real.logb 2 (r.ofInteger.size base).value := by
  have htwo : (2 : ℝ) ≤ base := by exact_mod_cast hbase
  have hone := one_le_logb htwo
  have hpart : (0 : ℝ) < 1 - 2 ^ (-50 : ℤ) := by norm_num
  have hlost : -(2 ^ (-49 : ℤ)) ≤ Real.logb 2 (1 - 2 ^ (-50 : ℤ)) := by
    have h := neg_two_mul_le_logb (2 ^ (-50 : ℤ)) (by positivity) (by norm_num)
    rwa [show (2 : ℝ) * 2 ^ (-50 : ℤ) = 2 ^ (-49 : ℤ) by norm_num] at h
  calc Real.logb 2 base * (1 - 2 ^ (-49 : ℤ)) = Real.logb 2 base - Real.logb 2 base * 2 ^ (-49 : ℤ) := by
        rw [mul_sub, mul_one]
    _ ≤ Real.logb 2 base - 2 ^ (-49 : ℤ) :=
        sub_le_sub_left (le_mul_of_one_le_left (by positivity) hone) _
    _ ≤ Real.logb 2 base + Real.logb 2 (1 - 2 ^ (-50 : ℤ)) := by
        rw [sub_eq_add_neg]
        exact add_le_add_right hlost _
    _ = Real.logb 2 (base * (1 - 2 ^ (-50 : ℤ))) := (Real.logb_mul (by linarith) hpart.ne').symm
    _ ≤ Real.logb 2 (r.ofInteger.size base).value :=
        Real.logb_le_logb_of_le one_lt_two (mul_pos (by linarith) hpart) (r.ofInteger.le_value base)

/-- Whether a logarithm is taken or bits are counted, the logarithm is undercut by at most one part in `2 ^ 48`. -/
theorem le_value_logOfBase (hbase : 2 ≤ base) :
    Real.logb 2 base * (1 - 2 ^ (-48 : ℤ)) ≤ (r.logOfBase base).value := by
  have hlog : 0 ≤ Real.logb 2 base := Real.logb_nonneg one_lt_two (by exact_mod_cast one_le_two.trans hbase)
  have hproper := r.proper base hbase
  unfold logOfBase
  dsimp only
  split
  · next hfinite =>
    have hlt := (Size.log2_lt_iff hproper.significand_ne_zero _).mp hfinite
    have herror := (abs_le.mp (r.log2_error _ hproper hlt)).1
    calc Real.logb 2 base * (1 - 2 ^ (-48 : ℤ))
        ≤ Real.logb 2 base * ((1 - 2 ^ (-49 : ℤ)) * (1 - 2 ^ (-50 : ℤ))) :=
          mul_le_mul_of_nonneg_left (by norm_num) hlog
      _ = Real.logb 2 base * (1 - 2 ^ (-49 : ℤ)) * (1 - 2 ^ (-50 : ℤ)) := (mul_assoc _ _ _).symm
      _ ≤ Real.logb 2 (r.ofInteger.size base).value * (1 - 2 ^ (-50 : ℤ)) :=
          mul_le_mul_of_nonneg_right (r.le_logb_size hbase) (by norm_num)
      _ ≤ (r.log2 (r.ofInteger.size base)).value := by linarith
  · have hwidth : Real.logb 2 base ≤ (base.log2 + 1 : ℕ) := by
      rw [Real.logb_le_iff_le_rpow one_lt_two (by exact_mod_cast two_pos.trans_le hbase), Real.rpow_natCast]
      exact_mod_cast Nat.lt_log2_self.le
    calc Real.logb 2 base * (1 - 2 ^ (-48 : ℤ)) ≤ (base.log2 + 1 : ℕ) * (1 - 2 ^ (-50 : ℤ)) :=
          mul_le_mul hwidth (by norm_num) (by norm_num) (Nat.cast_nonneg _)
      _ ≤ (r.ofWidth.size (base.log2 + 1)).value := r.ofWidth.le_value _

theorem half_le_size (hexponent : 0 < exponent) : 1 / 2 ≤ (r.ofInteger.size exponent).value := by
  have hlow := mul_le_mul_of_nonneg_left (show (1 - 2 ^ (-48 : ℤ) : ℝ) ≤ 1 - 2 ^ (-50 : ℤ) by norm_num)
    (Nat.cast_nonneg exponent)
  exact half_le_of_near (by exact_mod_cast hexponent) (hlow.trans (r.ofInteger.le_value exponent))

theorem half_le_logOfBase (hbase : 2 ≤ base) : 1 / 2 ≤ (r.logOfBase base).value :=
  half_le_of_near (one_le_logb (by exact_mod_cast hbase)) (r.le_value_logOfBase hbase)

/-- A power that is let through exceeds the width by at most one part in `2 ^ 47`. -/
theorem mul_logb_le (hbase : 2 ≤ base) (hexponent : 0 < exponent) (h : ¬ r.exceeds base exponent bits) :
    exponent * Real.logb 2 base ≤ bits.toNat * (1 + 2 ^ (-47 : ℤ)) := by
  have hx := r.half_le_size hexponent
  have hy := r.half_le_logOfBase hbase
  have hlog : 0 ≤ Real.logb 2 base := Real.logb_nonneg one_lt_two (by exact_mod_cast one_le_two.trans hbase)
  have hfactors : exponent * (1 - 2 ^ (-50 : ℤ)) * (Real.logb 2 base * (1 - 2 ^ (-48 : ℤ))) ≤
      ((r.ofInteger.size exponent).value * (r.logOfBase base).value : ℝ) :=
    mul_le_mul (r.ofInteger.le_value exponent) (r.le_value_logOfBase hbase)
      (mul_nonneg hlog (by norm_num)) (by exact_mod_cast Size.value_nonneg _)
  have hle : (((r.ofInteger.size exponent).mul (r.logOfBase base)).value : ℝ) ≤
      (r.ofWidth.size bits.toNat).value := by
    rw [exceeds, Size.lt_iff, not_lt] at h
    exact_mod_cast h
  -- what is left after all errors of the estimate is one factor, which the width makes up for
  obtain ⟨kept, hkept, hpos, hwidth⟩ : ∃ kept : ℝ,
      kept = (1 - 2 ^ (-50 : ℤ)) * (1 - 2 ^ (-48 : ℤ)) * (1 - 2 ^ (-53 : ℤ)) ∧ 0 < kept ∧
      1 + 2 ^ (-50 : ℤ) ≤ (1 + 2 ^ (-47 : ℤ)) * kept := ⟨_, rfl, by norm_num, by norm_num⟩
  refine le_of_mul_le_mul_right ?_ hpos
  calc exponent * Real.logb 2 base * kept
      = exponent * (1 - 2 ^ (-50 : ℤ)) * (Real.logb 2 base * (1 - 2 ^ (-48 : ℤ))) * (1 - 2 ^ (-53 : ℤ)) := by
        rw [hkept]
        ring
    _ ≤ (r.ofInteger.size exponent).value * (r.logOfBase base).value * (1 - 2 ^ (-53 : ℤ)) :=
        mul_le_mul_of_nonneg_right hfactors (by norm_num)
    _ ≤ ((r.ofInteger.size exponent).mul (r.logOfBase base)).value := Size.le_value_mul hx hy
    _ ≤ (r.ofWidth.size bits.toNat).value := hle
    _ ≤ bits.toNat * (1 + 2 ^ (-50 : ℤ)) := r.ofWidth.value_le _
    _ ≤ bits.toNat * ((1 + 2 ^ (-47 : ℤ)) * kept) := mul_le_mul_of_nonneg_left hwidth (Nat.cast_nonneg _)
    _ = bits.toNat * (1 + 2 ^ (-47 : ℤ)) * kept := (mul_assoc _ _ _).symm

/-- For widths up to `2 ^ 40` this is less than one bit. -/
theorem pow_lt (hbase : 2 ≤ base) (hexponent : 0 < exponent) (hbits : bits.toNat ≤ 2 ^ 40)
    (h : ¬ r.exceeds base exponent bits) : base ^ exponent < 2 ^ (bits.toNat + 1) := by
  have hpos : (0 : ℝ) < base := by exact_mod_cast two_pos.trans_le hbase
  have hwidth : (bits.toNat : ℝ) ≤ 2 ^ 40 := by exact_mod_cast hbits
  have hexcess : (bits.toNat : ℝ) * 2 ^ (-47 : ℤ) < 1 :=
    (mul_le_mul_of_nonneg_right hwidth (by positivity)).trans_lt (by norm_num)
  have hlog : Real.logb 2 ((base : ℝ) ^ exponent) < (bits.toNat + 1 : ℕ) := by
    rw [Real.logb_pow, Nat.cast_add_one]
    linarith [r.mul_logb_le hbase hexponent h]
  rw [Real.logb_lt_iff_lt_rpow one_lt_two (pow_pos hpos _), Real.rpow_natCast] at hlog
  exact_mod_cast hlog

end Approximation

end Reckoner.PowerSize
