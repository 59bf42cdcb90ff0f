import Reckoner.Proofs.Binary64.Error
import Reckoner.Proofs.Number.PowerSize

/-! The estimated logarithm of a base is never far from the logarithm. Its digits are found from below, so only
the rounding of the base and of the digits may raise it; what is cut off the squares on the way lowers it by less
than the last digit. -/
namespace Reckoner.PowerSize
open Binary64

variable {s : Size} {n x digit k : ℕ}

theorem Size.ofNat_rounds (hn : 0 < n) : Rounds leastExponent n (Size.ofNat n).significand (Size.ofNat n).exponent :=
  rounds_natCast hn

theorem Size.value_ofNat (hn : n ≤ 2 ^ 53) : (Size.ofNat n).value = n := by
  obtain rfl | hpos := Nat.eq_zero_or_pos n
  · rw [value_ofNat_zero, Nat.cast_zero]
  · exact (ofNat_rounds hpos).eq_of_magnitude n 0 (by simp [magnitude]) hn (by decide)

theorem Size.value_ofNat_one : (Size.ofNat 1).value = 1 := by
  rw [value_ofNat (by decide), Nat.cast_one]

theorem Size.le_value_ofNat (hk : k ≤ 2 ^ 53) (h : k ≤ n) : (k : ℚ) ≤ (Size.ofNat n).value :=
  value_ofNat hk ▸ value_ofNat_mono h

theorem Size.value_ofNat_two_pow (k : ℕ) : (Size.ofNat (2 ^ k)).value = 2 ^ k := by
  have h := (ofNat_rounds (Nat.two_pow_pos k)).eq_of_magnitude 1 k (by simp [magnitude])
    (by decide) (by unfold leastExponent; omega)
  rw [value, h]
  push_cast
  rfl

theorem one_le_logb {y : ℝ} (hy : 2 ≤ y) : 1 ≤ Real.logb 2 y := by
  rw [Real.le_logb_iff_rpow_le one_lt_two (two_pos.trans_le hy), Real.rpow_one]
  exact hy

/-- Taking a small part off one lowers the logarithm by at most twice that part. -/
theorem neg_two_mul_le_logb (part : ℝ) (hpart : 0 ≤ part) (hle : part ≤ 1 / 4) :
    -(2 * part) ≤ Real.logb 2 (1 - part) := by
  have hlog : 1 - (1 - part)⁻¹ ≤ Real.log (1 - part) := Real.one_sub_inv_le_log_of_pos (by linarith)
  have hinv : (1 - part)⁻¹ ≤ 1 + 4 / 3 * part := by
    rw [inv_le_iff_one_le_mul₀ (by linarith)]
    nlinarith
  have htwo : 2 / 3 * (2 * part) ≤ Real.log 2 * (2 * part) :=
    mul_le_mul_of_nonneg_right (by linarith [Real.log_two_gt_d9]) (by linarith)
  rw [Real.logb, le_div_iff₀ (Real.log_pos one_lt_two)]
  linarith

/-- A number between one and two as it is scaled while its logarithm is taken. -/
structure Scaled (x : ℕ) : Prop where
  le : 2 ^ places ≤ x
  lt : x < 2 ^ (places + 1)

/-- The logarithm of a scaled number. -/
noncomputable def scaledLog (x : ℕ) : ℝ := Real.logb 2 (x / 2 ^ places)

/-- What a digit leaves of a square: a digit one halves it and a digit zero keeps it. -/
def leftOver (x digit : ℕ) : ℕ := x * x / 2 ^ places / 2 ^ digit

namespace Scaled

theorem one_le (hx : Scaled x) : (1 : ℝ) ≤ x / 2 ^ places := by
  rw [one_le_div (by positivity)]
  exact_mod_cast hx.le

theorem pos (hx : Scaled x) : (0 : ℝ) < x / 2 ^ places := one_pos.trans_le hx.one_le

theorem log_nonneg (hx : Scaled x) : 0 ≤ scaledLog x := Real.logb_nonneg one_lt_two hx.one_le

theorem log_le_one (hx : Scaled x) : scaledLog x ≤ 1 := by
  have htwo : (x : ℝ) / 2 ^ places ≤ 2 := by
    rw [div_le_iff₀ (by positivity), ← pow_succ']
    exact_mod_cast hx.lt.le
  rw [scaledLog, Real.logb_le_iff_le_rpow one_lt_two hx.pos, Real.rpow_one]
  exact htwo

theorem logDigits_succ (hx : Scaled x) (n found : ℕ) : ∃ digit, Scaled (leftOver x digit) ∧
    logDigits (n + 1) x found = logDigits n (leftOver x digit) (2 * found + digit) := by
  by_cases hlarge : 2 ^ (places + 1) ≤ x * x / 2 ^ places
  · refine ⟨1, ⟨?_, ?_⟩, if_pos hlarge⟩
    · rw [leftOver, pow_one, Nat.le_div_iff_mul_le two_pos, ← pow_succ]
      exact hlarge
    · rw [leftOver, pow_one, Nat.div_div_eq_div_mul, ← pow_succ, Nat.div_lt_iff_lt_mul (Nat.two_pow_pos _)]
      exact Nat.mul_lt_mul'' hx.lt hx.lt
  · have hzero : leftOver x 0 = x * x / 2 ^ places := Nat.div_one _
    refine ⟨0, ⟨?_, ?_⟩, ?_⟩
    · rw [hzero, Nat.le_div_iff_mul_le (Nat.two_pow_pos _)]
      exact Nat.mul_le_mul hx.le hx.le
    · rw [hzero]
      exact not_le.mp hlarge
    · rw [hzero]
      exact if_neg hlarge

/-- What is cut off a square is less than one part in `2 ^ 128` of it. -/
theorem square_bounds (hrest : Scaled (leftOver x digit)) :
    (x / 2 ^ places : ℝ) ^ 2 * (1 - 2 ^ (-128 : ℤ)) ≤ 2 ^ digit * (leftOver x digit / 2 ^ places) ∧
    (2 ^ digit * (leftOver x digit / 2 ^ places) : ℝ) ≤ (x / 2 ^ places) ^ 2 := by
  have hone : (2 ^ places : ℝ) ≤ leftOver x digit := by exact_mod_cast hrest.le
  have hhigh : (2 ^ places * 2 ^ digit * leftOver x digit : ℝ) ≤ x * x := by
    rw [leftOver, Nat.div_div_eq_div_mul]
    exact_mod_cast Nat.mul_div_le _ _
  have hlow : (x * x : ℝ) ≤ 2 ^ places * 2 ^ digit * (leftOver x digit + 1) := by
    rw [leftOver, Nat.div_div_eq_div_mul]
    exact_mod_cast (Nat.lt_mul_div_succ _ (by positivity)).le
  have hinv : (2 : ℝ) ^ (-128 : ℤ) = (2 ^ places)⁻¹ := by
    rw [places, zpow_neg]
    norm_cast
  have hpos : (0 : ℝ) < 2 ^ places := by positivity
  have hle : (2 ^ places : ℝ)⁻¹ ≤ 1 := inv_le_one_of_one_le₀ (one_le_pow₀ one_le_two)
  rw [hinv]
  generalize (2 : ℝ) ^ places = unit at *
  generalize (leftOver x digit : ℝ) = rest at *
  have hbelow : x * x * (1 - unit⁻¹) ≤ unit * 2 ^ digit * rest := by
    calc (x * x : ℝ) * (1 - unit⁻¹) ≤ unit * 2 ^ digit * (rest + 1) * (1 - unit⁻¹) :=
          mul_le_mul_of_nonneg_right hlow (sub_nonneg.mpr hle)
      _ = unit * 2 ^ digit * rest - 2 ^ digit * (rest + 1 - unit) := by
        field_simp
        ring
      _ ≤ unit * 2 ^ digit * rest :=
        sub_le_self _ (mul_nonneg (pow_nonneg zero_le_two digit) (by linarith))
  constructor
  · calc (x / unit) ^ 2 * (1 - unit⁻¹) = x * x * (1 - unit⁻¹) / unit ^ 2 := by ring
      _ ≤ unit * 2 ^ digit * rest / unit ^ 2 := by gcongr
      _ = 2 ^ digit * (rest / unit) := by field_simp
  · calc 2 ^ digit * (rest / unit) = unit * 2 ^ digit * rest / unit ^ 2 := by field_simp
      _ ≤ x * x / unit ^ 2 := by gcongr
      _ = (x / unit) ^ 2 := by ring

/-- A digit and the logarithm of what it leaves make up the doubled logarithm, but for what is cut off. -/
theorem log_bounds (hx : Scaled x) (hrest : Scaled (leftOver x digit)) :
    digit + scaledLog (leftOver x digit) ≤ 2 * scaledLog x ∧
    2 * scaledLog x ≤ digit + scaledLog (leftOver x digit) + 2 ^ (-127 : ℤ) := by
  obtain ⟨hlow, hhigh⟩ := square_bounds hrest
  have hpos := hx.pos
  have hpos' := hrest.pos
  have hsum : digit + scaledLog (leftOver x digit) =
      Real.logb 2 (2 ^ digit * (leftOver x digit / 2 ^ places)) := by
    rw [Real.logb_mul (by positivity) hpos'.ne', Real.logb_pow, Real.logb_self_eq_one one_lt_two, mul_one, scaledLog]
  have hdouble : 2 * scaledLog x = Real.logb 2 ((x / 2 ^ places) ^ 2) := by
    rw [Real.logb_pow, Nat.cast_ofNat, scaledLog]
  have hpart : (0 : ℝ) < 1 - 2 ^ (-128 : ℤ) := by norm_num
  have hsmall := neg_two_mul_le_logb (2 ^ (-128 : ℤ)) (by positivity) (by norm_num)
  rw [show (2 : ℝ) * 2 ^ (-128 : ℤ) = 2 ^ (-127 : ℤ) by norm_num] at hsmall
  rw [hsum, hdouble]
  constructor
  · exact Real.logb_le_logb_of_le one_lt_two (by positivity) hhigh
  · have hlog := Real.logb_le_logb_of_le one_lt_two (mul_pos (pow_pos hpos 2) hpart) hlow
    rw [Real.logb_mul (by positivity) hpart.ne'] at hlog
    exact (le_sub_iff_add_le.mpr hlog).trans ((sub_le_sub_left hsmall _).trans (sub_neg_eq_add _ _).le)

/-- The digits lie below the logarithm: squaring doubles it, and what is cut off a square only lowers it. -/
theorem logDigits_le (hx : Scaled x) (n found : ℕ) :
    (logDigits n x found : ℝ) ≤ 2 ^ n * (found + scaledLog x) := by
  induction n generalizing x found with
  | zero =>
    rw [logDigits, pow_zero, one_mul]
    linarith [hx.log_nonneg]
  | succ n ih =>
    obtain ⟨digit, hrest, hdigits⟩ := hx.logDigits_succ n found
    rw [hdigits]
    calc (logDigits n (leftOver x digit) (2 * found + digit) : ℝ)
        ≤ 2 ^ n * ((2 * found + digit : ℕ) + scaledLog (leftOver x digit)) := ih hrest _
      _ = 2 ^ n * (2 * found + (digit + scaledLog (leftOver x digit))) := by
        push_cast
        ring
      _ ≤ 2 ^ n * (2 * found + 2 * scaledLog x) := by
        gcongr
        exact (hx.log_bounds hrest).1
      _ = 2 ^ (n + 1) * (found + scaledLog x) := by ring

/-- They are no more than one below it, but for what is cut off the squares, which doubles with every digit. -/
theorem le_logDigits_add (hx : Scaled x) (n found : ℕ) :
    2 ^ n * (found + scaledLog x) ≤ logDigits n x found + 1 + (2 ^ n - 1) * 2 ^ (-127 : ℤ) := by
  induction n generalizing x found with
  | zero =>
    rw [logDigits, pow_zero, one_mul, sub_self, zero_mul, add_zero]
    linarith [hx.log_le_one]
  | succ n ih =>
    obtain ⟨digit, hrest, hdigits⟩ := hx.logDigits_succ n found
    rw [hdigits]
    calc 2 ^ (n + 1) * (found + scaledLog x) = 2 ^ n * (2 * found + 2 * scaledLog x) := by ring
      _ ≤ 2 ^ n * (2 * found + (digit + scaledLog (leftOver x digit) + 2 ^ (-127 : ℤ))) := by
        gcongr
        exact (hx.log_bounds hrest).2
      _ = 2 ^ n * ((2 * found + digit : ℕ) + scaledLog (leftOver x digit)) + 2 ^ n * 2 ^ (-127 : ℤ) := by
        push_cast
        ring
      _ ≤ logDigits n (leftOver x digit) (2 * found + digit) + 1 + (2 ^ n - 1) * 2 ^ (-127 : ℤ) +
          2 ^ n * 2 ^ (-127 : ℤ) := by
        gcongr
        exact ih hrest _
      _ = logDigits n (leftOver x digit) (2 * found + digit) + 1 + (2 ^ (n + 1) - 1) * 2 ^ (-127 : ℤ) := by ring

theorem le_logDigits (hx : Scaled x) (n found : ℕ) : 2 ^ n * found ≤ logDigits n x found := by
  induction n generalizing x found with
  | zero => rw [logDigits, pow_zero, one_mul]
  | succ n ih =>
    obtain ⟨digit, hrest, hdigits⟩ := hx.logDigits_succ n found
    calc 2 ^ (n + 1) * found ≤ 2 ^ n * (2 * found + digit) := by
          rw [pow_succ, mul_assoc]
          exact Nat.mul_le_mul_left _ (Nat.le_add_right _ _)
      _ ≤ logDigits n (leftOver x digit) (2 * found + digit) := ih hrest _
      _ = logDigits (n + 1) x found := hdigits.symm

end Scaled

theorem Size.value_lt_pow (s : Size) : s.value < 2 ^ (s.exponent + (s.significand.log2 + 1 : ℕ)) := by
  rw [← magnitude_pow, value, magnitude, magnitude]
  gcongr
  exact Nat.lt_log2_self

/-- The digits of the logarithm of a size, as a whole number. -/
def Size.logNumerator (s : Size) : ℕ :=
  logDigits logPlaces (s.significand * Nat.pow 2 (places - s.significand.log2))
    (s.significand.log2 + s.exponent).toNat

/-- A size of at least two with a significand of 53 bits. -/
structure Size.Proper (s : Size) : Prop where
  two_le : 2 ≤ s.value
  le_pow : s.significand ≤ 2 ^ 53

namespace Size.Proper

variable (h : s.Proper)

include h

theorem significand_ne_zero : s.significand ≠ 0 := by
  intro h0
  have htwo := h.two_le
  rw [value, magnitude, h0, Nat.cast_zero, zero_mul] at htwo
  norm_num at htwo

theorem log2_le : s.significand.log2 ≤ 53 := by
  have hlog := Nat.log2_self_le h.significand_ne_zero
  exact (Nat.pow_le_pow_iff_right one_lt_two).mp (hlog.trans h.le_pow)

/-- The whole part of the logarithm. -/
theorem one_le_whole : 1 ≤ s.significand.log2 + s.exponent := by
  have hpow : (2 : ℚ) ^ (1 : ℤ) < 2 ^ (s.exponent + (s.significand.log2 + 1 : ℕ)) := by
    rw [zpow_one]
    exact h.two_le.trans_lt s.value_lt_pow
  have := lt_of_zpow_lt hpow
  push_cast at this
  omega

theorem scaled : Scaled (s.significand * 2 ^ (places - s.significand.log2)) := by
  have hplaces : places = s.significand.log2 + (places - s.significand.log2) :=
    (Nat.add_sub_cancel' (h.log2_le.trans (by decide))).symm
  constructor
  · calc 2 ^ places = 2 ^ s.significand.log2 * 2 ^ (places - s.significand.log2) := by rw [← pow_add, ← hplaces]
      _ ≤ s.significand * 2 ^ (places - s.significand.log2) :=
          Nat.mul_le_mul_right _ (Nat.log2_self_le h.significand_ne_zero)
  · calc s.significand * 2 ^ (places - s.significand.log2)
        < 2 ^ (s.significand.log2 + 1) * 2 ^ (places - s.significand.log2) :=
          Nat.mul_lt_mul_of_pos_right Nat.lt_log2_self (Nat.two_pow_pos _)
      _ = 2 ^ (places + 1) := by rw [← pow_add, Nat.add_right_comm, ← hplaces]

/-- A size is the power of two below it times a number between one and two. -/
theorem value_eq : (s.value : ℝ) = 2 ^ (s.significand.log2 + s.exponent).toNat *
    ((s.significand * 2 ^ (places - s.significand.log2) : ℕ) / 2 ^ places) := by
  have hlog := h.log2_le
  have hwhole := h.one_le_whole
  have hshift : (2 : ℝ) ^ (s.significand.log2 + s.exponent).toNat * 2 ^ (places - s.significand.log2) =
      2 ^ s.exponent * 2 ^ places := by
    have hplaces : places = 128 := rfl
    rw [← pow_add, ← zpow_natCast, ← zpow_natCast, ← zpow_add₀ two_ne_zero]
    congr 1
    omega
  rw [value, magnitude]
  push_cast
  rw [← mul_div_assoc, eq_div_iff (by positivity), mul_left_comm, hshift]
  ring

theorem logb_value : Real.logb 2 s.value = (s.significand.log2 + s.exponent).toNat +
    scaledLog (s.significand * 2 ^ (places - s.significand.log2)) := by
  rw [h.value_eq, Real.logb_mul (by positivity) h.scaled.pos.ne', Real.logb_pow,
    Real.logb_self_eq_one one_lt_two, mul_one, scaledLog]

/-- The digits are those of a number between one and the logarithm. -/
theorem logNumerator_le : (s.logNumerator : ℝ) ≤ 2 ^ logPlaces * Real.logb 2 s.value := by
  rw [h.logb_value]
  exact h.scaled.logDigits_le _ _

/-- The squares lose less than a digit over all of them. -/
theorem logb_le_logNumerator : 2 ^ logPlaces * Real.logb 2 s.value ≤ s.logNumerator + 2 := by
  rw [h.logb_value]
  refine (h.scaled.le_logDigits_add logPlaces _).trans ?_
  have hloss : ((2 : ℝ) ^ logPlaces - 1) * 2 ^ (-127 : ℤ) ≤ 1 := by
    rw [logPlaces]
    norm_num
  change (s.logNumerator : ℝ) + 1 + _ ≤ _
  linarith

theorem le_logNumerator : 2 ^ logPlaces ≤ s.logNumerator := by
  have hwhole : 1 ≤ (s.significand.log2 + s.exponent).toNat := by
    have := h.one_le_whole
    omega
  calc 2 ^ logPlaces = 2 ^ logPlaces * 1 := (mul_one _).symm
    _ ≤ 2 ^ logPlaces * (s.significand.log2 + s.exponent).toNat := Nat.mul_le_mul_left _ hwhole
    _ ≤ s.logNumerator := h.scaled.le_logDigits _ _

theorem log2_rounds : Rounds leastExponent (s.logNumerator / 2 ^ logPlaces) s.log2.significand s.log2.exponent := by
  have hpos : 0 < s.logNumerator := (Nat.two_pow_pos _).trans_le h.le_logNumerator
  have hr := significand_rounds leastExponent hpos (Nat.two_pow_pos logPlaces)
  rwa [Nat.cast_pow, Nat.cast_ofNat] at hr

theorem one_le_quotient : (1 : ℚ) ≤ s.logNumerator / 2 ^ logPlaces := by
  rw [one_le_div (by positivity)]
  exact_mod_cast h.le_logNumerator

theorem one_le_value_log2 : 1 ≤ s.log2.value := by
  rw [← value_ofNat_one]
  refine (ofNat_rounds Nat.one_pos).mono h.log2_rounds ?_
  rw [Nat.cast_one]
  exact h.one_le_quotient

theorem value_log2_le : (s.log2.value : ℝ) ≤ Real.logb 2 s.value * (1 + 2 ^ (-53 : ℤ)) := by
  have hround : s.log2.value ≤ s.logNumerator / 2 ^ logPlaces * (1 + 2 ^ (-53 : ℤ)) :=
    h.log2_rounds.magnitude_le_mul h.one_le_quotient
  have hdigits : (s.logNumerator / 2 ^ logPlaces : ℝ) ≤ Real.logb 2 s.value := by
    rw [div_le_iff₀' (by positivity)]
    exact h.logNumerator_le
  have hreal : (s.log2.value : ℝ) ≤ s.logNumerator / 2 ^ logPlaces * (1 + 2 ^ (-53 : ℤ)) := by
    have := (Rat.cast_le (K := ℝ)).mpr hround
    push_cast at this
    exact this
  exact hreal.trans (mul_le_mul_of_nonneg_right hdigits (by positivity))

theorem one_le_logb_value : 1 ≤ Real.logb 2 s.value := one_le_logb (by exact_mod_cast h.two_le)

theorem le_value_log2 : Real.logb 2 s.value * (1 - 2 ^ (-52 : ℤ)) ≤ s.log2.value := by
  have hround : ((s.logNumerator / 2 ^ logPlaces * (1 - 2 ^ (-53 : ℤ)) : ℚ) : ℝ) ≤ s.log2.value := by
    refine Rat.cast_le.mpr (h.log2_rounds.mul_le_magnitude ?_)
    exact (zpow_le_one_of_nonpos₀ one_le_two (by decide)).trans h.one_le_quotient
  push_cast at hround
  have hdigits : Real.logb 2 s.value - 2 ^ (-79 : ℤ) ≤ s.logNumerator / 2 ^ logPlaces := by
    rw [le_div_iff₀' (by positivity), mul_sub]
    have hlast : (2 : ℝ) ^ logPlaces * 2 ^ (-79 : ℤ) = 2 := by
      rw [logPlaces]
      norm_num
    linarith [h.logb_le_logNumerator]
  calc Real.logb 2 s.value * (1 - 2 ^ (-52 : ℤ))
      ≤ Real.logb 2 s.value * ((1 - 2 ^ (-79 : ℤ)) * (1 - 2 ^ (-53 : ℤ))) :=
        mul_le_mul_of_nonneg_left (by norm_num) (zero_le_one.trans h.one_le_logb_value)
    _ = (Real.logb 2 s.value - Real.logb 2 s.value * 2 ^ (-79 : ℤ)) * (1 - 2 ^ (-53 : ℤ)) := by ring
    _ ≤ (Real.logb 2 s.value - 2 ^ (-79 : ℤ)) * (1 - 2 ^ (-53 : ℤ)) :=
        mul_le_mul_of_nonneg_right (sub_le_sub_left (le_mul_of_one_le_left (by positivity) h.one_le_logb_value) _)
          (by norm_num)
    _ ≤ s.logNumerator / 2 ^ logPlaces * (1 - 2 ^ (-53 : ℤ)) :=
        mul_le_mul_of_nonneg_right hdigits (by norm_num)
    _ ≤ s.log2.value := hround

end Size.Proper

theorem Size.proper_ofNat (hn : 2 ≤ n) : (Size.ofNat n).Proper where
  two_le := by
    have htwo := value_ofNat (n := 2) (by decide)
    rw [Nat.cast_ofNat] at htwo
    exact htwo ▸ value_ofNat_mono hn
  le_pow := (ofNat_rounds (two_pos.trans_le hn)).le_pow

theorem Size.log2_lt_iff (h : s.significand ≠ 0) (k : ℤ) : s.significand.log2 + s.exponent < k ↔ s.value < 2 ^ k := by
  have hlow : (2 : ℚ) ^ (s.exponent + s.significand.log2) ≤ s.value := by
    rw [← magnitude_pow]
    exact magnitude_mono (Nat.log2_self_le h) _
  constructor
  · intro hlt
    refine s.value_lt_pow.trans_le (zpow_le_zpow_right₀ one_le_two ?_)
    push_cast
    omega
  · intro hlt
    have := lt_of_zpow_lt (hlow.trans_lt hlt)
    omega

/-- Bases up to the doubles have a logarithm, beyond them their bits are counted. -/
theorem logOfBase_eq (hn : 2 ≤ n) :
    logOfBase n = if n < beyond then (Size.ofNat n).log2 else Size.ofNat (n.log2 + 1) := by
  have hproper := Size.proper_ofNat hn
  have hcondition := (Size.log2_lt_iff hproper.significand_ne_zero 1024).trans
    (rounded_lt_iff (two_pos.trans_le hn))
  unfold logOfBase
  dsimp only
  exact if_congr hcondition rfl rfl

/-- Whether a logarithm is taken or bits are counted, the bits are not exceeded. -/
theorem value_logOfBase_le_width (hn : 2 ≤ n) : (logOfBase n).value ≤ (Size.ofNat (n.log2 + 1)).value := by
  rw [logOfBase_eq hn]
  split
  · have h := Size.proper_ofNat hn
    have hvalue : (Size.ofNat n).value ≤ 2 ^ (n.log2 + 1) := by
      rw [← Size.value_ofNat_two_pow]
      exact Size.value_ofNat_mono Nat.lt_log2_self.le
    have hlog : Real.logb 2 (Size.ofNat n).value ≤ (n.log2 + 1 : ℕ) := by
      have hpos : (0 : ℝ) < (Size.ofNat n).value := by exact_mod_cast two_pos.trans_le h.two_le
      rw [Real.logb_le_iff_le_rpow one_lt_two hpos, Real.rpow_natCast]
      exact_mod_cast hvalue
    have hdigits : (Size.ofNat n).logNumerator ≤ 2 ^ logPlaces * (n.log2 + 1) := by
      have := h.logNumerator_le.trans (mul_le_mul_of_nonneg_left hlog (by positivity))
      exact_mod_cast this
    refine h.log2_rounds.mono (Size.ofNat_rounds (Nat.succ_pos _)) ?_
    rw [div_le_iff₀' (by positivity)]
    exact_mod_cast hdigits
  · exact le_rfl

/-- Rounding a base raises its logarithm by less than one part in `2 ^ 52`. -/
theorem logb_value_ofNat_le (hn : 2 ≤ n) :
    Real.logb 2 (Size.ofNat n).value ≤ Real.logb 2 n * (1 + 2 ^ (-52 : ℤ)) := by
  have hbase : (2 : ℝ) ≤ n := by exact_mod_cast hn
  have hvalue : ((Size.ofNat n).value : ℝ) ≤ n * (1 + 2 ^ (-53 : ℤ)) := by
    have hone : (1 : ℚ) ≤ n := by exact_mod_cast one_le_two.trans hn
    have := (Rat.cast_le (K := ℝ)).mpr ((Size.ofNat_rounds (two_pos.trans_le hn)).magnitude_le_mul hone)
    push_cast at this
    exact this
  have hpos : (0 : ℝ) < (Size.ofNat n).value := by exact_mod_cast two_pos.trans_le (Size.proper_ofNat hn).two_le
  have hlog := one_le_logb hbase
  have hsmall : Real.logb 2 (1 + 2 ^ (-53 : ℤ)) ≤ 2 ^ (-52 : ℤ) := by
    have hpow : (2 : ℝ) ^ (-53 : ℤ) = 2 ^ (-52 : ℤ) * 2⁻¹ := by
      rw [← zpow_neg_one, ← zpow_add₀ two_ne_zero]
      norm_num
    have hhalf : (2 : ℝ)⁻¹ ≤ Real.log 2 := by linarith [Real.log_two_gt_d9]
    rw [Real.logb, div_le_iff₀ (Real.log_pos one_lt_two)]
    calc Real.log (1 + 2 ^ (-53 : ℤ)) ≤ 1 + 2 ^ (-53 : ℤ) - 1 := Real.log_le_sub_one_of_pos (by positivity)
      _ = 2 ^ (-52 : ℤ) * 2⁻¹ := by rw [add_sub_cancel_left, hpow]
      _ ≤ 2 ^ (-52 : ℤ) * Real.log 2 := mul_le_mul_of_nonneg_left hhalf (by positivity)
  calc Real.logb 2 (Size.ofNat n).value ≤ Real.logb 2 (n * (1 + 2 ^ (-53 : ℤ))) :=
        Real.logb_le_logb_of_le one_lt_two hpos hvalue
    _ = Real.logb 2 n + Real.logb 2 (1 + 2 ^ (-53 : ℤ)) := Real.logb_mul (by linarith) (by positivity)
    _ ≤ Real.logb 2 n + Real.logb 2 n * 2 ^ (-52 : ℤ) :=
        add_le_add_right (hsmall.trans (le_mul_of_one_le_left (by positivity) hlog)) _
    _ = Real.logb 2 n * (1 + 2 ^ (-52 : ℤ)) := by ring

/-- The logarithm of a base up to the doubles is at most one part in `2 ^ 51` too great. -/
theorem value_logOfBase_le (hn : 2 ≤ n) (hlt : n < beyond) :
    ((logOfBase n).value : ℝ) ≤ Real.logb 2 n * (1 + 2 ^ (-51 : ℤ)) := by
  rw [logOfBase_eq hn, if_pos hlt]
  have hlog : 0 ≤ Real.logb 2 n := Real.logb_nonneg one_lt_two (by exact_mod_cast one_le_two.trans hn)
  calc ((Size.ofNat n).log2.value : ℝ) ≤ Real.logb 2 (Size.ofNat n).value * (1 + 2 ^ (-53 : ℤ)) :=
        (Size.proper_ofNat hn).value_log2_le
    _ ≤ Real.logb 2 n * (1 + 2 ^ (-52 : ℤ)) * (1 + 2 ^ (-53 : ℤ)) :=
        mul_le_mul_of_nonneg_right (logb_value_ofNat_le hn) (by positivity)
    _ = Real.logb 2 n * ((1 + 2 ^ (-52 : ℤ)) * (1 + 2 ^ (-53 : ℤ))) := mul_assoc _ _ _
    _ ≤ Real.logb 2 n * (1 + 2 ^ (-51 : ℤ)) := mul_le_mul_of_nonneg_left (by norm_num) hlog

theorem one_le_value_logOfBase (hn : 2 ≤ n) : 1 ≤ (logOfBase n).value := by
  rw [logOfBase_eq hn]
  split
  · exact (Size.proper_ofNat hn).one_le_value_log2
  · rw [← Size.value_ofNat_one]
    exact Size.value_ofNat_mono (Nat.le_add_left 1 _)

theorem Size.mul_rounds {a b : Size} (ha : 0 < a.value) (hb : 0 < b.value) :
    Rounds leastExponent (a.value * b.value) (a.mul b).significand (a.mul b).exponent := by
  have hsignificand (s : Size) (h : 0 < s.value) : 0 < s.significand := by
    refine Nat.pos_of_ne_zero fun h0 => h.ne' ?_
    rw [value, magnitude, h0, Nat.cast_zero, zero_mul]
  have hquotient := unscale_div (a.significand * b.significand) 1 (-(a.exponent + b.exponent))
  have hproduct : a.value * b.value = ((a.significand * b.significand : ℕ) : ℚ) / (1 : ℕ) /
      2 ^ (-(a.exponent + b.exponent)) := by
    rw [value, value, magnitude, magnitude, zpow_neg, div_inv_eq_mul, zpow_add₀ two_ne_zero]
    push_cast
    ring
  rw [hproduct, ← hquotient]
  exact significand_rounds leastExponent (Nat.mul_pos (Nat.mul_pos (hsignificand a ha) (hsignificand b hb))
    (Nat.pow_pos two_pos)) (unscale_pos _ Nat.one_pos)

end Reckoner.PowerSize
