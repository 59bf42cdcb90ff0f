import Reckoner.Proofs.Number.Integers
import Reckoner.Proofs.Number.Logarithm

/-! Powers of integers. A result is the power itself or an overflow, and the power only if the width allows it.
The estimate made before a power is computed may refuse powers that the width allows: bases beyond the doubles
count with all their bits instead of their logarithm, and a logarithm may be rounded up. -/
namespace Reckoner
open Binary64 (beyond Rounds leastExponent)

namespace PowerSize

variable {base exponent : ℕ} {bits : UInt64}

theorem value_exponent_pos (hexponent : 0 < exponent) : 0 < (Size.ofNat exponent).value :=
  one_pos.trans_le (Size.value_ofNat_one ▸ Size.value_ofNat_mono hexponent)

/-- What the estimate is rounded from. -/
theorem mul_logOfBase_rounds (hbase : 2 ≤ base) (hexponent : 0 < exponent) :
    Rounds leastExponent ((Size.ofNat exponent).value * (logOfBase base).value)
      ((Size.ofNat exponent).mul (logOfBase base)).significand
      ((Size.ofNat exponent).mul (logOfBase base)).exponent :=
  Size.mul_rounds (value_exponent_pos hexponent) (one_pos.trans_le (one_le_value_logOfBase hbase))

/-- The estimate does not round past a width. -/
theorem not_exceeds (hbase : 2 ≤ base) (hexponent : 0 < exponent) (hexact : exponent ≤ 2 ^ 53)
    (hbits : 0 < bits.toNat) (h : exponent * (logOfBase base).value ≤ bits.toNat) :
    ¬ exceeds base exponent bits := by
  rw [exceeds, Size.lt_iff, not_lt]
  refine (mul_logOfBase_rounds hbase hexponent).mono (Size.ofNat_rounds hbits) ?_
  rwa [Size.value_ofNat hexact]

/-- No base counts with more than its bits. -/
theorem not_exceeds_of_width (hbase : 2 ≤ base) (hexponent : 0 < exponent) (hexact : exponent ≤ 2 ^ 53)
    (hwidth : base.log2 + 1 ≤ 2 ^ 53) (h : exponent * (base.log2 + 1) ≤ bits.toNat) :
    ¬ exceeds base exponent bits := by
  have hbits : 0 < bits.toNat := (Nat.mul_pos hexponent (Nat.succ_pos _)).trans_le h
  refine not_exceeds hbase hexponent hexact hbits ?_
  calc exponent * (logOfBase base).value ≤ exponent * (Size.ofNat (base.log2 + 1)).value := by
        gcongr
        exact value_logOfBase_le_width hbase
    _ = (exponent * (base.log2 + 1) : ℕ) := by rw [Size.value_ofNat hwidth, Nat.cast_mul]
    _ ≤ bits.toNat := by exact_mod_cast h

/-- What a logarithm is rounded up is made up for by one part in `2 ^ 51` of the width. -/
theorem not_exceeds_of_logb (hbase : 2 ≤ base) (hlt : base < beyond) (hexponent : 0 < exponent)
    (hexact : exponent ≤ 2 ^ 53) (hbits : 0 < bits.toNat)
    (h : exponent * Real.logb 2 base ≤ bits.toNat * (1 - 2 ^ (-51 : ℤ))) : ¬ exceeds base exponent bits := by
  refine not_exceeds hbase hexponent hexact hbits ?_
  have hreal : (exponent * (logOfBase base).value : ℝ) ≤ bits.toNat := by
    calc (exponent * (logOfBase base).value : ℝ) ≤ exponent * (Real.logb 2 base * (1 + 2 ^ (-51 : ℤ))) :=
          mul_le_mul_of_nonneg_left (value_logOfBase_le hbase hlt) (Nat.cast_nonneg _)
      _ = exponent * Real.logb 2 base * (1 + 2 ^ (-51 : ℤ)) := (mul_assoc _ _ _).symm
      _ ≤ bits.toNat * (1 - 2 ^ (-51 : ℤ)) * (1 + 2 ^ (-51 : ℤ)) := mul_le_mul_of_nonneg_right h (by positivity)
      _ = bits.toNat * ((1 - 2 ^ (-51 : ℤ)) * (1 + 2 ^ (-51 : ℤ))) := mul_assoc _ _ _
      _ ≤ bits.toNat * 1 := mul_le_mul_of_nonneg_left (by norm_num) (Nat.cast_nonneg _)
      _ = bits.toNat := mul_one _
  exact_mod_cast hreal

/-- Bases beyond the doubles count with all their bits. -/
theorem exceeds_of_beyond (hle : beyond ≤ base) (hexact : exponent ≤ 2 ^ 53) (hbits : bits.toNat < 2 ^ 53)
    (h : bits.toNat < exponent * (base.log2 + 1)) : exceeds base exponent bits := by
  have hbase : 2 ≤ base := le_trans (by decide +kernel) hle
  have hexponent : 0 < exponent := Nat.pos_of_mul_pos_right (Nat.zero_lt_of_lt h)
  have hproduct : ((bits.toNat + 1 : ℕ) : ℚ) ≤ (Size.ofNat exponent).value * (logOfBase base).value := by
    rw [logOfBase_eq hbase, if_neg (Nat.not_lt.mpr hle), Size.value_ofNat hexact]
    -- a width of more than 53 bits may be rounded, but not below the allowed one
    obtain hwidth | hwidth := le_or_gt (base.log2 + 1) (2 ^ 53)
    · rw [Size.value_ofNat hwidth]
      exact_mod_cast h
    · calc ((bits.toNat + 1 : ℕ) : ℚ) ≤ (2 ^ 53 : ℕ) := by exact_mod_cast hbits
        _ ≤ (Size.ofNat (base.log2 + 1)).value := Size.le_value_ofNat le_rfl hwidth.le
        _ ≤ exponent * (Size.ofNat (base.log2 + 1)).value :=
            le_mul_of_one_le_left (Size.value_nonneg _) (by exact_mod_cast hexponent)
  have hmono := (Size.ofNat_rounds (Nat.succ_pos _)).mono (mul_logOfBase_rounds hbase hexponent) hproduct
  rw [exceeds, Size.lt_iff]
  calc (Size.ofNat bits.toNat).value = bits.toNat := Size.value_ofNat hbits.le
    _ < (bits.toNat + 1 : ℕ) := by exact_mod_cast Nat.lt_succ_self _
    _ = (Size.ofNat (bits.toNat + 1)).value := (Size.value_ofNat hbits).symm
    _ ≤ ((Size.ofNat exponent).mul (logOfBase base)).value := hmono

end PowerSize

namespace Number
open PowerSize

/-- Powers that may be refused although a width of `bits` allows them: those with exponents of more than 32 bits,
those of bases beyond the doubles, which count with all their bits, and those with a logarithm so near to the
width that rounding it may exceed the width. -/
inductive Overestimated (b : Int) (e bits : ℕ) : Prop
  | greatExponent (hbase : 2 ≤ b.natAbs) (h : 2 ^ 32 ≤ e)
  | greatBase (hbase : beyond ≤ b.natAbs) (h : bits < e * bitLength b ∨ 2 ^ 53 < bitLength b)
  | logarithm (hbase : b.natAbs < beyond) (hwidth : bits < e * bitLength b)
      (h : bits * (1 - 2 ^ (-51 : ℤ)) < e * Real.logb 2 b.natAbs)

variable {bits : UInt64} {b : Int} {e : ℕ}

theorem bitLength_of_two_le (hb : 2 ≤ b.natAbs) : bitLength b = b.natAbs.log2 + 1 :=
  if_neg (Int.natAbs_ne_zero.mp (by omega))

theorem binary_pow (bits : UInt64) (b : Int) (e : ℕ) : binary .pow (.int b) (.int e) bits = intPow bits b e := by
  unfold binary pow
  dsimp only
  rw [if_pos (Int.natCast_nonneg e), Int.toNat_natCast]

/-- Bases of magnitude below two are no wider than one bit, and neither are their powers. -/
theorem bitLength_pow_le_one (h : e = 0 ∨ b.natAbs ≤ 1) : bitLength (b ^ e) ≤ 1 := by
  rw [bitLength_le_iff, Int.natAbs_pow, pow_one, Nat.lt_succ_iff]
  obtain rfl | hb := h
  · exact (pow_zero _).le
  · exact pow_le_one₀ (Nat.zero_le _) hb

theorem intPow_small (h : e = 0 ∨ b.natAbs ≤ 1) : intPow bits b e = .ok (.int (b ^ e)) := by
  rw [intPow_eq]
  split
  · next he => rw [he, pow_zero]
  · next he =>
    have hb := h.resolve_left he
    split
    · next hunit =>
      obtain rfl | rfl := hunit
      · rw [zero_pow he]
      · rw [one_pow]
    · next hunit =>
      have hneg : b = -1 := by omega
      rw [if_pos hneg, hneg]
      obtain heven | hodd := Nat.even_or_odd e
      · rw [heven.neg_one_pow, if_neg (by rw [Nat.even_iff.mp heven]; decide)]
      · rw [hodd.neg_one_pow, if_pos (Nat.odd_iff.mp hodd)]

theorem intPow_large (he : e ≠ 0) (hb : 2 ≤ b.natAbs) : intPow bits b e =
    if exceeds b.natAbs e bits ∨ 2 ^ 32 ≤ e then .error (.overflow (.integerWidth bits))
    else ofIntWithin bits (b ^ e) := by
  rw [intPow_eq, if_neg he, if_neg (by omega), if_neg (by omega)]
  rfl

theorem intPow_ok_or_overflow (hbits : 1 ≤ bits.toNat) (b : Int) (e : ℕ) :
    intPow bits b e = .ok (.int (b ^ e)) ∧ bitLength (b ^ e) ≤ bits.toNat ∨
    intPow bits b e = .error (.overflow (.integerWidth bits)) := by
  by_cases hsmall : e = 0 ∨ b.natAbs ≤ 1
  · exact .inl ⟨intPow_small hsmall, (bitLength_pow_le_one hsmall).trans hbits⟩
  · obtain ⟨he, hb⟩ := not_or.mp hsmall
    rw [intPow_large he (not_le.mp hb)]
    split
    · exact .inr rfl
    · obtain hle | hlt := le_or_gt (bitLength (b ^ e)) bits.toNat
      · exact .inl ⟨(ofIntWithin_exact bits _).ok hle, hle⟩
      · exact .inr ((ofIntWithin_exact bits _).overflow hlt)

theorem not_exceeds_of_not_overestimated (hbits : 1 ≤ bits.toNat) (he : e ≠ 0) (hb : 2 ≤ b.natAbs)
    (h : ¬ Overestimated b e bits.toNat) : ¬ exceeds b.natAbs e bits := by
  have hpos : 0 < e := Nat.pos_of_ne_zero he
  have hexact : e ≤ 2 ^ 53 := by
    have : e < 2 ^ 32 := not_le.mp fun hle => h (.greatExponent hb hle)
    omega
  have hlength := bitLength_of_two_le hb
  obtain hlt | hle := lt_or_ge b.natAbs beyond
  -- just below a power of two the logarithm leaves no room for rounding, but there the width is enough
  · by_cases hwidth : e * bitLength b ≤ bits.toNat
    · refine not_exceeds_of_width hb hpos hexact ?_ (hlength ▸ hwidth)
      have hdoubles : bitLength b ≤ 1024 := bitLength_le_iff.mpr (hlt.trans_le (by decide +kernel))
      omega
    · exact not_exceeds_of_logb hb hlt hpos hexact hbits
        (not_lt.mp fun hlog => h (.logarithm hlt (not_le.mp hwidth) hlog))
  · obtain ⟨hwidth, hbase⟩ := not_or.mp fun hgreat => h (.greatBase hle hgreat)
    exact not_exceeds_of_width hb hpos hexact (hlength ▸ not_lt.mp hbase) (hlength ▸ not_lt.mp hwidth)

theorem intPow_exact (hbits : 1 ≤ bits.toNat) (h : ¬ Overestimated b e bits.toNat) :
    ExactWithin bits (b ^ e) (intPow bits b e) := by
  by_cases hsmall : e = 0 ∨ b.natAbs ≤ 1
  · have hle := (bitLength_pow_le_one hsmall).trans hbits
    exact ⟨fun _ => intPow_small hsmall, fun hlt => absurd hle (not_le.mpr hlt)⟩
  · obtain ⟨he, hb⟩ := not_or.mp hsmall
    have hbase : 2 ≤ b.natAbs := not_le.mp hb
    rw [intPow_large he hbase, if_neg (not_or.mpr ⟨not_exceeds_of_not_overestimated hbits he hbase h,
      fun hle => h (.greatExponent hbase hle)⟩)]
    exact ofIntWithin_exact bits _

theorem intPow_greatExponent (hb : 2 ≤ b.natAbs) (he : 2 ^ 32 ≤ e) :
    intPow bits b e = .error (.overflow (.integerWidth bits)) := by
  rw [intPow_large (by omega) hb, if_pos (.inr he)]

theorem intPow_greatBase (hb : beyond ≤ b.natAbs) (hbits : bits.toNat < 2 ^ 53)
    (h : bits.toNat < e * bitLength b) : intPow bits b e = .error (.overflow (.integerWidth bits)) := by
  have hbase : 2 ≤ b.natAbs := le_trans (by decide +kernel) hb
  obtain he | he := le_or_gt (2 ^ 32) e
  · exact intPow_greatExponent hbase he
  · have hne : e ≠ 0 := by
      rintro rfl
      rw [Nat.zero_mul] at h
      exact Nat.not_lt_zero _ h
    rw [bitLength_of_two_le hbase] at h
    rw [intPow_large hne hbase, if_pos (.inl (exceeds_of_beyond hb (by omega) hbits h))]

/-- A power is itself within the width, or an overflow. It overflows only if it is too wide unless it may be
overestimated; exponents of more than 32 bits always overflow, and bases beyond the doubles do as soon as the
exponent times their width is above the allowed one. -/
theorem integer_powers_exact_unless_overestimated (bits : UInt64) (hbits : 1 ≤ bits.toNat) (b : Int) (e : ℕ) :
    (binary .pow (.int b) (.int e) bits = .ok (.int (b ^ e)) ∧ bitLength (b ^ e) ≤ bits.toNat ∨
      binary .pow (.int b) (.int e) bits = .error (.overflow (.integerWidth bits))) ∧
    (¬ Overestimated b e bits.toNat → ExactWithin bits (b ^ e) (binary .pow (.int b) (.int e) bits)) ∧
    (2 ≤ b.natAbs → 2 ^ 32 ≤ e →
      binary .pow (.int b) (.int e) bits = .error (.overflow (.integerWidth bits))) ∧
    (beyond ≤ b.natAbs → bits.toNat < 2 ^ 53 → bits.toNat < e * bitLength b →
      binary .pow (.int b) (.int e) bits = .error (.overflow (.integerWidth bits))) := by
  rw [binary_pow]
  exact ⟨intPow_ok_or_overflow hbits b e, intPow_exact hbits, intPow_greatExponent, intPow_greatBase⟩

/-- Within eight bits, three to the fourth is itself, and its square overflows. -/
theorem powers_of_three_within_eight_bits : 1 ≤ (8 : UInt64).toNat ∧ ¬ Overestimated 3 4 8 ∧
    binary .pow (.int 3) (.int 4) 8 = .ok (.int 81) ∧
    binary .pow (.int 3) (.int 8) 8 = .error (.overflow (.integerWidth 8)) := by
  have hbits : 1 ≤ (8 : UInt64).toNat := by decide
  have hestimate : ¬ Overestimated 3 4 8 := by
    rintro (⟨-, h⟩ | ⟨h, -⟩ | ⟨-, h, -⟩)
    · exact absurd h (by decide)
    · exact absurd h (by decide +kernel)
    · exact absurd h (by decide)
  obtain ⟨-, hexact, -⟩ := integer_powers_exact_unless_overestimated 8 hbits 3 4
  obtain ⟨hwide | hwide, -⟩ := integer_powers_exact_unless_overestimated 8 hbits 3 8
  · exact absurd hwide.2 (by decide)
  · exact ⟨hbits, hestimate, (hexact hestimate).ok (by decide), hwide⟩

/-- The square of a power of two beyond the doubles has as many bits as are allowed and overflows. -/
theorem power_within_width_refused : ¬ ∀ (bits : UInt64) (b : Int) (e : ℕ), 1 ≤ bits.toNat →
    ExactWithin bits (b ^ e) (binary .pow (.int b) (.int e) bits) := by
  intro h
  have hok := (h 2049 (2 ^ 1024) 2 (by decide)).ok (by rw [bitLength_le_iff]; decide +kernel)
  rw [binary_pow, intPow_greatBase (by decide +kernel) (by decide) (by decide +kernel)] at hok
  cases hok

end Number
end Reckoner
