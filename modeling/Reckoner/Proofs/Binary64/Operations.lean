import Reckoner.Proofs.Binary64.Integers

/-! Negation, products and quotients of doubles. The exact product or quotient is rounded once: bits that are
shifted out are remembered as far as rounding needs them, and a carry is shifted out in turn. -/
namespace Reckoner.Binary64
open Float.Model UnpackedFloat

variable {x : Float} {negative negative' : Bool} {m m' k mantissa shift : ℕ} {e e' f exponent : ℤ} {q : ℚ}
  {em : ExtendedMantissa} {accuracy : Accuracy} {b : BitVec Format.binary64.numBits}

theorem toBits_pack (negative : Bool) (h : Canonical m e) :
    (pack negative m e).toBits.toNat = signCode negative + magnitudeCode m e := by
  change (Float.ofBits (signCode negative + min (magnitudeCode m e) infinityCode).toUInt64).toBits.toNat = _
  rw [Nat.min_eq_left h.code_lt.le, toBits_ofBits_code negative h.code_lt.le]

/-- A double is packed from what is viewed of it. -/
theorem eq_pack_of_view (h : view x = .finite negative m e) : x = pack negative m e := by
  rw [eq_iff_toBits, ← UInt64.toNat_inj, toBits_pack negative (canonical_of_view h)]
  have hbits : x.toBits.toNat < 2 ^ 64 := x.toBits.toNat_lt
  unfold view at h
  extract_lets bits sign biased fraction at h
  have hsign : signCode sign = if 2 ^ 63 ≤ x.toBits.toNat then 2 ^ 63 else 0 := by
    simp [sign, bits, signCode]
  have hbiased : biased = x.toBits.toNat / 2 ^ 52 % 2048 := rfl
  have hfraction : fraction = x.toBits.toNat % 2 ^ 52 := rfl
  clear_value sign biased fraction
  unfold magnitudeCode leastNormal leastExponent at *
  split at h
  · split at h <;> cases h
  · split at h
    · obtain ⟨rfl, rfl, rfl⟩ := View.finite.inj h
      rw [hsign]
      split <;> omega
    · obtain ⟨rfl, rfl, rfl⟩ := View.finite.inj h
      rw [hsign]
      split <;> omega

/-- There is one infinite double of each sign. -/
theorem eq_infinity_of_view (h : view x = .infinite negative) : x = infinity negative := by
  have hinfinity : (infinity negative).toBits.toNat = signCode negative + infinityCode :=
    toBits_ofBits_code negative le_rfl
  rw [eq_iff_toBits, ← UInt64.toNat_inj, hinfinity]
  have hbits : x.toBits.toNat < 2 ^ 64 := x.toBits.toNat_lt
  unfold view at h
  extract_lets bits sign biased fraction at h
  have hsign : signCode sign = if 2 ^ 63 ≤ x.toBits.toNat then 2 ^ 63 else 0 := by
    simp [sign, bits, signCode]
  have hbiased : biased = x.toBits.toNat / 2 ^ 52 % 2048 := rfl
  have hfraction : fraction = x.toBits.toNat % 2 ^ 52 := rfl
  clear_value sign biased fraction
  split at h
  · split at h
    · obtain rfl := View.infinite.inj h
      unfold infinityCode leastNormal
      rw [hsign]
      split <;> omega
    · cases h
  · split at h <;> cases h

theorem view_neg (h : view x = .finite negative m e) : view (-x) = .finite (!negative) m e := by
  rw [eq_pack_of_view h, neg_pack, view_pack _ (canonical_of_view h)]

theorem finite_congr {s : Sign} {hm : 0 < m} {hm' : 0 < m'} (hmm' : m = m') (hee' : e = e') :
    UnpackedFloat.finite s m e hm = .finite s m' e' hm' := by
  subst hmm' hee'
  rfl

/-- The bits of a double unpack to its significand and exponent. -/
theorem unpack_of_code (hb : b.toNat = signCode negative + magnitudeCode m e) (h : Canonical m e) (hm : 0 < m) :
    UnpackedFloat.unpack .binary64 b = .finite (signOf negative) m e hm := by
  have hlt := h.code_lt
  have hsign := ofBitVec_unpackSign hb hlt.le
  obtain ⟨hexponent, hmantissa⟩ := toNat_unpack_fields hb hlt.le
  obtain ⟨hones, hnone⟩ := unpackExponent_eq_iff b
  have hempty := unpackMantissa_eq_zero_iff b
  rw [hexponent] at hones hnone
  rw [hmantissa] at hempty
  have hm' := h.lt
  have hnormal := h.normal
  have hleast := h.least_le
  have hle := h.le
  unfold magnitudeCode leastNormal leastExponent at *
  simp only [UnpackedFloat.unpack, hsign, hones, hnone, hempty]
  rw [if_neg (by omega)]
  split
  · rw [dif_neg (by omega)]
    refine finite_congr (by omega) ?_
    rw [hexponent]
    change (_ : ℤ) - (1023 + 52) + 1 = _
    omega
  · refine finite_congr ?_ ?_
    · rw [BitVec.toNat_append, ← Nat.shiftLeft_add_eq_or_of_lt (unpackMantissa b).isLt, hmantissa]
      change 1 <<< 52 + _ = _
      omega
    · rw [hexponent]
      change (_ : ℤ) - (1023 + 52) = _
      omega

theorem unpack_pack_finite (negative : Bool) (h : Canonical m e) (hm : 0 < m) :
    (pack negative m e).toModel.unpack = .finite (signOf negative) m e hm :=
  unpack_of_code (toBits_pack negative h) h hm

theorem unpack_zero_code (negative : Bool) : (zero negative).toModel.unpack = .zero (signOf negative) := by
  cases negative <;> rfl

/-- The double of an unpacked number. -/
def ofUnpacked (u : UnpackedFloat) : Float := ⟨Float.Model.pack u⟩

theorem ofUnpacked_unpack (x : Float) : ofUnpacked x.toModel.unpack = x := Float.ofBits_toBits x

/-- Significands of at most 53 bits are packed in the same way, beyond the greatest double as infinity. -/
theorem ofUnpacked_finite (negative : Bool) (hm : 0 < m) (hlt : m < 2 ^ 53) (hleast : leastExponent ≤ e)
    (hnormal : leastExponent < e → 2 ^ 52 ≤ m) :
    ofUnpacked (.finite (signOf negative) m e hm) = pack negative m e := by
  obtain hle | hgt := le_or_gt e 971
  · rw [← unpack_pack_finite negative ⟨hlt, hleast, hle, hnormal⟩ hm, ofUnpacked_unpack]
  · have hcode : infinityCode ≤ magnitudeCode m e := by
      unfold magnitudeCode infinityCode leastNormal leastExponent at *
      omega
    have hinfinity : pack negative m e = infinity negative :=
      congrArg (fun c => Float.ofBits (signCode negative + c).toUInt64) (Nat.min_eq_right hcode)
    rw [hinfinity, ofUnpacked, Float.Model.pack]
    have hpack : UnpackedFloat.pack .binary64 (.finite (signOf negative) m e hm) =
        UnpackedFloat.pack .binary64 (.infinity (signOf negative)) := by
      refine if_pos ?_
      change 2 ^ 11 ≤ (e + (1023 : ℕ) + (52 : ℕ)).toNat + 1
      omega
    simp only [hpack]
    cases negative <;> rfl

theorem ofUnpacked_nonzero (negative : Bool) (hlt : m < 2 ^ 53) (hleast : leastExponent ≤ e)
    (hnormal : leastExponent < e → 2 ^ 52 ≤ m) :
    ofUnpacked (if h : m = 0 then .zero (signOf negative)
      else .finite (signOf negative) m e (Nat.pos_of_ne_zero h)) = pack negative m e := by
  split
  · next hzero =>
    have he : leastExponent = e := by
      by_contra hne
      have := hnormal (lt_of_le_of_ne hleast hne)
      omega
    rw [hzero, ← he, ← unpack_zero_code, ofUnpacked_unpack, zero]
  · exact ofUnpacked_finite negative _ hlt hleast hnormal

/-- The number that a significand stands for with the bits that were shifted out of it: the first of them,
and whether there was another one. -/
def Represents (em : ExtendedMantissa) (q : ℚ) : Prop :=
  match em.roundBit, em.stickyBit with
  | false, false => q = em.mantissa
  | false, true => em.mantissa < q ∧ q < em.mantissa + 1 / 2
  | true, false => q = em.mantissa + 1 / 2
  | true, true => em.mantissa + 1 / 2 < q ∧ q < em.mantissa + 1

namespace Represents

/-- Without bits behind it the significand is exact, with some it is the whole part. -/
theorem exact_or_between (h : Represents em q) :
    (em.roundBit || em.stickyBit) = false ∧ q = em.mantissa ∨
    (em.roundBit || em.stickyBit) = true ∧ em.mantissa < q ∧ q < em.mantissa + 1 := by
  obtain ⟨m, round, sticky⟩ := em
  cases round <;> cases sticky
  · exact .inl ⟨rfl, h⟩
  · exact .inr ⟨rfl, h.1, h.2.trans (by linarith)⟩
  · have hq : q = m + 1 / 2 := h
    exact .inr ⟨rfl, by dsimp only; linarith, by dsimp only; linarith⟩
  · exact .inr ⟨rfl, lt_trans (by linarith) h.1, h.2⟩

theorem shiftRightOne (h : Represents em q) : Represents em.shiftRightOne (q / 2) := by
  have hsplit : (em.mantissa : ℚ) = 2 * (em.mantissa / 2 : ℕ) + (em.mantissa % 2 : ℕ) :=
    mod_cast (Nat.div_add_mod em.mantissa 2).symm
  unfold Represents ExtendedMantissa.shiftRightOne
  obtain heven | hodd := Nat.mod_two_eq_zero_or_one em.mantissa
  · rw [heven, Nat.cast_zero] at hsplit
    obtain ⟨hbits, hq⟩ | ⟨hbits, hlow, hhigh⟩ := h.exact_or_between
    · simp only [heven, hbits, bne_self_eq_false]
      linarith
    · simp only [heven, hbits, bne_self_eq_false]
      constructor <;> linarith
  · rw [hodd, Nat.cast_one] at hsplit
    obtain ⟨hbits, hq⟩ | ⟨hbits, hlow, hhigh⟩ := h.exact_or_between
    · simp only [hodd, hbits]
      change _ = _
      linarith
    · simp only [hodd, hbits]
      change _ ∧ _
      constructor <;> linarith

theorem shiftRight (h : Represents em q) (n : ℕ) : Represents (em >>> n) (q / 2 ^ n) := by
  change Represents (n.repeat ExtendedMantissa.shiftRightOne em) _
  induction n with
  | zero => rwa [pow_zero, div_one]
  | succ n ih =>
    rw [pow_succ, ← div_div]
    exact ih.shiftRightOne

/-- The bits behind a significand suffice to round it. -/
theorem isNearest (h : Represents em q) : IsNearest q em.roundedMantissa := by
  obtain ⟨m, round, sticky⟩ := em
  have hq : q = m + (q - m) := by ring
  unfold Represents at h
  cases round <;> cases sticky <;> dsimp only at h <;> rw [hq]
  · exact isNearest_down (by linarith) (by linarith) fun _ => by linarith
  · exact isNearest_down (by linarith) (by linarith) fun _ => by linarith
  · change IsNearest _ (m + m % 2)
    obtain heven | hodd := Nat.mod_two_eq_zero_or_one m
    · rw [heven]
      exact isNearest_down (by linarith) (by linarith) fun _ => heven
    · rw [hodd]
      exact isNearest_up (by linarith) (by linarith) fun _ => by omega
  · exact isNearest_up (by linarith) (by linarith) fun _ => by linarith

theorem lt_succ (h : Represents em q) : q < em.mantissa + 1 := by
  obtain ⟨-, hq⟩ | ⟨-, -, hlt⟩ := h.exact_or_between
  · linarith
  · exact hlt

theorem le (h : Represents em q) : em.mantissa ≤ q := by
  obtain ⟨-, hq⟩ | ⟨-, hlt, -⟩ := h.exact_or_between
  · exact hq.ge
  · exact hlt.le

end Represents

theorem targetExponent_eq (t : ℤ) : Format.binary64.targetExponent t = max (t - 53) leastExponent := rfl

theorem shiftToExponent_eq (mantissa : ℕ) (accuracy : Accuracy) (h : exponent ≤ e) :
    shiftToExponent mantissa exponent accuracy e =
      (ExtendedMantissa.ofMantissaAndAccuracy mantissa accuracy >>> (e - exponent).toNat, e) := by
  rw [shiftToExponent, Int.toNat_of_nonneg (sub_nonneg.mpr h), add_sub_cancel]

/-- Only a carry is shifted once more. -/
theorem shift_rounded (hle : m ≤ 2 ^ 53) (hleast : leastExponent ≤ e) :
    shiftToTargetExponent .binary64 m e .exact =
      if m = 2 ^ 53 then (⟨2 ^ 52, false, false⟩, e + 1) else (⟨m, false, false⟩, e) := by
  rw [shiftToTargetExponent, targetExponent_eq, totalExponent]
  split
  · next hcarry =>
    have hlog : m.log2 = 53 := by rw [hcarry, Nat.log2_two_pow]
    have htarget : max (((m.log2 : ℤ) + 1 + e) - 53) leastExponent = e + 1 := by omega
    rw [htarget, shiftToExponent_eq _ _ (by omega), hcarry]
    have hone : (e + 1 - e).toNat = 1 := by omega
    rw [hone]
    rfl
  · next hne =>
    have hlog : m.log2 ≤ 52 := by
      obtain rfl | hm := Nat.eq_zero_or_pos m
      · decide
      · exact Nat.le_of_lt_succ ((Nat.log2_lt hm.ne').mpr (lt_of_le_of_ne hle hne))
    simp only [shiftToExponent]
    have hzero : (max (((m.log2 : ℤ) + 1 + e) - 53) leastExponent - e).toNat = 0 := by omega
    rw [hzero, Nat.cast_zero, add_zero]
    rfl

theorem mantissa_ofMantissaAndAccuracy (mantissa : ℕ) (accuracy : Accuracy) :
    (ExtendedMantissa.ofMantissaAndAccuracy mantissa accuracy).mantissa = mantissa := by
  unfold ExtendedMantissa.ofMantissaAndAccuracy
  split <;> rfl

/-- A significand that is shifted to its target exponent `t` rounds the number that it represents there. -/
theorem Represents.rounds {t : ℤ} (hrep : Represents (.ofMantissaAndAccuracy mantissa accuracy) q)
    (hmantissa : mantissa = 0 → exponent ≤ leastExponent) (hexponent : exponent ≤ t)
    (htarget : max ((mantissa.log2 : ℤ) + 1 + exponent - 53) leastExponent = t) :
    Rounds leastExponent (q * 2 ^ exponent)
      (ExtendedMantissa.ofMantissaAndAccuracy mantissa accuracy >>> (t - exponent).toNat).roundedMantissa t := by
  have hlow := hrep.le
  have hhigh := hrep.lt_succ
  rw [mantissa_ofMantissaAndAccuracy] at hlow hhigh
  have hshift : q / 2 ^ (t - exponent).toNat = q * 2 ^ exponent / 2 ^ t := by
    rw [← zpow_natCast, Int.toNat_of_nonneg (sub_nonneg.mpr hexponent), zpow_sub₀ two_ne_zero, div_div_eq_mul_div]
  -- the target exponent leaves 53 bits before the point, or is the least one
  refine ⟨hshift ▸ (hrep.shiftRight _).isNearest, by omega, ?_, fun hlt => ?_⟩
  · have hlog : ((mantissa + 1 : ℕ) : ℚ) ≤ 2 ^ (mantissa.log2 + 1) := mod_cast Nat.lt_log2_self
    push_cast at hlog
    calc q * 2 ^ exponent < (mantissa + 1) * 2 ^ exponent := mul_lt_mul_of_pos_right hhigh (zpow_pos two_pos _)
      _ ≤ 2 ^ (mantissa.log2 + 1) * 2 ^ exponent := mul_le_mul_of_nonneg_right hlog (zpow_pos two_pos _).le
      _ = 2 ^ ((mantissa.log2 : ℤ) + 1 + exponent) := by
        rw [zpow_add₀ two_ne_zero, zpow_add_one₀ two_ne_zero, pow_succ, zpow_natCast]
      _ ≤ 2 ^ (t + 53) := zpow_le_zpow_right₀ one_le_two (by omega)
  · have hne : mantissa ≠ 0 := by
      rintro rfl
      have := hmantissa rfl
      rw [Nat.log2_zero] at htarget
      omega
    have hlog : (2 : ℚ) ^ mantissa.log2 ≤ mantissa := mod_cast Nat.log2_self_le hne
    calc (2 : ℚ) ^ (t + 52) = 2 ^ ((mantissa.log2 : ℤ) + exponent) := by
          congr 1
          omega
      _ = 2 ^ mantissa.log2 * 2 ^ exponent := by rw [zpow_add₀ two_ne_zero, zpow_natCast]
      _ ≤ q * 2 ^ exponent := mul_le_mul_of_nonneg_right (hlog.trans hlow) (zpow_pos two_pos _).le

/-- A significand that is long enough is rounded as the number that it represents. -/
theorem ofUnpacked_roundWithAccuracy (negative : Bool) (hmantissa : mantissa = 0 → exponent ≤ leastExponent)
    (hrep : Represents (.ofMantissaAndAccuracy mantissa accuracy) q)
    (hexponent : exponent ≤ max ((mantissa.log2 : ℤ) + 1 + exponent - 53) leastExponent)
    (h : Rounds leastExponent (q * 2 ^ exponent) m e) :
    ofUnpacked (roundWithAccuracy .binary64 (signOf negative) mantissa exponent accuracy) = pack negative m e := by
  generalize htarget : max ((mantissa.log2 : ℤ) + 1 + exponent - 53) leastExponent = t at hexponent
  have hfirst : shiftToTargetExponent .binary64 mantissa exponent accuracy =
      (ExtendedMantissa.ofMantissaAndAccuracy mantissa accuracy >>> (t - exponent).toNat, t) := by
    rw [shiftToTargetExponent, targetExponent_eq, totalExponent, htarget, shiftToExponent_eq _ _ hexponent]
  obtain ⟨hm, he⟩ := (hrep.rounds hmantissa hexponent htarget).unique h
  rw [roundWithAccuracy, hfirst]
  dsimp only
  rw [hm, he, shift_rounded h.le_pow h.least_le]
  by_cases hcarry : m = 2 ^ 53
  · simp only [hcarry, if_true]
    rw [pack_carry negative h.least_le]
    exact ofUnpacked_nonzero negative (by decide) (by linarith [h.least_le]) fun _ => le_rfl
  · simp only [if_neg hcarry]
    exact ofUnpacked_nonzero negative (lt_of_le_of_ne h.le_pow hcarry) h.least_le h.pow_le

theorem rounds_zero : Rounds leastExponent 0 0 leastExponent where
  nearest := by
    rw [zero_div]
    exact .natCast 0
  least_le := le_rfl
  lt := zpow_pos two_pos _
  normal h := absurd h (lt_irrefl _)

theorem Canonical.exponent_of_zero (h : Canonical 0 e) : e = leastExponent := by
  by_contra hne
  have := h.normal (lt_of_le_of_ne h.least_le (Ne.symm hne))
  omega

/-- A double unpacks to a zero or to its significand and exponent. -/
theorem unpack_pack_cases (negative : Bool) (h : Canonical m e) :
    m = 0 ∧ (pack negative m e).toModel.unpack = .zero (signOf negative) ∨
    ∃ hm, (pack negative m e).toModel.unpack = .finite (signOf negative) m e hm := by
  obtain rfl | hm := Nat.eq_zero_or_pos m
  · rw [h.exponent_of_zero]
    exact .inl ⟨rfl, unpack_zero_code negative⟩
  · exact .inr ⟨hm, unpack_pack_finite negative h hm⟩

theorem signOf_mul (negative negative' : Bool) :
    signOf negative * signOf negative' = signOf (negative != negative') := by
  cases negative <;> cases negative' <;> rfl

theorem signOf_div (negative negative' : Bool) :
    signOf negative / signOf negative' = signOf (negative != negative') := by
  cases negative <;> cases negative' <;> rfl

theorem pack_of_rounds_zero (negative : Bool) (h : Rounds leastExponent 0 k f) :
    ofUnpacked (.zero (signOf negative)) = pack negative k f := by
  obtain ⟨rfl, rfl⟩ := rounds_zero.unique h
  rw [← unpack_zero_code, ofUnpacked_unpack, zero]

/-- A product of doubles is the exact product, rounded. -/
theorem pack_mul_pack (ha : Canonical m e) (hb : Canonical m' e')
    (h : Rounds leastExponent (magnitude m e * magnitude m' e') k f) :
    pack negative m e * pack negative' m' e' = pack (negative != negative') k f := by
  change ofUnpacked (UnpackedFloat.mul .binary64 (pack negative m e).toModel.unpack
    (pack negative' m' e').toModel.unpack) = _
  have hproduct : magnitude m e * magnitude m' e' = (m * m' : ℕ) * 2 ^ (e + e') := by
    rw [magnitude, magnitude, zpow_add₀ two_ne_zero]
    push_cast
    ring
  rw [hproduct] at h
  obtain ⟨rfl, hu⟩ | ⟨hm, hu⟩ := unpack_pack_cases negative ha
  · rw [Nat.zero_mul, Nat.cast_zero, zero_mul] at h
    rw [← pack_of_rounds_zero _ h, ← signOf_mul, hu]
    obtain ⟨_, hu'⟩ | ⟨_, hu'⟩ := unpack_pack_cases negative' hb <;> rw [hu'] <;> rfl
  · obtain ⟨rfl, hu'⟩ | ⟨hm', hu'⟩ := unpack_pack_cases negative' hb
    · rw [Nat.mul_zero, Nat.cast_zero, zero_mul] at h
      rw [← pack_of_rounds_zero _ h, ← signOf_mul, hu, hu']
      rfl
    · rw [hu, hu', UnpackedFloat.mul, signOf_mul]
      have hpos := Nat.mul_pos hm hm'
      refine ofUnpacked_roundWithAccuracy _ (fun h => absurd h hpos.ne') rfl ?_ h
      obtain ⟨he, he'⟩ | hlong : (e = leastExponent ∧ e' = leastExponent) ∨ 2 ^ 52 ≤ m * m' := by
        obtain hlt | rfl := ha.least_le.lt_or_eq
        · exact .inr ((ha.normal hlt).trans (Nat.le_mul_of_pos_right m hm'))
        · obtain hlt | rfl := hb.least_le.lt_or_eq
          · exact .inr ((hb.normal hlt).trans (Nat.le_mul_of_pos_left m' hm))
          · exact .inl ⟨rfl, rfl⟩
      · rw [leastExponent] at *
        omega
      · have := (Nat.le_log2 hpos.ne').mpr hlong
        omega

/-- The bits of a quotient that are left out are told by the remainder. -/
theorem represents_quotient (num : ℕ) {den : ℕ} (hden : 0 < den) :
    Represents (.ofMantissaAndAccuracy (num / den) (accuracyOfFraction (num % den) den)) (num / den) := by
  have hd : (0 : ℚ) < den := mod_cast hden
  have hsplit : (num : ℚ) = den * (num / den : ℕ) + (num % den : ℕ) := mod_cast (Nat.div_add_mod num den).symm
  have hlt : ((num % den : ℕ) : ℚ) < den := mod_cast Nat.mod_lt num hden
  rw [accuracyOfFraction]
  generalize (num / den : ℕ) = quotient at *
  generalize num % den = rest at *
  split
  · next hzero =>
    rw [hzero, Nat.cast_zero, add_zero] at hsplit
    exact (div_eq_iff hd.ne').mpr (hsplit.trans (mul_comm _ _))
  · next hpos =>
    have hrest : (0 : ℚ) < rest := mod_cast Nat.pos_of_ne_zero hpos
    have hdiv : (num / den : ℚ) = quotient + rest / den := by
      rw [hsplit, add_div, mul_div_cancel_left₀ _ hd.ne']
    obtain hbelow | hhalf | habove := lt_trichotomy (2 * rest) den
    · rw [Nat.compare_eq_lt.mpr hbelow]
      have hfraction : (rest / den : ℚ) < 1 / 2 := by
        have : (2 * rest : ℚ) < den := mod_cast hbelow
        rw [div_lt_div_iff₀ hd two_pos]
        linarith
      change _ < _ ∧ _ < _
      rw [hdiv]
      exact ⟨lt_add_of_pos_right _ (div_pos hrest hd), add_lt_add_right hfraction _⟩
    · rw [Nat.compare_eq_eq.mpr hhalf]
      have hfraction : (rest / den : ℚ) = 1 / 2 := by
        have : (2 * rest : ℚ) = den := mod_cast hhalf
        rw [div_eq_div_iff hd.ne' two_ne_zero]
        linarith
      change _ = _
      rw [hdiv, hfraction]
      rfl
    · rw [Nat.compare_eq_gt.mpr habove]
      have hfraction : (1 / 2 : ℚ) < rest / den := by
        have : (den : ℚ) < 2 * rest := mod_cast habove
        rw [div_lt_div_iff₀ two_pos hd]
        linarith
      change _ < _ ∧ _ < _
      rw [hdiv]
      exact ⟨add_lt_add_right hfraction _, add_lt_add_right ((div_lt_one hd).mpr hlt) _⟩

/-- A dividend that is shifted far enough has a long quotient. -/
theorem pow_le_quotient (hm : 0 < m) (hm' : 0 < m') (h : m'.log2 + 53 ≤ m.log2 + shift) :
    2 ^ 52 ≤ m * 2 ^ shift / m' := by
  rw [Nat.le_div_iff_mul_le hm']
  calc 2 ^ 52 * m' ≤ 2 ^ 52 * 2 ^ (m'.log2 + 1) := Nat.mul_le_mul_left _ Nat.lt_log2_self.le
    _ = 2 ^ (m'.log2 + 53) := by
      rw [← pow_add]
      congr 1
      omega
    _ ≤ 2 ^ (m.log2 + shift) := Nat.pow_le_pow_right two_pos h
    _ = 2 ^ m.log2 * 2 ^ shift := pow_add 2 _ _
    _ ≤ m * 2 ^ shift := Nat.mul_le_mul_right _ (Nat.log2_self_le hm.ne')

/-- A quotient of doubles is the exact quotient, rounded. -/
theorem pack_div_pack (ha : Canonical m e) (hb : Canonical m' e') (hm' : 0 < m')
    (h : Rounds leastExponent (magnitude m e / magnitude m' e') k f) :
    pack negative m e / pack negative' m' e' = pack (negative != negative') k f := by
  change ofUnpacked (UnpackedFloat.div .binary64 (pack negative m e).toModel.unpack
    (pack negative' m' e').toModel.unpack) = _
  rw [unpack_pack_finite negative' hb hm']
  obtain ⟨rfl, hu⟩ | ⟨hm, hu⟩ := unpack_pack_cases negative ha
  · rw [magnitude, Nat.cast_zero, zero_mul, zero_div] at h
    rw [← pack_of_rounds_zero _ h, ← signOf_div, hu]
    rfl
  · rw [hu, UnpackedFloat.div, signOf_div, divCore]
    have htotal : totalExponent m e - totalExponent m' e' - 53 = m.log2 - m'.log2 + (e - e') - 53 := by
      rw [totalExponent, totalExponent]
      ring
    simp only [targetExponent_eq, htotal, Nat.shiftLeft_eq]
    generalize htarget : min (e - e') (max _ _) = t
    generalize hshift : (e - e' - t).toNat = shift
    have hvalue : magnitude m e / magnitude m' e' = (m * 2 ^ shift : ℕ) / m' * 2 ^ t := by
      have hexponent : e - e' = shift + t := by omega
      rw [magnitude, magnitude, mul_div_mul_comm, ← zpow_sub₀ two_ne_zero, hexponent, zpow_add₀ two_ne_zero]
      push_cast
      rw [zpow_natCast]
      ring
    rw [hvalue] at h
    obtain hle | hlt := le_or_gt t leastExponent
    · exact ofUnpacked_roundWithAccuracy _ (fun _ => hle) (represents_quotient _ hm') (le_max_of_le_right hle) h
    · have hlong : 2 ^ 52 ≤ m * 2 ^ shift / m' := pow_le_quotient hm hm' (by omega)
      have hpos : 0 < m * 2 ^ shift / m' := lt_of_lt_of_le (by decide) hlong
      have hlog := (Nat.le_log2 hpos.ne').mpr hlong
      exact ofUnpacked_roundWithAccuracy _ (fun h => absurd h hpos.ne') (represents_quotient _ hm')
        (le_max_of_le_left (by omega)) h

end Reckoner.Binary64
