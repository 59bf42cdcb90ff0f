import Reckoner.Proofs.Binary64.Nearest

/-! Integers as doubles: which of them have one, and that only zero becomes zero and that the sign is kept. -/
namespace Reckoner.Binary64
open Float.Model UnpackedFloat

variable {x y : Float} {negative : Bool} {code n m : ℕ} {e : ℤ} {q : ℚ}

/-- The least integer that no double is near to: halfway between the greatest double and the next power of
two. -/
def beyond : ℕ := 2 ^ 1024 - 2 ^ 970

theorem eq_iff_toBits : x = y ↔ x.toBits = y.toBits := by
  obtain ⟨⟨b, hb⟩⟩ := x
  obtain ⟨⟨c, hc⟩⟩ := y
  constructor
  · intro h
    rw [h]
  · intro h
    have hbits : b = c := h
    subst hbits
    rfl

/-- The two doubles that are equal to zero. -/
theorem beq_zero_iff : (x == 0.0) = true ↔ x = 0.0 ∨ x = -0.0 := by
  have hzero : (0.0 : Float).toModel.toBits.toBitVec = packedZero .binary64 .positive := by decide
  have hneg : (-0.0 : Float).toModel.toBits.toBitVec = packedZero .binary64 .negative := by decide
  have hnan : packedZero .binary64 .positive ≠ packedNaN .binary64 := by decide
  have hnan' : packedZero .binary64 .negative ≠ packedNaN .binary64 := by decide
  have hbits (y : Float) : x = y ↔ x.toModel.toBits.toBitVec = y.toModel.toBits.toBitVec := by
    rw [eq_iff_toBits, ← UInt64.toBitVec_inj]
    rfl
  change (UnpackedFloat.unpack .binary64 x.toModel.toBits.toBitVec).beq
    (UnpackedFloat.unpack .binary64 (0.0 : Float).toModel.toBits.toBitVec) = true ↔ _
  rw [unpack_beq_unpack_iff x.toModel.valid (0.0 : Float).toModel.valid, hbits, hbits, hzero, hneg]
  constructor
  · rintro ⟨-, -, h | ⟨h, -⟩ | ⟨h, -⟩⟩
    · exact .inl h
    · exact .inl h
    · exact .inr h
  · rintro (h | h)
    · exact ⟨h ▸ hnan, hnan, .inl h⟩
    · exact ⟨h ▸ hnan', hnan, .inr (.inr ⟨h, rfl⟩)⟩

/-- The sign as it is unpacked. -/
def signOf (negative : Bool) : Sign := if negative then .negative else .positive

/-- A double unpacks by its code: zero, infinity, or a number in between. -/
inductive Unpacks (negative : Bool) (code : ℕ) (u : UnpackedFloat) : Prop
  | zero (h : code = 0) (hu : u = .zero (signOf negative))
  | infinity (h : code = infinityCode) (hu : u = .infinity (signOf negative))
  | finite {m : ℕ} {e : ℤ} (h : 0 < code) (hlt : code < infinityCode) (hm : 0 < m)
    (hu : u = .finite (signOf negative) m e hm)

theorem ofBitVec_unpackSign {b : BitVec Format.binary64.numBits} (hb : b.toNat = signCode negative + code)
    (h : code ≤ infinityCode) : Sign.ofBitVec (unpackSign b) = signOf negative := by
  have hcode : infinityCode = 2047 * 2 ^ 52 := rfl
  have hsign := toNat_unpackSign b
  rw [hb] at hsign
  cases negative with
  | false =>
    have hzero : unpackSign b = 0#1 := by
      rw [← BitVec.toNat_inj, hsign, signCode]
      simp
      omega
    rw [hzero]
    rfl
  | true =>
    have hone : unpackSign b = 1#1 := by
      rw [← BitVec.toNat_inj, hsign, signCode]
      simp
      omega
    rw [hone]
    rfl

/-- The sign lies above every code, so the other two fields are those of the code. -/
theorem toNat_unpack_fields {b : BitVec Format.binary64.numBits} (hb : b.toNat = signCode negative + code)
    (h : code ≤ infinityCode) :
    (unpackExponent b).toNat = code / 2 ^ 52 ∧ (unpackMantissa b).toNat = code % 2 ^ 52 := by
  have hcode : infinityCode = 2047 * 2 ^ 52 := rfl
  have htrue : signCode true = 2 ^ 63 := rfl
  have hfalse : signCode false = 0 := rfl
  rw [toNat_unpackExponent, toNat_unpackMantissa, hb]
  cases negative <;> omega

theorem unpackExponent_eq_iff (b : BitVec Format.binary64.numBits) :
    (unpackExponent b = -BitVec.ofNat Format.binary64.exponentBits 1 ↔ (unpackExponent b).toNat = 2047) ∧
    (unpackExponent b = BitVec.ofNat Format.binary64.exponentBits 0 ↔ (unpackExponent b).toNat = 0) := by
  rw [← BitVec.toNat_inj, ← BitVec.toNat_inj]
  exact ⟨Iff.rfl, Iff.rfl⟩

theorem unpackMantissa_eq_zero_iff (b : BitVec Format.binary64.numBits) :
    unpackMantissa b = BitVec.ofNat Format.binary64.mantissaBitsWithoutImplicit 0 ↔
      (unpackMantissa b).toNat = 0 := by
  rw [← BitVec.toNat_inj]
  rfl

theorem unpacks_bits {b : BitVec Format.binary64.numBits} (hb : b.toNat = signCode negative + code)
    (h : code ≤ infinityCode) : Unpacks negative code (UnpackedFloat.unpack .binary64 b) := by
  have hcode : infinityCode = 2047 * 2 ^ 52 := rfl
  obtain ⟨hexponent, hmantissa⟩ := toNat_unpack_fields hb h
  obtain ⟨hones, hnone⟩ := unpackExponent_eq_iff b
  have hempty := unpackMantissa_eq_zero_iff b
  rw [hexponent] at hones hnone
  rw [hmantissa] at hempty
  simp only [UnpackedFloat.unpack, ofBitVec_unpackSign hb h, hones, hnone, hempty]
  split
  · rw [if_pos (by omega)]
    exact .infinity (by omega) rfl
  · split
    · split
      · exact .zero (by omega) rfl
      · exact .finite (by omega) (by omega) _ rfl
    · exact .finite (by omega) (by omega) _ rfl

theorem unpacks_ofBits (negative : Bool) (h : code ≤ infinityCode) :
    Unpacks negative code (Float.ofBits (signCode negative + code).toUInt64).toModel.unpack :=
  unpacks_bits (toBits_ofBits_code negative h) h

theorem unpack_zero : (0.0 : Float).toModel.unpack = .zero .positive := rfl

theorem isFinite_ofBits_iff (negative : Bool) (h : code ≤ infinityCode) :
    (Float.ofBits (signCode negative + code).toUInt64).isFinite = true ↔ code < infinityCode := by
  change UnpackedFloat.isFinite _ = true ↔ _
  cases unpacks_ofBits negative h with
  | zero hzero hu =>
    rw [hu, hzero]
    exact iff_of_true rfl (by decide)
  | infinity hinf hu =>
    rw [hu, hinf]
    exact iff_of_false (by simp [UnpackedFloat.isFinite]) (lt_irrefl _)
  | finite _ hlt _ hu =>
    rw [hu]
    exact iff_of_true rfl hlt

theorem lt_zero_ofBits_iff (negative : Bool) (h : code ≤ infinityCode) :
    Float.ofBits (signCode negative + code).toUInt64 < 0.0 ↔ negative = true ∧ 0 < code := by
  change decide (_ < _) = true ↔ _
  rw [decide_eq_true_iff]
  change UnpackedFloat.lt _ _ = true ↔ _
  rw [unpack_zero]
  cases unpacks_ofBits negative h with
  | zero h0 hu =>
    rw [hu, h0]
    cases negative <;> simp [UnpackedFloat.lt, UnpackedFloat.compare]
  | infinity hinf hu =>
    rw [hu, hinf]
    cases negative <;> simp [UnpackedFloat.lt, UnpackedFloat.compare, signOf, infinityCode, leastNormal]
  | finite hpos _ _ hu =>
    rw [hu]
    cases negative <;> simp [UnpackedFloat.lt, UnpackedFloat.compare, signOf, hpos]

theorem beq_zero_ofBits_iff (negative : Bool) (h : code ≤ infinityCode) :
    (Float.ofBits (signCode negative + code).toUInt64 == 0.0) = true ↔ code = 0 := by
  change UnpackedFloat.beq _ _ = true ↔ _
  rw [unpack_zero]
  cases unpacks_ofBits negative h with
  | zero h0 hu =>
    rw [hu, h0]
    simp [UnpackedFloat.beq, UnpackedFloat.compare]
  | infinity hinf hu =>
    rw [hu, hinf]
    cases negative <;> simp [UnpackedFloat.beq, UnpackedFloat.compare, signOf, infinityCode, leastNormal]
  | finite hpos _ _ hu =>
    rw [hu]
    cases negative <;> simp [UnpackedFloat.beq, UnpackedFloat.compare, signOf, hpos.ne']

/-- Rounded quotients below the first power of two past the doubles are those with a code of a double. -/
theorem Rounds.magnitude_lt_iff (h : Rounds leastExponent q m e) :
    magnitude m e < 2 ^ (1024 : ℤ) ↔ magnitudeCode m e < infinityCode := by
  have hm := h.le_pow
  have hpow := h.pow_le
  have hleast := h.least_le
  have hcode : magnitudeCode m e < infinityCode ↔ e < 971 ∨ e = 971 ∧ m < 2 ^ 53 := by
    unfold magnitudeCode infinityCode leastNormal leastExponent at *
    omega
  rw [hcode]
  obtain hlt | rfl | hgt := lt_trichotomy e 971
  · refine iff_of_true ?_ (.inl hlt)
    calc magnitude m e ≤ magnitude (2 ^ 53) e := magnitude_mono hm e
      _ = 2 ^ (e + (53 : ℕ)) := magnitude_pow 53 e
      _ < 2 ^ (1024 : ℤ) := zpow_lt_zpow_right₀ one_lt_two (by omega)
  · have hgreatest : (2 : ℚ) ^ (1024 : ℤ) = 2 ^ 53 * 2 ^ (971 : ℤ) := by
      rw [← zpow_natCast, ← zpow_add₀ two_ne_zero]
      rfl
    rw [hgreatest, magnitude, mul_lt_mul_iff_left₀ (zpow_pos two_pos _)]
    have hcast : (m : ℚ) < 2 ^ 53 ↔ m < 2 ^ 53 := by exact_mod_cast Iff.rfl
    rw [hcast]
    omega
  · refine iff_of_false (not_lt.mpr ?_) (by omega)
    calc (2 : ℚ) ^ (1024 : ℤ) ≤ 2 ^ (e + (52 : ℕ)) := zpow_le_zpow_right₀ one_le_two (by omega)
      _ = magnitude (2 ^ 52) e := (magnitude_pow 52 e).symm
      _ ≤ magnitude m e := magnitude_mono (hpow (by unfold leastExponent; omega)) e

/-- What a natural number rounds to. -/
def rounded (n : ℕ) : ℚ := magnitude (significand leastExponent n 1).1 (significand leastExponent n 1).2

theorem rounds_natCast (hn : 0 < n) : Rounds leastExponent n (significand leastExponent n 1).1
    (significand leastExponent n 1).2 := by
  have h := significand_rounds leastExponent hn Nat.one_pos
  rwa [Nat.cast_one, div_one] at h

theorem rounded_mono {k : ℕ} (hk : 0 < k) (h : k ≤ n) : rounded k ≤ rounded n :=
  (rounds_natCast hk).mono (rounds_natCast (hk.trans_le h)) (mod_cast h)

theorem significand_beyond : significand leastExponent beyond 1 = (2 ^ 53, 971) := by decide +kernel

theorem significand_before_beyond : significand leastExponent (beyond - 1) 1 = (2 ^ 53 - 1, 971) := by
  decide +kernel

/-- From the middle above the greatest double on, natural numbers round beyond the doubles. -/
theorem rounded_lt_iff (hn : 0 < n) : rounded n < 2 ^ (1024 : ℤ) ↔ n < beyond := by
  constructor
  · intro h
    by_contra! hle
    have hmono := rounded_mono (by decide +kernel) hle
    have hbeyond : rounded beyond = 2 ^ (1024 : ℤ) := by
      rw [rounded, significand_beyond]
      exact magnitude_pow 53 971
    rw [hbeyond] at hmono
    exact absurd h (not_lt.mpr hmono)
  · intro h
    have hmono := rounded_mono hn (Nat.le_sub_one_of_lt h)
    have hbefore : rounded (beyond - 1) = greatest := by
      rw [rounded, significand_before_beyond]
      rfl
    rw [hbefore] at hmono
    exact hmono.trans_lt greatest_lt

/-- The code of the double next to a natural number. -/
def natCode (n : ℕ) : ℕ :=
  if n = 0 then 0
  else min (magnitudeCode (significand leastExponent n 1).1 (significand leastExponent n 1).2) infinityCode

theorem nearest_eq_ofBits (negative : Bool) (n : ℕ) :
    nearest negative n 1 = Float.ofBits (signCode negative + natCode n).toUInt64 := by
  unfold nearest natCode
  split
  · rfl
  · rfl

theorem natCode_le (n : ℕ) : natCode n ≤ infinityCode := by
  unfold natCode
  split
  · exact Nat.zero_le _
  · exact Nat.min_le_right _ _

theorem natCode_lt_iff (n : ℕ) : natCode n < infinityCode ↔ n < beyond := by
  obtain rfl | hn := Nat.eq_zero_or_pos n
  · exact iff_of_true (by decide) (by decide +kernel)
  · rw [natCode, if_neg hn.ne', min_lt_iff, or_iff_left (lt_irrefl _), ← (rounds_natCast hn).magnitude_lt_iff]
    exact rounded_lt_iff hn

theorem natCode_eq_zero_iff (n : ℕ) : natCode n = 0 ↔ n = 0 := by
  obtain rfl | hn := Nat.eq_zero_or_pos n
  · exact iff_of_true rfl rfl
  · refine iff_of_false ?_ hn.ne'
    have h := rounds_natCast hn
    have hpos : 0 < (significand leastExponent n 1).1 := by
      obtain hlt | hle := lt_or_ge leastExponent (significand leastExponent n 1).2
      · exact lt_of_lt_of_le (by decide) (h.pow_le hlt)
      · refine h.nearest.natCast_le ?_
        rw [Nat.cast_one, one_le_div (zpow_pos two_pos _)]
        calc (2 : ℚ) ^ (significand leastExponent n 1).2 ≤ 2 ^ (0 : ℤ) :=
              zpow_le_zpow_right₀ one_le_two (hle.trans (by decide))
          _ ≤ n := by
            rw [zpow_zero]
            exact_mod_cast hn
    rw [natCode, if_neg hn.ne', magnitudeCode, infinityCode, leastNormal]
    omega

/-- Integers that are not beyond the doubles have a double, zero has zero, and negative ones have negative
doubles. -/
theorem isFinite_ofInt_iff (n : ℤ) : (ofInt n).isFinite = true ↔ n.natAbs < beyond := by
  rw [ofInt, nearest_eq_ofBits, isFinite_ofBits_iff _ (natCode_le _), natCode_lt_iff]

theorem ofInt_beq_zero_iff (n : ℤ) : (ofInt n == 0.0) = true ↔ n = 0 := by
  rw [ofInt, nearest_eq_ofBits, beq_zero_ofBits_iff _ (natCode_le _), natCode_eq_zero_iff, Int.natAbs_eq_zero]

theorem ofInt_lt_zero_iff (n : ℤ) : ofInt n < 0.0 ↔ n < 0 := by
  rw [ofInt, nearest_eq_ofBits, lt_zero_ofBits_iff _ (natCode_le _), decide_eq_true_iff, Nat.pos_iff_ne_zero,
    Ne, natCode_eq_zero_iff]
  omega

end Reckoner.Binary64
