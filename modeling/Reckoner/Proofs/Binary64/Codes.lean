import Reckoner.Binary64.Nearest
import Mathlib

/-! Doubles and their codes: what is packed is viewed again, and a double has only one view. -/
namespace Reckoner.Binary64
open Float.Model UnpackedFloat

/-- A significand and an exponent as a finite double has them: all 53 bits are there unless the exponent
is the least one. -/
structure Canonical (m : ℕ) (e : ℤ) : Prop where
  lt : m < 2 ^ 53
  least_le : leastExponent ≤ e
  le : e ≤ 971
  normal : leastExponent < e → 2 ^ 52 ≤ m

variable {x : Float} {negative : Bool} {m code : ℕ} {e : ℤ} {bits : UInt64}

theorem canonical_of_view (h : view x = .finite negative m e) : Canonical m e := by
  unfold view at h
  extract_lets bits sign biased fraction at h
  have hfraction : fraction < 2 ^ 52 := Nat.mod_lt _ (by decide)
  have hbiased : biased < 2048 := Nat.mod_lt _ (by decide)
  have hleast : leastNormal = 2 ^ 52 := rfl
  have hexponent : leastExponent = -1074 := rfl
  split at h
  · split at h <;> cases h
  · split at h
    · obtain ⟨-, rfl, rfl⟩ := View.finite.inj h
      exact ⟨by omega, le_rfl, by decide, fun h => absurd h (lt_irrefl _)⟩
    · obtain ⟨-, rfl, rfl⟩ := View.finite.inj h
      exact ⟨by omega, by omega, by omega, fun _ => by omega⟩

theorem toNat_unpackSign (bits : BitVec Format.binary64.numBits) :
    (unpackSign bits).toNat = bits.toNat / 2 ^ 63 % 2 := by
  simp [unpackSign, Nat.shiftRight_eq_div_pow]

theorem toNat_unpackExponent (bits : BitVec Format.binary64.numBits) :
    (unpackExponent bits).toNat = bits.toNat / 2 ^ 52 % 2 ^ 11 := by
  simp [unpackExponent, Nat.shiftRight_eq_div_pow]

theorem toNat_unpackMantissa (bits : BitVec Format.binary64.numBits) :
    (unpackMantissa bits).toNat = bits.toNat % 2 ^ 52 := by
  simp [unpackMantissa]

/-- Bits that are not those of a NaN are the bits of a double. -/
theorem toBits_ofBits (h : bits.toNat / 2 ^ 52 % 2 ^ 11 = 2047 → bits.toNat % 2 ^ 52 = 0) :
    (Float.ofBits bits).toBits = bits := by
  apply UInt64.toBitVec_inj.mp
  change UnpackedFloat.pack .binary64 (unpack .binary64 bits.toBitVec) = bits.toBitVec
  rw [pack_unpack, if_neg]
  rw [isNaNBits, decide_eq_true_eq, ← BitVec.toNat_inj, ← BitVec.toNat_inj.ne, toNat_unpackExponent,
    toNat_unpackMantissa]
  exact fun h' => h'.2 (h h'.1)

/-- Codes up to that of infinity, with the code of a sign. -/
theorem toBits_ofBits_code (negative : Bool) (h : code ≤ infinityCode) :
    (Float.ofBits (signCode negative + code).toUInt64).toBits.toNat = signCode negative + code := by
  have hcode : infinityCode = 2047 * 2 ^ 52 := rfl
  have hsign : signCode negative = 2 ^ 63 ∨ signCode negative = 0 := by cases negative <;> simp [signCode]
  have htoNat : (signCode negative + code).toUInt64.toNat = signCode negative + code := by
    rw [UInt64.toNat_ofNat']
    omega
  rw [toBits_ofBits, htoNat]
  rw [htoNat]
  omega

/-- A code below that of infinity is a finite double. -/
theorem view_ofBits (negative : Bool) (h : code < infinityCode) :
    view (Float.ofBits (signCode negative + code).toUInt64) =
      if code < leastNormal then .finite negative code leastExponent
      else .finite negative (leastNormal + code % leastNormal)
        (leastExponent + ((code / leastNormal : ℕ) - 1)) := by
  have htrue : signCode true = 2 ^ 63 := rfl
  have hfalse : signCode false = 0 := rfl
  have hsign : decide (signCode true ≤ signCode negative + code) = negative := by
    unfold infinityCode leastNormal at h
    cases negative <;> simp
    omega
  have hbiased : (signCode negative + code) / leastNormal % 2048 = code / leastNormal := by
    unfold infinityCode leastNormal at *
    cases negative <;> omega
  have hfraction : (signCode negative + code) % leastNormal = code % leastNormal := by
    unfold leastNormal
    cases negative <;> omega
  simp only [view, toBits_ofBits_code negative h.le, hsign, hbiased, hfraction]
  have hfinite : code / leastNormal ≠ 2047 := by
    unfold infinityCode leastNormal at *
    omega
  rw [if_neg hfinite]
  by_cases hsmall : code < leastNormal
  · rw [if_pos hsmall, if_pos (Nat.div_eq_of_lt hsmall), Nat.mod_eq_of_lt hsmall]
  · rw [if_neg hsmall, if_neg]
    unfold leastNormal at *
    omega

/-- The code of a magnitude. -/
def magnitudeCode (m : ℕ) (e : ℤ) : ℕ := (e - leastExponent).toNat * leastNormal + m

theorem Canonical.code_lt (h : Canonical m e) : magnitudeCode m e < infinityCode := by
  have := h.lt
  have := h.le
  unfold magnitudeCode infinityCode leastNormal leastExponent
  omega

/-- What is packed is viewed again. -/
theorem view_pack (negative : Bool) (h : Canonical m e) : view (pack negative m e) = .finite negative m e := by
  have hlt := h.lt
  have hle := h.least_le
  have hnormal := h.normal
  change view (Float.ofBits (signCode negative + min (magnitudeCode m e) infinityCode).toUInt64) = _
  rw [Nat.min_eq_left h.code_lt.le, view_ofBits negative h.code_lt]
  unfold magnitudeCode leastNormal leastExponent at *
  split
  · next hsmall =>
    have he : e = -1074 := by omega
    simp [he]
  · next hlarge =>
    congr 1 <;> omega

/-- A carry out of the significand leads to the least one of the next exponent. -/
theorem pack_carry (negative : Bool) (h : leastExponent ≤ e) :
    pack negative (2 ^ 53) e = pack negative (2 ^ 52) (e + 1) := by
  have hcode : magnitudeCode (2 ^ 53) e = magnitudeCode (2 ^ 52) (e + 1) := by
    unfold magnitudeCode leastNormal leastExponent at *
    omega
  exact congrArg (fun c => Float.ofBits (signCode negative + min c infinityCode).toUInt64) hcode

/-- Bits that differ in their sign unpack to opposite values. -/
theorem neg_unpack {b c : BitVec Format.binary64.numBits} (hsign : unpackSign c = ~~~ unpackSign b)
    (hexponent : unpackExponent c = unpackExponent b) (hmantissa : unpackMantissa c = unpackMantissa b) :
    (UnpackedFloat.unpack .binary64 b).neg = UnpackedFloat.unpack .binary64 c := by
  have hneg : Sign.ofBitVec (unpackSign c) = -Sign.ofBitVec (unpackSign b) := by
    rw [hsign]
    obtain h | h := BitVec.eq_zero_or_eq_one (unpackSign b) <;> rw [h] <;> rfl
  simp only [UnpackedFloat.unpack, hneg, hexponent, hmantissa]
  split
  · split <;> rfl
  · split
    · split <;> rfl
    · rfl

theorem neg_ofBits (negative : Bool) (h : code ≤ infinityCode) :
    -Float.ofBits (signCode negative + code).toUInt64 = Float.ofBits (signCode (!negative) + code).toUInt64 := by
  have hcode : infinityCode = 2047 * 2 ^ 52 := rfl
  have htrue : signCode true = 2 ^ 63 := rfl
  have hfalse : signCode false = 0 := rfl
  have hnat : (signCode (!negative) + code).toUInt64.toBitVec.toNat = signCode (!negative) + code := by
    change (signCode (!negative) + code).toUInt64.toNat = _
    rw [UInt64.toNat_ofNat']
    cases negative <;> simp only [Bool.not_true, Bool.not_false] <;> omega
  have hbits : (Float.ofBits (signCode negative + code).toUInt64).toBits.toBitVec.toNat = signCode negative + code :=
    toBits_ofBits_code negative h
  have hunpack := neg_unpack (b := (Float.ofBits (signCode negative + code).toUInt64).toBits.toBitVec)
    (c := (signCode (!negative) + code).toUInt64.toBitVec)
    (by
      rw [← BitVec.toNat_inj, BitVec.toNat_not, toNat_unpackSign, toNat_unpackSign, hnat, hbits]
      cases negative <;> simp only [Bool.not_true, Bool.not_false] <;> omega)
    (by
      rw [← BitVec.toNat_inj, toNat_unpackExponent, toNat_unpackExponent, hnat, hbits]
      cases negative <;> simp only [Bool.not_true, Bool.not_false] <;> omega)
    (by
      rw [← BitVec.toNat_inj, toNat_unpackMantissa, toNat_unpackMantissa, hnat, hbits]
      cases negative <;> simp only [Bool.not_true, Bool.not_false] <;> omega)
  exact congrArg (fun u => (⟨Float.Model.pack u⟩ : Float)) hunpack

theorem neg_pack (negative : Bool) (m : ℕ) (e : ℤ) : -pack negative m e = pack (!negative) m e :=
  neg_ofBits negative (Nat.min_le_right _ _)

/-- A negated double has the same view with the other sign. -/
theorem view_neg_pack (h : Canonical m e) : view (-pack false m e) = .finite true m e := by
  rw [neg_pack, Bool.not_false, view_pack true h]

end Reckoner.Binary64
