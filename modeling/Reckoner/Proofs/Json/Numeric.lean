import Reckoner.Json.Numeric
import Reckoner.Proofs.Decimal.Scientific
import Reckoner.Proofs.Number.FloatPower

/-! The value of a JSON number that has one: an integer of 64 bits or a finite double. -/
namespace Reckoner

namespace Binary64

variable {x y : Float} {negative negative' : Bool} {v w : ℚ}

theorem HasValue.exists_view (h : HasValue x negative v) : ∃ m e, view x = .finite negative m e := by
  obtain ⟨m, e, hc, -, rfl⟩ := h
  exact ⟨m, e, view_pack negative hc⟩

/-- A product that is finite stands for what the exact product rounds to. -/
theorem HasValue.mul_of_isFinite (hx : HasValue x negative v) (hy : HasValue y negative' w)
    (h : (x * y).isFinite = true) : ∃ u, HasValue (x * y) (negative != negative') u := by
  obtain ⟨m, e, hc, rfl, rfl⟩ := hx
  obtain ⟨m', e', hc', rfl, rfl⟩ := hy
  obtain ⟨k, f, hrounds⟩ := exists_rounds (mul_nonneg (magnitude_nonneg m e) (magnitude_nonneg m' e'))
  rw [pack_mul_pack hc hc' hrounds] at *
  have hcode := hrounds.magnitude_lt_iff.mp ((isFinite_pack_iff hrounds _).mp h)
  obtain hcanonical | ⟨rfl, hcanonical⟩ := hrounds.canonical_or_carry_of_code hcode
  · exact ⟨_, k, f, hcanonical, rfl, rfl⟩
  · exact ⟨_, 2 ^ 52, f + 1, hcanonical, rfl, pack_carry _ hrounds.least_le⟩

end Binary64

namespace Json
open Binary64 Decimal

variable {s : Scaled} {x : Float} {k n : ℕ} {l : Literal}

/-- A double that stands for a number that is not negative. -/
def IsMagnitude (x : Float) : Prop := ∃ v, HasValue x false v

theorem powerOfTen_hasValue (h : k ≤ maxPower) : ∃ w, HasValue (powerOfTen k) false w ∧ 1 ≤ w := by
  have hpow : ((Nat.pow 10 k : ℕ) / (1 : ℕ) : ℚ) = 10 ^ k := by simp
  have hone : (1 : ℚ) ≤ 10 ^ k := one_le_pow₀ (by norm_num)
  obtain ⟨w, hw⟩ := RoundsTo.exists_of_nonneg (zero_le_one.trans hone)
  have hunit : RoundsTo 1 1 := by simpa using RoundsTo.natCast (n := 1) (by decide)
  have hle : (10 : ℚ) ^ k ≤ greatest :=
    (le_mul_of_one_le_right (zero_le_one.trans hone) (by norm_num)).trans (Number.ten_pow_le_greatest h)
  exact ⟨w, .nearest Nat.one_pos (hpow ▸ hw) (hpow ▸ hle) false, hunit.mono hw hone⟩

/-- Dividing by powers of ten stays among the finite doubles. -/
theorem IsMagnitude.div_powerOfTen (hx : IsMagnitude x) (h : k ≤ maxPower) : IsMagnitude (x / powerOfTen k) := by
  obtain ⟨v, hv⟩ := hx
  obtain ⟨w, hw, hone⟩ := powerOfTen_hasValue h
  have hpos : 0 < w := one_pos.trans_le hone
  obtain ⟨u, hu⟩ := RoundsTo.exists_of_nonneg (div_nonneg hv.nonneg hpos.le)
  exact ⟨u, hv.div_right hw hpos hu ((div_le_self hv.nonneg hone).trans hv.le_greatest)⟩

theorem IsMagnitude.divideByPowers (hx : IsMagnitude x) (k : ℕ) : IsMagnitude (divideByPowers x k) := by
  fun_induction Json.divideByPowers x k with
  | case1 x k h => exact hx.div_powerOfTen h
  | case2 => exact hx
  | case3 x k _ _ ih => exact ih (hx.div_powerOfTen le_rfl)

theorem IsMagnitude.mul {y : Float} (hx : IsMagnitude x) (hy : IsMagnitude y) (h : (x * y).isFinite = true) :
    IsMagnitude (x * y) := by
  obtain ⟨v, hv⟩ := hx
  obtain ⟨w, hw⟩ := hy
  obtain ⟨u, hu⟩ := hv.mul_of_isFinite hw h
  rw [Bool.bne_false] at hu
  exact ⟨u, hu⟩

theorem isMagnitude_ofNat (h : n < 10 ^ 20) : IsMagnitude (Binary64.ofNat n) := by
  have hle : (n : ℚ) ≤ greatest := by
    calc (n : ℚ) ≤ 10 ^ 20 := mod_cast h.le
      _ ≤ 10 ^ 20 * (3 / 2) := by norm_num
      _ ≤ greatest := Number.ten_pow_le_greatest (by decide)
  obtain ⟨v, hv⟩ := RoundsTo.exists_of_nonneg (Nat.cast_nonneg (α := ℚ) n)
  rw [← div_one (n : ℚ), ← Nat.cast_one] at hle hv
  exact ⟨v, .nearest Nat.one_pos hv hle false⟩

/-- The digits that were read fit 64 bits. -/
structure Scaled.Fits (s : Scaled) : Prop where
  lt : s.significand < Scaled.limit

namespace Scaled

theorem lt_of_push? {digit : Char} (h : s.push? digit = some n) : n < limit := by
  unfold push? at h
  dsimp only at h
  split at h
  · next hlt =>
    cases h
    exact hlt
  · cases h

theorem Fits.readWhole (h : s.Fits) (ds : List Char) : (s.readWhole ds).Fits := by
  induction ds generalizing s with
  | nil => rwa [Scaled.readWhole]
  | cons d ds ih =>
    rw [Scaled.readWhole]
    split
    · next hpush => exact ih ⟨lt_of_push? hpush⟩
    · exact ⟨h.lt⟩

theorem Fits.readFraction (h : s.Fits) (ds : List Char) : (s.readFraction ds).Fits := by
  induction ds generalizing s with
  | nil => rwa [Scaled.readFraction]
  | cons d ds ih =>
    rw [Scaled.readFraction]
    split
    · next hpush => exact ih ⟨lt_of_push? hpush⟩
    · exact h

theorem Fits.isMagnitude (h : s.Fits) (hx : s.toFloat? = some x) : IsMagnitude x := by
  have hlimit : limit ≤ 10 ^ 20 := by
    unfold limit
    decide
  have hone := isMagnitude_ofNat (h.lt.trans_le hlimit)
  unfold toFloat? at hx
  dsimp only at hx
  split at hx
  · cases hx
    exact hone.divideByPowers _
  split at hx
  · next hpower =>
    split at hx
    · next hfinite =>
      cases hx
      obtain ⟨w, hw, -⟩ := powerOfTen_hasValue hpower
      exact hone.mul ⟨w, hw⟩ hfinite
    · cases hx
  split at hx
  · cases hx
    exact hone
  · cases hx

end Scaled

theorem isMagnitude_of_magnitude? (h : magnitude? l = some x) : IsMagnitude x := by
  have hfits : ((Scaled.readWhole ⟨0, 0⟩ l.whole).readFraction l.fraction).Fits := by
    have hstart : Scaled.Fits ⟨0, 0⟩ := ⟨by unfold Scaled.limit; decide⟩
    exact (hstart.readWhole _).readFraction _
  unfold magnitude? at h
  dsimp only at h
  split at h
  · exact hfits.isMagnitude h
  split at h
  · split at h
    · cases h
      exact isMagnitude_ofNat (n := 0) (by decide)
    · cases h
  · have hscaled (exponent : ℤ) : Scaled.Fits ⟨_, exponent⟩ := ⟨hfits.lt⟩
    exact (hscaled _).isMagnitude h

theorem natAbs_lt_of_integer? {i : ℤ} (h : l.integer? = some i) : i.natAbs < UInt64.size := by
  unfold Literal.integer? at h
  dsimp only at h
  split at h
  · split at h
    · split at h
      · next hle =>
        cases h
        rw [Int.natAbs_neg, Int.natAbs_natCast]
        exact hle.2.trans_lt (by decide)
      · cases h
    · split at h
      · next hlt =>
        cases h
        rwa [Int.natAbs_natCast]
      · cases h
  · cases h

/-- An integer of 64 bits, or a finite double. -/
inductive Numeric.Bounded : Numeric → Prop
  | int {n : ℤ} (h : n.natAbs < UInt64.size) : Bounded (.int n)
  | float {x : Float} {negative : Bool} {m : ℕ} {e : ℤ} (h : view x = .finite negative m e) : Bounded (.float x)

theorem Literal.bounded {v : Numeric} (h : l.numeric? = some v) : v.Bounded := by
  unfold Literal.numeric? at h
  split at h
  · next hn =>
    cases h
    exact .int (natAbs_lt_of_integer? hn)
  · obtain ⟨x, hx, rfl⟩ := Option.map_eq_some_iff.mp h
    obtain ⟨v, hv⟩ := isMagnitude_of_magnitude? hx
    obtain ⟨m, e, hview⟩ := hv.exists_view
    split
    · exact .float (view_neg hview)
    · exact .float hview

end Json
end Reckoner
