import Reckoner.Proofs.Binary64.Values
import Reckoner.Proofs.Decimal.Fixed

/-! Whole numbers next to a double. The nearest one, taken as a double again, is exact. -/
namespace Reckoner.Binary64
open Decimal

variable {x : Float} {negative : Bool} {v : ℚ} {m c : ℕ} {e : ℤ}

/-- A double that is not negative is cut to its whole part. -/
theorem HasValue.floor (h : HasValue x false v) :
    ∃ whole : ℕ, toInt? .floor x = some (whole : ℤ) ∧ whole ≤ v ∧ v < whole + 1 := by
  obtain ⟨m, e, hc, rfl, rfl⟩ := h
  have hden : 0 < (ratio m e).2 := unscale_pos (-e) Nat.one_pos
  have hd : (0 : ℚ) < (ratio m e).2 := mod_cast hden
  refine ⟨(ratio m e).1 / (ratio m e).2, ?_, ?_, ?_⟩
  · rw [toInt?, view_pack false hc]
    rfl
  · rw [← ratio_div]
    exact Nat.cast_div_le
  · rw [← ratio_div, div_lt_iff₀ hd]
    exact_mod_cast Nat.lt_mul_of_div_lt (Nat.lt_succ_self _) hden

/-- A whole number next to a double has 53 bits, or is the double itself. -/
theorem Canonical.roundsTo_nearest (hc : Canonical m e) (h : IsNearest (magnitude m e) c) :
    RoundsTo c c ∧ (c : ℚ) ≤ greatest := by
  obtain hle | hlt := le_or_gt (magnitude m e) (2 ^ 53 : ℕ)
  · have hc := h.le_natCast hle
    exact ⟨.natCast hc, natCast_le_greatest hc⟩
  · have he : 0 ≤ e := by
      by_contra! hneg
      have hmag : magnitude m e ≤ m :=
        mul_le_of_le_one_right (Nat.cast_nonneg m) (zpow_le_one_of_nonpos₀ one_le_two hneg.le)
      have hm : (m : ℚ) < (2 ^ 53 : ℕ) := mod_cast hc.lt
      linarith
    have hwhole : magnitude m e = (m * 2 ^ e.toNat : ℕ) := by
      rw [← magnitude_natCast, Int.toNat_of_nonneg he]
    rw [hwhole] at h
    rw [h.unique (.natCast _), ← hwhole]
    exact ⟨.self hc.lt.le hc.least_le, hc.magnitude_le⟩

theorem HasValue.roundHalfEven (h : HasValue x negative v) :
    ∃ c : ℕ, IsNearest v c ∧ HasValue (roundHalfEven x) negative c := by
  obtain ⟨m, e, hc, rfl, rfl⟩ := h
  have hden : 0 < (ratio m e).2 := unscale_pos (-e) Nat.one_pos
  have hnearest := isNearest_roundDiv (ratio m e).1 hden
  rw [ratio_div] at hnearest
  obtain ⟨hrounds, hle⟩ := hc.roundsTo_nearest hnearest
  refine ⟨_, hnearest, ?_⟩
  rw [Binary64.roundHalfEven, toIntegral, view_pack negative hc]
  exact HasValue.nearest Nat.one_pos (by rwa [Nat.cast_one, div_one]) (by rwa [Nat.cast_one, div_one]) negative

end Reckoner.Binary64
