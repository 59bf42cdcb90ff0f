import Reckoner.Proofs.Binary64.Codes
import Reckoner.Proofs.Binary64.Rounding

/-! The double next to a quotient: it depends on the quotient only, none is closer, and it is finite for
quotients up to the greatest double. -/
namespace Reckoner.Binary64

variable {q : ℚ} {num den num' den' m : ℕ} {e : ℤ}

/-- The greatest double. -/
def greatest : ℚ := magnitude (2 ^ 53 - 1) 971

theorem canonical_greatest : Canonical (2 ^ 53 - 1) 971 := ⟨by decide, by decide, le_rfl, fun _ => by decide⟩

theorem greatest_lt : greatest < 2 ^ (1024 : ℤ) := by
  have h : magnitude (2 ^ 53) 971 = 2 ^ (1024 : ℤ) := magnitude_pow 53 971
  rw [← h, greatest, magnitude, magnitude]
  apply mul_lt_mul_of_pos_right _ (zpow_pos two_pos _)
  norm_num

theorem Canonical.magnitude_le (h : Canonical m e) : magnitude m e ≤ greatest := by
  have hm : (m : ℚ) ≤ (2 ^ 53 - 1 : ℕ) := mod_cast Nat.le_sub_one_of_lt h.lt
  have he : (2 : ℚ) ^ e ≤ 2 ^ (971 : ℤ) := zpow_le_zpow_right₀ one_le_two h.le
  exact mul_le_mul hm he (zpow_pos two_pos e).le (Nat.cast_nonneg _)

/-- What is closest to a quotient among the doubles. -/
structure Closest (q : ℚ) (m : ℕ) (e : ℤ) : Prop where
  canonical : Canonical m e
  closest : ∀ m' e', Canonical m' e' → |q - magnitude m e| ≤ |q - magnitude m' e'|

theorem Rounds.exponent_le (h : Rounds leastExponent q m e) (hle : magnitude m e ≤ greatest) : e ≤ 971 := by
  by_contra! hlt
  have hleast : leastExponent < e := lt_trans (by decide) hlt
  have hpow := (magnitude_mono (h.pow_le hleast) e).trans_lt (hle.trans_lt greatest_lt)
  rw [magnitude_pow] at hpow
  have := lt_of_zpow_lt hpow
  omega

/-- What a quotient up to the greatest double rounds to is a double, after a carry perhaps. -/
theorem Rounds.canonical_or_carry (h : Rounds leastExponent q m e) (hq : q ≤ greatest) :
    Canonical m e ∨ m = 2 ^ 53 ∧ Canonical (2 ^ 52) (e + 1) := by
  have hle : magnitude m e ≤ greatest := by
    have := h.closest canonical_greatest.lt.le canonical_greatest.least_le
    rw [← greatest, abs_sub_comm q greatest, abs_of_nonneg (sub_nonneg.mpr hq)] at this
    linarith [(abs_le.mp this).1]
  obtain rfl | hlt := h.le_pow.eq_or_lt
  · refine .inr ⟨rfl, by decide, by linarith [h.least_le], ?_, fun _ => le_rfl⟩
    have hpow := hle.trans_lt greatest_lt
    rw [magnitude_pow] at hpow
    have := lt_of_zpow_lt hpow
    omega
  · exact .inl ⟨hlt, h.least_le, h.exponent_le hle, h.pow_le⟩

theorem magnitude_carry (e : ℤ) : magnitude (2 ^ 53) e = magnitude (2 ^ 52) (e + 1) := by
  rw [magnitude_pow, magnitude_pow]
  congr 1
  push_cast
  ring

/-- A rounded quotient that is not beyond the greatest double is packed as the double closest to it. -/
theorem Rounds.exists_closest (h : Rounds leastExponent q m e) (hq : q ≤ greatest) :
    ∃ m' e', Closest q m' e' ∧ ∀ negative, pack negative m e = pack negative m' e' := by
  have hclosest (m' : ℕ) (e' : ℤ) (h' : Canonical m' e') := h.closest h'.lt.le h'.least_le
  obtain hcanonical | ⟨rfl, hcanonical⟩ := h.canonical_or_carry hq
  · exact ⟨m, e, ⟨hcanonical, hclosest⟩, fun _ => rfl⟩
  · exact ⟨2 ^ 52, e + 1, ⟨hcanonical, fun m' e' h' => magnitude_carry e ▸ hclosest m' e' h'⟩,
      fun negative => pack_carry negative h.least_le⟩

/-- A quotient up to the greatest double becomes the closest double. -/
theorem exists_closest (num : ℕ) (hden : 0 < den) (hle : num / den ≤ greatest) :
    ∃ m e, Closest (num / den) m e ∧ ∀ negative, nearest negative num den = pack negative m e := by
  obtain rfl | hnum := Nat.eq_zero_or_pos num
  · refine ⟨0, leastExponent, ⟨⟨by decide, le_rfl, by decide, fun h => absurd h (lt_irrefl _)⟩,
      fun m' e' _ => ?_⟩, fun _ => rfl⟩
    rw [magnitude, Nat.cast_zero, zero_mul, zero_div, sub_zero, abs_zero]
    exact abs_nonneg _
  · simp only [nearest, if_neg hnum.ne']
    exact (significand_rounds leastExponent hnum hden).exists_closest hle

theorem nearest_eq_pack (negative : Bool) (hnum : 0 < num) (hden : 0 < den)
    (h : Rounds leastExponent (num / den) m e) : nearest negative num den = pack negative m e := by
  rw [nearest, if_neg hnum.ne', (significand_eq_iff leastExponent hnum hden).mpr h]

/-- What a quotient rounds to is told by the quotient. -/
theorem nearest_congr (negative : Bool) (hden : 0 < den) (hden' : 0 < den')
    (h : (num / den : ℚ) = num' / den') : nearest negative num den = nearest negative num' den' := by
  have hd : (den : ℚ) ≠ 0 := mod_cast hden.ne'
  have hd' : (den' : ℚ) ≠ 0 := mod_cast hden'.ne'
  obtain rfl | hnum := Nat.eq_zero_or_pos num
  · have hzero : (num' : ℚ) = 0 := by
      rw [Nat.cast_zero, zero_div] at h
      exact (div_eq_zero_iff.mp h.symm).resolve_right hd'
    rw [Nat.cast_eq_zero.mp hzero, nearest, nearest, if_pos rfl, if_pos rfl]
  · have hnum' : 0 < num' := by
      have : (0 : ℚ) < num' / den' := h ▸ div_pos (mod_cast hnum) (mod_cast hden)
      exact_mod_cast (div_pos_iff_of_pos_right (by positivity)).mp this
    have hr := significand_rounds leastExponent hnum' hden'
    rw [← h] at hr
    rw [nearest_eq_pack negative hnum hden hr, nearest, if_neg hnum'.ne']

end Reckoner.Binary64
