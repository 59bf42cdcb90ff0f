import Reckoner.Proofs.Decimal.FewDigits
import Reckoner.Proofs.Number.DecimalWidth

/-! Decimals with a power of ten, and the doubles that they are read as: those in whose interval they lie. -/
namespace Reckoner
open Binary64 Decimal

variable {m m' n num den : ℕ} {e e' k : ℤ} {q : ℚ} {negative : Bool}

namespace Binary64

/-- What rounds to the code of a finite double has the double's significand and exponent, or carries to them. -/
theorem Rounds.canonical_or_carry_of_code (h : Rounds leastExponent q m e)
    (hcode : magnitudeCode m e < infinityCode) :
    Canonical m e ∨ m = 2 ^ 53 ∧ Canonical (2 ^ 52) (e + 1) := by
  have hle := h.le_pow
  have hpow := h.pow_le
  have hleast := h.least_le
  have hm : (2 : ℕ) ^ 52 = leastNormal := rfl
  obtain rfl | hlt := hle.eq_or_lt
  · refine .inr ⟨rfl, by decide, by omega, ?_, fun _ => le_rfl⟩
    unfold magnitudeCode infinityCode leastNormal leastExponent at *
    omega
  · refine .inl ⟨hlt, hleast, ?_, hpow⟩
    unfold magnitudeCode infinityCode leastNormal leastExponent at *
    omega

theorem pack_injective (hc : Canonical m e) (hc' : Canonical m' e') (h : pack negative m e = pack negative m' e') :
    m = m' ∧ e = e' := by
  have hview := congrArg view h
  rw [view_pack negative hc, view_pack negative hc'] at hview
  cases hview
  exact ⟨rfl, rfl⟩

/-- What is packed as a double lies in its interval. -/
theorem Rounds.contains_of_pack (h : Rounds leastExponent q m' e') (hc : Canonical m e) (hm : 0 < m)
    (heq : pack negative m' e' = pack negative m e) : (Interval.around m e).Contains q := by
  have hcode : magnitudeCode m' e' < infinityCode := by
    have hbits := congrArg (fun x : Float => x.isFinite) heq
    have hfinite : (pack negative m e).isFinite = true := by
      rw [pack, isFinite_ofBits_iff negative (Nat.min_le_right _ _)]
      exact min_lt_of_left_lt hc.code_lt
    rw [← h.magnitude_lt_iff, ← isFinite_pack_iff h negative]
    exact hbits.trans hfinite
  obtain hc' | ⟨rfl, hc'⟩ := h.canonical_or_carry_of_code hcode
  · obtain ⟨rfl, rfl⟩ := pack_injective hc' hc heq
    exact h.contains hm
  · rw [pack_carry negative h.least_le] at heq
    obtain ⟨rfl, rfl⟩ := pack_injective hc' hc heq
    exact h.contains_carry

end Binary64

namespace Decimal

/-- The quotient by which a decimal with a power of ten is read. -/
theorem scientific_eq_div (n : ℕ) (k : ℤ) :
    (n * 10 ^ k : ℚ) = (n * Nat.pow 10 k.toNat : ℕ) / (Nat.pow 10 (-k).toNat : ℕ) := by
  rw [Nat.pow_eq, Nat.pow_eq]
  push_cast
  rw [eq_div_iff (by positivity), mul_assoc]
  congr 1
  rw [← zpow_natCast, ← zpow_natCast, ← zpow_add₀ (by norm_num)]
  congr 1
  omega

theorem zpow_two_le_ten {a b : ℕ} (h : 2 ^ a ≤ 10 ^ b) : (2 : ℚ) ^ (a : ℤ) ≤ 10 ^ (b : ℤ) := by
  rw [zpow_natCast, zpow_natCast]
  exact_mod_cast h

/-- No double has numbers from this power of ten on in its interval. -/
theorem Interval.Contains.lt_ten_pow (h : (Interval.around m e).Contains q) (hc : Canonical m e) (hm : 0 < m) :
    q < 10 ^ (309 : ℤ) := by
  have hlt : (m + 1 / 2 : ℚ) < 2 ^ (53 : ℤ) := by
    have : (m : ℚ) + 1 ≤ 2 ^ (53 : ℤ) := mod_cast hc.lt
    linarith
  calc q ≤ (m + 1 / 2) * 2 ^ e := (h.bounds hm).2
    _ < 2 ^ (53 : ℤ) * 2 ^ e := mul_lt_mul_of_pos_right hlt (zpow_pos two_pos e)
    _ = 2 ^ (53 + e) := (zpow_add₀ two_ne_zero _ _).symm
    _ ≤ 2 ^ ((1024 : ℕ) : ℤ) := zpow_le_zpow_right₀ one_le_two (by have := hc.le; omega)
    _ ≤ 10 ^ ((309 : ℕ) : ℤ) :=
      zpow_two_le_ten (Number.two_pow_le_ten_pow (p := 28) (q := 93) (by decide) (by decide) (by decide))

theorem ten_pow_le_scientific (hn : 0 < n) (k : ℤ) : (10 : ℚ) ^ k ≤ n * 10 ^ k := by
  have hone : (1 : ℚ) ≤ n := mod_cast hn
  exact le_mul_of_one_le_left (zpow_pos (by norm_num) k).le hone

/-- A decimal in the interval of a double is read as it. -/
theorem nearest_of_contains (hc : Canonical m e) (hm : 0 < m) (h : (Interval.around m e).Contains (n * 10 ^ k))
    (negative : Bool) : nearest negative n k = pack negative m e := by
  have hten : (0 : ℚ) < 10 ^ k := zpow_pos (by norm_num) k
  have hn : 0 < n := by
    have hpos := h.pos hm
    exact_mod_cast (mul_pos_iff_of_pos_right hten).mp hpos
  have hhigh : ¬ 309 < k := by
    intro hlt
    have hle : (10 : ℚ) ^ (309 : ℤ) ≤ 10 ^ k := zpow_le_zpow_right₀ (by norm_num) hlt.le
    exact not_lt.mpr (hle.trans (ten_pow_le_scientific hn k)) (h.lt_ten_pow hc hm)
  have hlow : ¬ k < -(330 + n.log2) := by
    intro hlt
    obtain ⟨j, rfl⟩ : ∃ j : ℕ, k = -j := ⟨(-k).toNat, by omega⟩
    have hquotient : (n * 10 ^ (-j : ℤ) : ℚ) = n / 10 ^ j := by rw [zpow_neg, zpow_natCast, div_eq_mul_inv]
    have := places_le (hquotient ▸ h.zpow_le hc hm)
    omega
  rw [nearest, if_neg hn.ne', if_neg hhigh, if_neg hlow]
  rw [scientific_eq_div] at h
  exact nearest_eq_pack_of_contains hc hm (Nat.pow_pos (by decide)) h negative

/-- What is read as a double that is not zero lies in its interval. -/
theorem contains_of_nearest (hc : Canonical m e) (hm : 0 < m) (h : nearest negative n k = pack negative m e) :
    (Interval.around m e).Contains (n * 10 ^ k) := by
  have hview := view_pack negative hc
  have hzero : zero negative ≠ pack negative m e := by
    intro heq
    rw [← heq, zero, view_pack negative ⟨by decide, le_rfl, by decide, fun h => absurd h (lt_irrefl _)⟩] at hview
    cases hview
    exact lt_irrefl 0 hm
  have hinfinity : infinity negative ≠ pack negative m e := by
    intro heq
    have hinfinite : view (infinity negative) = .infinite negative := by cases negative <;> decide +kernel
    rw [← heq, hinfinite] at hview
    cases hview
  rw [nearest] at h
  split at h
  · exact absurd h hzero
  split at h
  · exact absurd h hinfinity
  split at h
  · exact absurd h hzero
  next hn _ _ =>
  have hpow (j : ℕ) : 0 < Nat.pow 10 j := Nat.pow_pos (by decide)
  have hnum := Nat.mul_pos (Nat.pos_of_ne_zero hn) (hpow k.toNat)
  have hrounds := significand_rounds leastExponent hnum (hpow (-k).toNat)
  rw [nearest_eq_pack negative hnum (hpow _) hrounds] at h
  rw [scientific_eq_div]
  exact hrounds.contains_of_pack hc hm h

end Decimal
end Reckoner
