import Reckoner.Decimal.Fixed
import Reckoner.Proofs.Decimal.Positional

/-! Doubles rounded to a number of decimal places. The double that is closest to the rounded decimal is
rounded to the same decimal, so what is written with these places is stable. -/
namespace Reckoner.Decimal
open Binary64

variable {m m' count places : ℕ} {e e' : ℤ}

theorem ratio_div (m : ℕ) (e : ℤ) : ((ratio m e).1 / (ratio m e).2 : ℚ) = magnitude m e := by
  rw [ratio, unscale_div, Nat.cast_one, div_one, zpow_neg, div_inv_eq_mul, magnitude]

theorem toPlaces_isNearest (m : ℕ) (e : ℤ) (places : ℕ) :
    IsNearest (magnitude m e * 10 ^ places) (toPlaces m e places) := by
  have hden : 0 < (ratio m e).2 := unscale_pos (-e) Nat.one_pos
  have h := isNearest_roundDiv ((ratio m e).1 * 10 ^ places) hden
  rw [Nat.cast_mul, mul_div_right_comm] at h
  change IsNearest ((ratio m e).1 / (ratio m e).2 * _) _ at h
  rw [ratio_div, Nat.cast_pow, Nat.cast_ofNat] at h
  exact h

theorem magnitude_natCast (m k : ℕ) : magnitude m k = (m * 2 ^ k : ℕ) := by
  rw [magnitude, zpow_natCast, Nat.cast_mul, Nat.cast_pow, Nat.cast_ofNat]

/-- Rounding to places does not lead beyond the greatest double. -/
theorem toPlaces_le_greatest (h : Canonical m e) (places : ℕ) :
    (toPlaces m e places : ℚ) / (10 ^ places : ℕ) ≤ greatest := by
  have hgreatest : greatest = ((2 ^ 53 - 1) * 2 ^ 971 : ℕ) := magnitude_natCast (2 ^ 53 - 1) 971
  generalize (2 ^ 53 - 1) * 2 ^ 971 = bound at hgreatest
  have hle : toPlaces m e places ≤ bound * 10 ^ places := by
    apply (toPlaces_isNearest m e places).le_natCast
    rw [Nat.cast_mul, ← hgreatest, Nat.cast_pow, Nat.cast_ofNat]
    exact mul_le_mul_of_nonneg_right h.magnitude_le (by positivity)
  rw [div_le_iff₀ (by positivity), hgreatest]
  exact_mod_cast hle

/-- The double closest to a rounded decimal is rounded to the same decimal. -/
theorem toPlaces_closest (hc : Canonical m e) (h : Closest (toPlaces m e places / (10 ^ places : ℕ)) m' e') :
    toPlaces m' e' places = toPlaces m e places := by
  have hn := toPlaces_isNearest m e places
  have hle := h.closest m e hc
  generalize toPlaces m e places = count at *
  have hten : (0 : ℚ) < (10 ^ places : ℕ) := by positivity
  have hscale (x : ℚ) :
      |(count / (10 ^ places : ℕ) : ℚ) - x| * (10 ^ places : ℕ) = |x * 10 ^ places - count| := by
    rw [← abs_of_pos hten, ← abs_mul, abs_of_pos hten, sub_mul, div_mul_cancel₀ _ hten.ne', abs_sub_comm]
    push_cast
    rfl
  have hcloser := mul_le_mul_of_nonneg_right hle hten.le
  rw [hscale, hscale] at hcloser
  have hn' : IsNearest (magnitude m' e' * 10 ^ places) count :=
    ⟨hcloser.trans hn.close, fun htie => hn.even (le_antisymm hn.close (htie ▸ hcloser))⟩
  exact (toPlaces_isNearest m' e' places).unique hn'

theorem fixedDigits_eq (count : ℕ) (hp : 0 < places) : ∃ rest, rest.length = places ∧
    (∀ c ∈ rest, isDigit c) ∧ value rest = count % 10 ^ places ∧
    fixedDigits count places = digits (count / 10 ^ places) ++ '.' :: rest := by
  refine ⟨zeros (places - (digits (count % 10 ^ places)).length) ++ digits (count % 10 ^ places), ?_⟩
  refine ⟨?_, ?_, ?_, ?_⟩
  · have hle := length_digits_le hp (Nat.mod_lt count (Nat.pow_pos (n := places) (by decide : 0 < 10)))
    rw [List.length_append, zeros, List.length_replicate, Nat.sub_add_cancel hle]
  · exact List.forall_mem_append.mpr ⟨isDigit_zeros _, (digits_plain _).all.2⟩
  · rw [value_append, zeros, value_replicate_zero, value_digits, zero_mul, zero_add]
  · simp [fixedDigits, hp.ne', zeros]

/-- The digits of a count of decimal places, as a tidy decimal and the zeros behind it. -/
theorem fixedDigits_tidy (count : ℕ) (hp : 0 < places) : ∃ whole fraction k, Tidy whole fraction ∧
    fixedDigits count places = whole ++ '.' :: (fraction ++ zeros k) ∧
    decimal whole fraction = count / 10 ^ places := by
  obtain ⟨rest, hlength, hdigits, hvalue, heq⟩ := fixedDigits_eq count hp
  obtain ⟨fraction, k, rfl, hlast⟩ := exists_strip rest
  obtain ⟨hfraction, -⟩ := List.forall_mem_append.mp hdigits
  refine ⟨_, fraction, k, ⟨digits_plain _, hfraction, hlast⟩, heq, ?_⟩
  rw [List.length_append, zeros, List.length_replicate] at hlength
  have hall : value (digits (count / 10 ^ places) ++ fraction) * 10 ^ k = count := by
    rw [value_append, zeros, value_replicate_zero, List.length_replicate, add_zero] at hvalue
    rw [value_append, value_digits, add_mul, hvalue, mul_assoc, ← pow_add, hlength, Nat.div_add_mod']
  rw [decimal]
  generalize value (digits (count / 10 ^ places) ++ fraction) = v at *
  rw [div_eq_div_iff (by positivity) (by positivity), ← hall, ← hlength, pow_add]
  push_cast
  ring

end Reckoner.Decimal
