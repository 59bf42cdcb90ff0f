import Reckoner.Proofs.Decimal.Fixed

/-! Decimals of at most fifteen digits. Doubles lie closer together than these, so such a decimal is the
shortest one of the double next to it; and a tidy text is told by its value. -/
namespace Reckoner
open Binary64

variable {whole whole' fraction fraction' : List Char} {tie : Decimal.Tie} {m n f num den : ℕ} {k e : ℤ} {q : ℚ}

namespace Decimal.Tidy

theorem value_mod_ne_zero (h : Tidy whole fraction) (hne : fraction ≠ []) :
    value (whole ++ fraction) % 10 ≠ 0 := by
  obtain ⟨ds, c, rfl⟩ := (List.eq_nil_or_concat' fraction).resolve_left hne
  have hc : c ≠ '0' := fun hc => h.last (by simp [hc])
  have hne : c.toNat ≠ '0'.toNat := fun h => hc (Char.toNat_inj.mp h)
  obtain ⟨hlow, hhigh⟩ := isDigit_iff.mp (h.digits c (by simp))
  have hzero : '0'.toNat = 48 := rfl
  have hnine : '9'.toNat = 57 := rfl
  rw [← List.append_assoc, value_snoc]
  omega

/-- The value tells how many digits stand behind the point. -/
theorem length_le (h' : Tidy whole' fraction')
    (hvalue : decimal whole fraction = decimal whole' fraction') : fraction'.length ≤ fraction.length := by
  by_contra! hlt
  obtain ⟨j, hj⟩ := Nat.exists_eq_add_of_lt hlt
  have hne : fraction' ≠ [] := List.ne_nil_of_length_pos (by omega)
  rw [decimal, decimal, div_eq_div_iff (by positivity) (by positivity), hj] at hvalue
  have hpow : value (whole ++ fraction) * 10 ^ (fraction.length + j + 1) =
      value (whole' ++ fraction') * 10 ^ fraction.length := mod_cast hvalue
  rw [add_assoc, pow_add, mul_comm (10 ^ fraction.length), ← mul_assoc] at hpow
  have heq := Nat.eq_of_mul_eq_mul_right (Nat.pow_pos (by decide)) hpow
  refine h'.value_mod_ne_zero hne ?_
  rw [← heq, pow_succ, ← mul_assoc, Nat.mul_mod_left]

/-- Tidy texts are told by their values. -/
theorem unique (h : Tidy whole fraction) (h' : Tidy whole' fraction')
    (hvalue : decimal whole fraction = decimal whole' fraction') : whole = whole' ∧ fraction = fraction' := by
  have hlength := Nat.le_antisymm (h.length_le hvalue.symm) (h'.length_le hvalue)
  rw [decimal, decimal, hlength, div_left_inj' (by positivity), Nat.cast_inj, value_append, value_append,
    hlength] at hvalue
  have hlt := value_lt h.digits
  have hlt' := value_lt h'.digits
  rw [hlength] at hlt
  have hfraction := congrArg (· % 10 ^ fraction'.length) hvalue
  simp only [Nat.mul_add_mod', Nat.mod_eq_of_lt hlt, Nat.mod_eq_of_lt hlt'] at hfraction
  rw [hfraction] at hvalue
  have hwhole := Nat.eq_of_mul_eq_mul_right (Nat.pow_pos (by decide)) (Nat.add_right_cancel hvalue)
  refine ⟨?_, eq_of_value_eq h.digits h'.digits hlength hfraction⟩
  rw [← h.plain.digits_value, hwhole, h'.plain.digits_value]

end Decimal.Tidy

namespace Binary64
open Decimal

theorem magnitude_quarter (n : ℕ) (e : ℤ) : magnitude n (e - 2) = n / 4 * 2 ^ e := by
  rw [magnitude, zpow_sub₀ two_ne_zero]
  norm_num
  ring

namespace Rounds

/-- Only to an even significand the middle between two neighbours is rounded. -/
theorem strict_bounds (h : Rounds leastExponent q m e) (hodd : m % 2 ≠ 0) :
    (m - 1 / 2) * 2 ^ e < q ∧ q < (m + 1 / 2) * 2 ^ e := by
  have hpos : (0 : ℚ) < 2 ^ e := zpow_pos two_pos e
  have hlt : |q / 2 ^ e - m| < 1 / 2 := lt_of_le_of_ne h.nearest.close fun htie => hodd (h.nearest.even htie)
  obtain ⟨hlow, hhigh⟩ := abs_lt.mp hlt
  exact ⟨(lt_div_iff₀ hpos).mp (by linarith), (div_lt_iff₀ hpos).mp (by linarith)⟩

/-- What rounds to a double without a carry is in its interval. -/
theorem contains (h : Rounds leastExponent q m e) (hm : 0 < m) : (Interval.around m e).Contains q := by
  obtain ⟨hlow, hhigh⟩ := h.bounds
  have hend := (Interval.ends hm e).2
  have hexponent : (Interval.around m e).exponent = e - 2 := rfl
  by_cases hleast : m = leastNormal ∧ e ≠ leastExponent
  · -- the doubles below lie closer, but what rounds to them has a smaller exponent
    have hpow := h.normal (lt_of_le_of_ne h.least_le (Ne.symm hleast.2))
    have hlt : magnitude (Interval.around m e).low (e - 2) < q := by
      have hcentre : magnitude (4 * m) (e - 2) = 2 ^ (e + 52) := by
        rw [Interval.magnitude_quarters, hleast.1]
        exact magnitude_pow 52 e
      refine lt_of_lt_of_le (mul_lt_mul_of_pos_right ?_ (zpow_pos two_pos _)) (hcentre.trans_le hpow)
      rw [Nat.cast_lt, Interval.around, if_pos hleast]
      change 4 * m - 1 < 4 * m
      omega
    have hclosed : (Interval.around m e).closed = true := by
      rw [Interval.around, hleast.1]
      rfl
    rw [Interval.contains_iff_of_closed hclosed, hexponent, hend]
    exact ⟨hlt.le, hhigh⟩
  · have hstart : magnitude (Interval.around m e).low (e - 2) = (m - 1 / 2) * 2 ^ e := by
      rw [Interval.around, if_neg hleast, magnitude_quarter, Nat.cast_sub (by omega)]
      push_cast
      ring
    refine ⟨by rwa [hexponent, hstart], by rwa [hexponent, hend], fun hopen => ?_⟩
    rw [hexponent, hstart, hend]
    exact h.strict_bounds (by simpa [Interval.around] using hopen)

theorem contains_carry (h : Rounds leastExponent q (2 ^ 53) e) :
    (Interval.around (2 ^ 52) (e + 1)).Contains q := by
  have hne : e + 1 ≠ leastExponent := by linarith [h.least_le]
  have htwo : (2 : ℚ) ^ (e + 1) = 2 * 2 ^ e := by rw [zpow_add_one₀ two_ne_zero, mul_comm]
  have hexponent : (Interval.around (2 ^ 52) (e + 1)).exponent = e + 1 - 2 := rfl
  have hlow : (Interval.around (2 ^ 52) (e + 1)).low = 4 * 2 ^ 52 - 1 := if_pos ⟨rfl, hne⟩
  rw [Interval.contains_iff_of_closed rfl, hexponent, hlow, (Interval.ends (by decide) (e + 1)).2,
    magnitude_quarter, htwo]
  constructor
  · have := h.bounds.1
    push_cast at this ⊢
    norm_num at this ⊢
    linarith
  · have hlt := h.lt
    rw [zpow_add₀ two_ne_zero, mul_comm] at hlt
    have hpos : (0 : ℚ) < 2 ^ e := zpow_pos two_pos e
    norm_num at hlt ⊢
    linarith

end Rounds

/-- The double next to a quotient within the range of doubles has the quotient in its interval. -/
theorem exists_contains (hnum : 0 < num) (hden : 0 < den) (hleast : 2 ^ leastExponent ≤ (num / den : ℚ))
    (hgreatest : num / den ≤ greatest) : ∃ m e, Canonical m e ∧ 0 < m ∧ (Interval.around m e).Contains (num / den) ∧
      ∀ negative, Binary64.nearest negative num den = pack negative m e := by
  have h := significand_rounds leastExponent hnum hden
  have hnearest (negative : Bool) := nearest_eq_pack negative hnum hden h
  generalize (significand leastExponent num den).1 = m at *
  generalize (significand leastExponent num den).2 = e at *
  have hm : 0 < m := by
    obtain hlt | rfl := h.least_le.lt_or_eq
    · exact lt_of_lt_of_le (by decide) (h.pow_le hlt)
    · refine h.nearest.natCast_le ?_
      rwa [Nat.cast_one, one_le_div (zpow_pos two_pos _)]
  obtain hcanonical | ⟨rfl, hcanonical⟩ := h.canonical_or_carry hgreatest
  · exact ⟨m, e, hcanonical, hm, h.contains hm, hnearest⟩
  · exact ⟨2 ^ 52, e + 1, hcanonical, by decide, h.contains_carry,
      fun negative => (hnearest negative).trans (pack_carry negative h.least_le)⟩

end Binary64

namespace Decimal

/-- On a grid whose steps are wider than the interval of a double lies at most one number of the interval,
and that is the shortest one. -/
theorem shortest_of_sparse (hm : 0 < m) (h : (Interval.around m e).Contains (n * 10 ^ k))
    (hsparse : (2 : ℚ) ^ e < 10 ^ k) (tie : Tie) :
    ((shortest tie m e).digits : ℚ) * 10 ^ (shortest tie m e).exponent = n * 10 ^ k := by
  have hle : k ≤ (shortest tie m e).exponent := by
    by_contra! hlt
    exact shortest_coarsest tie hm e hlt ⟨n, h⟩
  have hshortest := (shortest_identifies tie hm e).contains
  generalize shortest tie m e = d at *
  obtain ⟨j, hj⟩ := Int.eq_ofNat_of_zero_le (sub_nonneg.mpr hle)
  have hten : (0 : ℚ) < 10 ^ k := zpow_pos (by norm_num) k
  have hgrid : (d.digits : ℚ) * 10 ^ d.exponent = (d.digits * 10 ^ j : ℕ) * 10 ^ k := by
    rw [← sub_add_cancel d.exponent k, hj, zpow_add₀ (by norm_num)]
    push_cast
    rw [zpow_natCast]
    ring
  rw [hgrid] at hshortest ⊢
  generalize d.digits * 10 ^ j = c at *
  obtain ⟨hlow, hhigh⟩ := h.bounds hm
  obtain ⟨hlow', hhigh'⟩ := hshortest.bounds hm
  have hlt : |((c : ℤ) - n : ℚ)| < 1 := by
    have hwidth : |(c * 10 ^ k - n * 10 ^ k : ℚ)| < 10 ^ k :=
      lt_of_le_of_lt (abs_le.mpr ⟨by linarith, by linarith⟩) hsparse
    rwa [← sub_mul, abs_mul, abs_of_pos hten, mul_lt_iff_lt_one_left hten] at hwidth
  have hsame : (c : ℤ) - n = 0 := Int.abs_lt_one_iff.mp (by exact_mod_cast hlt)
  have hc : c = n := by omega
  rw [hc]

/-- Doubles lie closer together than decimals of fifteen digits. -/
theorem sparse_of_few_digits (hc : Canonical m e) (hm : 0 < m) (h : (Interval.around m e).Contains (n * 10 ^ k))
    (hn : n < 10 ^ 15) (hk : -15 ≤ k) : (2 : ℚ) ^ e < 10 ^ k := by
  obtain hlt | rfl := hc.least_le.lt_or_eq
  · have hlong : ((2 ^ 52 : ℕ) : ℚ) ≤ m := mod_cast hc.normal hlt
    have hdigits : ((n : ℕ) : ℚ) < (10 ^ 15 : ℕ) := mod_cast hn
    have hpos : (0 : ℚ) < 2 ^ e := zpow_pos two_pos e
    have hten : (0 : ℚ) < 10 ^ k := zpow_pos (by norm_num) k
    have hlow := (h.bounds hm).1
    push_cast at hlong hdigits
    nlinarith
  · calc (2 : ℚ) ^ leastExponent < 2 ^ (-60 : ℤ) := zpow_lt_zpow_right₀ one_lt_two (by decide)
      _ ≤ 10 ^ (-15 : ℤ) := by norm_num
      _ ≤ 10 ^ k := zpow_le_zpow_right₀ (by norm_num) hk

end Decimal
end Reckoner
