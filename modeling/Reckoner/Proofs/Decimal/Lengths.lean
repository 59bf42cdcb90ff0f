import Reckoner.Proofs.Decimal.Leading
import Reckoner.Proofs.Decimal.Written

/-! The texts of doubles are of bounded length: a double is a decimal of at most 770 digits, its shortest decimal
has no more of them, and the power of ten of an exponent has at most four. -/
namespace Reckoner.Decimal
open Binary64

variable {m n : ℕ} {e k : ℤ}

/-- No double has more digits than these. -/
def maxDigits : ℕ := 770

theorem wide_lt : 2 ^ 53 * 2 ^ 971 ≤ 10 ^ maxDigits := by decide +kernel

theorem fine_lt : 2 ^ 53 * 5 ^ 1074 ≤ 10 ^ maxDigits := by decide +kernel

theorem mul_pow_lt {b j limit : ℕ} (hm : m < 2 ^ 53) (hb : 0 < b) (hj : j ≤ limit)
    (h : 2 ^ 53 * b ^ limit ≤ 10 ^ maxDigits) : m * b ^ j < 10 ^ maxDigits :=
  calc m * b ^ j < 2 ^ 53 * b ^ j := Nat.mul_lt_mul_of_pos_right hm (Nat.pow_pos hb)
    _ ≤ 2 ^ 53 * b ^ limit := Nat.mul_le_mul_left _ (Nat.pow_le_pow_right hb hj)
    _ ≤ 10 ^ maxDigits := h

/-- A finite double is a decimal itself. -/
theorem exists_decimal (hc : Canonical m e) :
    ∃ (n : ℕ) (k : ℤ), n < 10 ^ maxDigits ∧ (n * 10 ^ k : ℚ) = magnitude m e := by
  have hleast := hc.least_le
  have hgreatest := hc.le
  unfold leastExponent at hleast
  obtain he | he := le_or_gt 0 e
  · obtain ⟨j, rfl⟩ := Int.eq_ofNat_of_zero_le he
    refine ⟨m * 2 ^ j, 0, mul_pow_lt (b := 2) hc.lt (by decide) (by omega) wide_lt, ?_⟩
    rw [magnitude, zpow_natCast, zpow_zero, mul_one]
    push_cast
    rfl
  · obtain ⟨j, rfl⟩ : ∃ j : ℕ, e = -j := ⟨(-e).toNat, by omega⟩
    refine ⟨m * 5 ^ j, -j, mul_pow_lt (b := 5) hc.lt (by decide) (by omega) fine_lt, ?_⟩
    have hten : (10 : ℚ) ^ j = 5 ^ j * 2 ^ j := by
      rw [← mul_pow]
      norm_num
    rw [magnitude, zpow_neg, zpow_neg, zpow_natCast, zpow_natCast, hten]
    push_cast
    field_simp

theorem length_shortest_le_maxDigits (tie : Tie) (hc : Canonical m e) (hm : 0 < m) :
    (digits (shortest tie m e).digits).length ≤ maxDigits := by
  obtain ⟨n, k, hn, hvalue⟩ := exists_decimal hc
  have hcontains := Interval.contains_centre hm e
  rw [← hvalue] at hcontains
  exact (length_shortest_le tie hm hcontains).trans (length_digits_le (by decide) hn)

/-- The leading power of ten of a double is in the range of doubles. -/
theorem natAbs_leading_lt (tie : Tie) (hc : Canonical m e) (hm : 0 < m) :
    (Layout.leading (shortest tie m e)).natAbs < 1100 := by
  have hd := shortest_identifies tie hm e
  have hpos := hd.digits_pos
  have hhigh := hd.contains.lt_ten_pow hc hm
  have hlow := hd.contains.zpow_le hc hm
  have hten : (10 : ℚ) ^ (-1075 : ℤ) ≤ 2 ^ (-1075 : ℤ) := by
    rw [zpow_neg, zpow_neg]
    exact inv_anti₀ (zpow_pos two_pos _) (zpow_le_zpow_left₀ (by decide) (by norm_num) (by norm_num))
  have hbelow := (zpow_le_iff hpos _ _).mp (hten.trans hlow)
  have habove := mt (zpow_le_iff hpos 309 (shortest tie m e).exponent).mpr (not_le.mpr hhigh)
  rw [Layout.leading]
  omega

theorem length_placePoint_le (pointZero : Bool) (ds : List Char) (k : ℤ) :
    (placePoint pointZero ds k).length ≤ ds.length + k.natAbs + 2 := by
  have hpoint : (if pointZero then ['.', '0'] else []).length ≤ 2 := by
    cases pointZero with
    | false => decide
    | true => decide
  unfold placePoint zeros
  dsimp only
  split
  · rw [List.length_append, List.length_append, List.length_replicate]
    omega
  split
  · rw [List.length_append, List.length_cons, List.length_take, List.length_drop]
    omega
  · simp only [List.cons_append, List.length_cons, List.length_append, List.length_replicate]
    omega

namespace Layout

variable {l : Layout}

theorem length_exponential_le (ds : List Char) (x : ℤ) :
    (l.exponential ds x).length ≤ ds.length + 3 + max l.exponentWidth (digits x.natAbs).length := by
  have hsign : (l.exponentSign x).length ≤ 1 := by
    unfold exponentSign
    split
    · exact le_rfl
    · split <;> simp
  have hmantissa : (Decimal.positional (ds.take 1) (ds.drop 1)).length ≤ ds.length + 1 := by
    rw [Decimal.positional]
    split
    · simp
    · simp only [List.length_append, List.length_cons, List.length_take, List.length_drop]
      omega
  rw [exponential_eq, List.length_append, List.length_cons, List.length_append, exponentDigits, List.length_append,
    zeros, List.length_replicate]
  omega

/-- A layout with a bounded range of positional numbers and exponents of a few digits writes short texts. -/
theorem length_unsigned_le (hc : Canonical m e) (hplace : ∀ x, l.positional x = true → x.natAbs ≤ 16)
    (hwidth : l.exponentWidth ≤ 4) : (l.unsigned m e).length ≤ 800 := by
  obtain rfl | hm := Nat.eq_zero_or_pos m
  · rw [unsigned, if_pos rfl]
    exact (length_placePoint_le _ _ _).trans (by decide)
  have hdigits := length_shortest_le_maxDigits l.tie hc hm
  unfold maxDigits at hdigits
  have hleading := natAbs_leading_lt l.tie hc hm
  rw [unsigned, if_neg hm.ne']
  cases h : l.positional (leading (shortest l.tie m e)) with
  | true =>
    have hnear := hplace _ h
    have hlength := length_placePoint_le l.pointZero (digits (shortest l.tie m e).digits)
      (leading (shortest l.tie m e) + 1)
    rw [leading] at *
    simp only [magnitude, h, if_true]
    omega
  | false =>
    have hpower : (digits (leading (shortest l.tie m e)).natAbs).length ≤ 4 :=
      length_digits_le (by decide) (hleading.trans (by decide))
    rw [magnitude_exponential l h]
    have hlength := length_exponential_le (l := l) (digits (shortest l.tie m e).digits)
      (leading (shortest l.tie m e))
    omega

end Layout
end Reckoner.Decimal
