import Reckoner.Proofs.Number.HalfEven

/-! Integers rounded to multiples of powers of ten. However often that is done, an integer grows by at most
one bit. -/
namespace Reckoner.Number

variable {n m : Int} {k j bits : ℕ}

/-- A multiple of a power of ten next to an integer, which is zero wherever zero is as near as any. -/
structure Rounded (n : Int) (k : ℕ) (m : Int) : Prop where
  dvd : (10 : Int) ^ k ∣ m
  close : 2 * |n - m| ≤ 10 ^ k
  zero : 2 * |n| ≤ 10 ^ k → m = 0

theorem HalfEven.rounded (h : HalfEven n k m) : Rounded n k m where
  dvd := by
    obtain ⟨q, hq, -⟩ := h.even
    exact Dvd.intro_left q hq.symm
  close := h.close
  zero := h.eq_zero

namespace Rounded

variable (h : Rounded n k m)

include h

theorem eq_self (hdvd : (10 : Int) ^ k ∣ n) : m = n := by
  have hpos : (0 : Int) < 10 ^ k := by positivity
  have hclose := h.close
  have hzero := Int.eq_zero_of_abs_lt_dvd (dvd_sub hdvd h.dvd) (by linarith [abs_nonneg (n - m)])
  omega

theorem abs_le_add : 2 * |m| ≤ 2 * |n| + 10 ^ k := by
  have htriangle : |m| ≤ |n| + |n - m| := by
    have := abs_sub_abs_le_abs_sub m n
    rw [abs_sub_comm] at this
    linarith
  linarith [h.close]

/-- Multiples that bound an integer bound what it is rounded to. -/
theorem abs_le_mul {c : Int} (hn : |n| ≤ c * 10 ^ k) : |m| ≤ c * 10 ^ k := by
  have hpos : (0 : Int) < 10 ^ k := by positivity
  obtain ⟨q, hq⟩ := (dvd_abs _ _).mpr h.dvd
  have hle := h.abs_le_add
  rw [hq] at hle ⊢
  have hqc : q ≤ c := by
    by_contra! hlt
    nlinarith
  nlinarith

end Rounded

/-- An integer of some width, perhaps rounded since then: it has grown by less than five ninths of the last
unit, and never past half of a unit. -/
structure Near (bits : ℕ) (n : Int) : Prop where
  unit : ∃ j : ℕ, (10 : Int) ^ j ∣ n ∧ 9 * |n| ≤ 9 * 2 ^ bits + 5 * 10 ^ j
  half : ∀ k : ℕ, (2 : Int) ^ bits ≤ 5 * 10 ^ k → |n| ≤ 5 * 10 ^ k

theorem abs_lt_of_bitLength_le (h : bitLength n ≤ bits) : |n| < 2 ^ bits := by
  rw [← Int.natCast_natAbs]
  exact_mod_cast bitLength_le_iff.mp h

theorem Near.of_bitLength_le (h : bitLength n ≤ bits) : Near bits n where
  unit := ⟨0, by simp, by linarith [abs_lt_of_bitLength_le h]⟩
  half _ hk := (abs_lt_of_bitLength_le h).le.trans hk

theorem Near.neg (h : Near bits n) : Near bits (-n) where
  unit := by
    obtain ⟨j, hdvd, hle⟩ := h.unit
    exact ⟨j, (dvd_neg).mpr hdvd, by rwa [abs_neg]⟩
  half k hk := by
    rw [abs_neg]
    exact h.half k hk

theorem Near.rounded (h : Near bits n) (hm : Rounded n k m) : Near bits m where
  unit := by
    obtain ⟨j, hdvd, hle⟩ := h.unit
    obtain hkj | hjk := le_or_gt k j
    · rw [hm.eq_self ((pow_dvd_pow 10 hkj).trans hdvd)]
      exact ⟨j, hdvd, hle⟩
    · refine ⟨k, hm.dvd, ?_⟩
      have hstep : (10 : Int) * 10 ^ j ≤ 10 ^ k := by
        rw [← pow_succ']
        exact pow_le_pow_right₀ (by decide) hjk
      linarith [hm.abs_le_add]
  half i hi := by
    have hn := h.half i hi
    obtain hki | hik := le_or_gt k i
    · have hsplit : (5 : Int) * 10 ^ i = 5 * 10 ^ (i - k) * 10 ^ k := by
        rw [mul_assoc, ← pow_add, Nat.sub_add_cancel hki]
      rw [hsplit] at hn ⊢
      exact hm.abs_le_mul hn
    · have hstep : (10 : Int) * 10 ^ i ≤ 10 ^ k := by
        rw [← pow_succ']
        exact pow_le_pow_right₀ (by decide) hik
      rw [hm.zero (by linarith), abs_zero]
      positivity

theorem Near.zero (bits : ℕ) : Near bits 0 := .of_bitLength_le (Nat.zero_le bits)

theorem Near.roundIntTo (h : Near bits n) (k : ℕ) : Near bits (roundIntTo n k) := by
  obtain hle | hlt := le_or_gt k (decimalWidth n)
  · exact h.rounded (roundIntTo_halfEven hle).rounded
  · rw [roundIntTo_of_width_lt hlt]
    exact .zero bits

theorem Near.roundInt (h : Near bits n) (places : Int) : Near bits (roundInt n places) := by
  unfold Number.roundInt
  split
  · exact h
  · exact h.roundIntTo _

/-- A unit alone has been reached from above its half. -/
theorem Near.abs_lt_of_unit {j : ℕ} (h : Near bits n) (hn : |n| = 10 ^ j) : |n| < 2 ^ (bits + 1) := by
  have htwo : (0 : Int) < 2 ^ bits := by positivity
  rw [pow_succ]
  cases j with
  | zero =>
    rw [hn]
    linarith
  | succ i =>
    have hten : (0 : Int) < 10 ^ i := by positivity
    by_contra! hge
    rw [hn, pow_succ] at hge
    have hhalf := h.half i (by linarith)
    rw [hn, pow_succ] at hhalf
    linarith

/-- After any number of roundings an integer is at most one bit wider. -/
theorem Near.bitLength_le (h : Near bits n) : bitLength n ≤ bits + 1 := by
  obtain ⟨j, ⟨q, hq⟩, hle⟩ := h.unit
  have habs : |n| = 10 ^ j * |q| := by rw [hq, abs_mul, abs_of_pos (by positivity)]
  have hlt : |n| < 2 ^ (bits + 1) := by
    have htwo : (0 : Int) < 2 ^ bits := by positivity
    have hten : (0 : Int) < 10 ^ j := by positivity
    obtain hzero | hone | hmore : |q| = 0 ∨ |q| = 1 ∨ 2 ≤ |q| := by
      have := abs_nonneg q
      omega
    · rw [habs, hzero, mul_zero]
      positivity
    · exact h.abs_lt_of_unit (by rw [habs, hone, mul_one])
    · have : 2 * 10 ^ j ≤ |n| := by
        rw [habs]
        nlinarith
      rw [pow_succ]
      linarith
  rw [bitLength_le_iff]
  rw [← Int.natCast_natAbs] at hlt
  exact_mod_cast hlt

end Reckoner.Number
