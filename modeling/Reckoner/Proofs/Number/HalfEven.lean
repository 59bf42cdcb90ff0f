import Reckoner.Proofs.Number.DecimalWidth
import Reckoner.Proofs.Number.FloorDivision
import Reckoner.Proofs.Number.Width

/-! Integers rounded to places. The multiple of the power of ten that is nearest is taken, and in the middle
between two of them the even one; the width of the integer decides only where that is zero. -/
namespace Reckoner.Number

variable {n m m' places : Int} {k : ℕ}

/-- The multiple of a power of ten nearest to an integer; from the middle the even multiple. -/
structure HalfEven (n : Int) (k : ℕ) (m : Int) : Prop where
  close : 2 * |n - m| ≤ 10 ^ k
  even : ∃ q, m = q * 10 ^ k ∧ (2 * |n - m| = 10 ^ k → q % 2 = 0)

namespace HalfEven

/-- Of the multiples below and above, the nearer one is taken, and the even one in the middle. -/
theorem of_unit {unit below rest : Int} (hunit : unit = 10 ^ k) (hn : n = below * unit + rest)
    (hnonneg : 0 ≤ rest) (hlt : rest < unit) :
    HalfEven n k
      ((if unit < rest * 2 ∨ (rest * 2 = unit ∧ below % 2 = 1) then below + 1 else below) * unit) := by
  split
  · have hdist : |n - (below + 1) * unit| = unit - rest := by
      have hdiff : n - (below + 1) * unit = -(unit - rest) := by
        rw [hn]
        ring
      rw [hdiff, abs_neg, abs_of_pos (by linarith)]
    refine ⟨by omega, below + 1, by rw [hunit], ?_⟩
    rw [hdist, ← hunit]
    omega
  · have hdist : |n - below * unit| = rest := by
      have hdiff : n - below * unit = rest := by
        rw [hn]
        ring
      rw [hdiff, abs_of_nonneg hnonneg]
    refine ⟨by omega, below, by rw [hunit], ?_⟩
    rw [hdist, ← hunit]
    omega

theorem neg (h : HalfEven n k m) : HalfEven (-n) k (-m) := by
  obtain ⟨hclose, q, rfl, heven⟩ := h
  have hdist : |(-n) - (-(q * 10 ^ k))| = |n - q * 10 ^ k| := by
    rw [← abs_neg]
    congr 1
    ring
  refine ⟨hdist ▸ hclose, -q, by ring, fun htie => ?_⟩
  have := heven (hdist ▸ htie)
  omega

/-- No two multiples are as near, one of them being odd where both are in reach. -/
theorem unique (h : HalfEven n k m) (h' : HalfEven n k m') : m = m' := by
  obtain ⟨hclose, q, rfl, heven⟩ := h
  obtain ⟨hclose', q', rfl, heven'⟩ := h'
  have hpos : (0 : Int) < 10 ^ k := by positivity
  have hdist : |q - q'| * 10 ^ k ≤ |n - q * 10 ^ k| + |n - q' * 10 ^ k| := by
    have hsplit : |q - q'| * 10 ^ k = |(n - q' * 10 ^ k) - (n - q * 10 ^ k)| := by
      rw [← abs_of_pos hpos, ← abs_mul, abs_of_pos hpos]
      congr 1
      ring
    rw [hsplit, add_comm]
    exact abs_sub _ _
  have hone : |q - q'| ≤ 1 := by
    by_contra! hlt
    nlinarith
  obtain hzero | hnext : |q - q'| = 0 ∨ |q - q'| = 1 := by
    have := abs_nonneg (q - q')
    omega
  · rw [sub_eq_zero.mp (abs_eq_zero.mp hzero)]
  · -- both are half a unit away, but neighbours are not both even
    rw [hnext, one_mul] at hdist
    have hq := heven (by omega)
    have hq' := heven' (by omega)
    obtain hup | hdown := (abs_eq zero_le_one).mp hnext <;> omega

theorem zero_of_lt (h : 2 * |n| < 10 ^ k) : HalfEven n k 0 where
  close := by
    rw [sub_zero]
    exact h.le
  even := ⟨0, by ring, fun _ => rfl⟩

/-- Zero is the multiple for every integer up to half a unit. -/
theorem eq_zero (h : HalfEven n k m) (hn : 2 * |n| ≤ 10 ^ k) : m = 0 :=
  h.unique ⟨by rwa [sub_zero], 0, by ring, fun _ => rfl⟩

end HalfEven

theorem roundIntTo_of_width_lt (h : decimalWidth n < k) : roundIntTo n k = 0 := if_pos h

theorem roundIntTo_halfEven (h : k ≤ decimalWidth n) : HalfEven n (k % UInt32.size) (roundIntTo n k) := by
  rw [roundIntTo, if_neg (not_lt.mpr h)]
  have hunit : ((Nat.pow 10 (k % UInt32.size) : ℕ) : Int) = 10 ^ (k % UInt32.size) := by
    rw [Nat.pow_eq]
    norm_cast
  have hpos : (0 : Int) < (Nat.pow 10 (k % UInt32.size) : ℕ) := by
    rw [hunit]
    positivity
  obtain ⟨below, rest, heq, h⟩ := intDivMod_isFloorDivision n hpos.ne'
  obtain ⟨hnonneg, hlt⟩ := h.rest_of_pos hpos
  dsimp only
  rw [heq]
  exact .of_unit hunit h.eq hnonneg hlt

/-- Below `2 ^ 32` bits neither the estimated width nor the power of ten leads astray. -/
theorem roundIntTo_nearest (h : bitLength n < 2 ^ 32) (k : ℕ) : HalfEven n k (roundIntTo n k) := by
  obtain ⟨-, hwidth⟩ := decimalWidth_bounds h
  obtain hle | hlt := le_or_gt k (decimalWidth n)
  · have hmod : k % UInt32.size = k := Nat.mod_eq_of_lt (hle.trans_lt hwidth)
    have hnearest := roundIntTo_halfEven hle
    rwa [hmod] at hnearest
  · rw [roundIntTo_of_width_lt hlt]
    apply HalfEven.zero_of_lt
    have habs : |n| < 2 ^ bitLength n := by
      rw [← Int.natCast_natAbs]
      exact_mod_cast bitLength_le_iff.mp (le_refl (bitLength n))
    have hpow : (2 : Int) ^ (bitLength n + 1) ≤ 10 ^ k := by
      have : 2 ^ (bitLength n + 1) ≤ 10 ^ k :=
        (pow_le_decimalWidth h).trans (Nat.pow_le_pow_right (by decide) hlt)
      exact_mod_cast this
    rw [pow_succ] at hpow
    linarith

theorem bitLength_neg (n : Int) : bitLength (-n) = bitLength n := by
  simp only [bitLength, neg_eq_zero, Int.natAbs_neg]

theorem roundIntTo_neg (h : bitLength n < 2 ^ 32) (k : ℕ) : roundIntTo (-n) k = -roundIntTo n k :=
  (roundIntTo_nearest ((bitLength_neg n).symm ▸ h) k).unique (roundIntTo_nearest h k).neg

/-- Integers of less than `2 ^ 32` bits are rounded to the nearest multiple of the unit, halves to the even one,
and the opposite integer to the opposite multiple. Where the unit has more places than the estimated width, that is
zero; without places before the point nothing changes. -/
theorem round_int_half_even (h : bitLength n < 2 ^ 32) (places : Int) : ∃ r : Int,
    Function.round.call [.int n, .int places] = .ok (.int r) ∧
    Function.round.call [.int (-n), .int places] = .ok (.int (-r)) ∧
    (0 ≤ places → r = n) ∧
    ∀ k : ℕ, 1 ≤ k → places = -k →
      (∃ q, r = q * 10 ^ k ∧ |n - r| * 2 ≤ 10 ^ k ∧ (|n - r| * 2 = 10 ^ k → Even q)) ∧
      (decimalWidth n < k → r = 0) := by
  have hcall (n : Int) : Function.round.call [.int n, .int places] = .ok (.int (roundInt n places)) := rfl
  refine ⟨roundInt n places, hcall n, ?_, fun hplaces => if_pos hplaces, fun k hk hplaces => ?_⟩
  · rw [hcall, roundInt, roundInt]
    split
    · rfl
    · rw [roundIntTo_neg h]
  · have hround : roundInt n places = roundIntTo n k := by
      rw [roundInt, if_neg (by omega), hplaces, Int.natAbs_neg, Int.natAbs_natCast]
    obtain ⟨hclose, q, hq, heven⟩ := roundIntTo_nearest h k
    rw [hround]
    refine ⟨⟨q, hq, by rwa [mul_comm], fun htie => ?_⟩, roundIntTo_of_width_lt⟩
    rw [mul_comm] at htie
    exact Int.even_iff.mpr (heven htie)

/-- A tie, whose even multiple lies above it. -/
theorem negative_tie_rounded_up : bitLength (-25) < 2 ^ 32 ∧ ∃ r : Int,
    Function.round.call [.int (-25), .int (-1)] = .ok (.int r) ∧
    Function.round.call [.int (- -25), .int (-1)] = .ok (.int (-r)) ∧
    (0 ≤ (-1 : Int) → r = -25) ∧
    ∀ k : ℕ, 1 ≤ k → (-1 : Int) = -k →
      (∃ q, r = q * 10 ^ k ∧ |-25 - r| * 2 ≤ 10 ^ k ∧ (|-25 - r| * 2 = 10 ^ k → Even q)) ∧
      (decimalWidth (-25) < k → r = 0) := by
  have hbits : bitLength (-25) < 2 ^ 32 := by decide
  exact ⟨hbits, round_int_half_even hbits (-1)⟩

example : roundInt (-25) (-1) = -20 := by decide +kernel

end Reckoner.Number
