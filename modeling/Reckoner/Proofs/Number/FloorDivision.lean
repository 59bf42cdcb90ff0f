import Mathlib.Algebra.Order.Ring.Int
import Mathlib.Tactic
import Reckoner.Number.Basic

/-! Division of integers that rounds down, got from the one that rounds toward zero. -/
namespace Reckoner.Number

variable {a b : Int}

/-- A quotient rounded down, and a remainder smaller than the divisor and of its sign. -/
structure IsFloorDivision (a b q r : Int) : Prop where
  eq : a = q * b + r
  lt : |r| < |b|
  sign : r = 0 ∨ r.sign = b.sign

namespace IsFloorDivision

variable {q r : Int}

theorem of_pos (hb : 0 < b) (heq : q * b + r = a) (hnonneg : 0 ≤ r) (hlt : r < b) : IsFloorDivision a b q r where
  eq := heq.symm
  lt := by rwa [abs_of_nonneg hnonneg, abs_of_pos hb]
  sign := by
    obtain rfl | hpos := hnonneg.eq_or_lt
    · exact .inl rfl
    · exact .inr (by rw [Int.sign_eq_one_of_pos hpos, Int.sign_eq_one_of_pos hb])

/-- The signs of all but the quotient may be changed together. -/
theorem neg (h : IsFloorDivision (-a) (-b) q (-r)) : IsFloorDivision a b q r where
  eq := by linarith [h.eq]
  lt := by
    rw [← abs_neg r, ← abs_neg b]
    exact h.lt
  sign := by
    have hsign := h.sign
    rwa [neg_eq_zero, Int.sign_neg, Int.sign_neg, neg_inj] at hsign

theorem rest_of_pos (h : IsFloorDivision a b q r) (hb : 0 < b) : 0 ≤ r ∧ r < b := by
  have hlt := (abs_lt.mp (abs_of_pos hb ▸ h.lt)).2
  obtain rfl | hsign := h.sign
  · exact ⟨le_rfl, hb⟩
  · exact ⟨(Int.sign_eq_one_iff_pos.mp (hsign.trans (Int.sign_eq_one_of_pos hb))).le, hlt⟩

/-- The quotient is no larger than the dividend: a remainder on the other side of a multiple of the divisor is smaller
than the divisor. -/
theorem natAbs_quotient_le_of_pos (h : IsFloorDivision a b q r) (hb : 0 < b) : q.natAbs ≤ a.natAbs := by
  obtain ⟨hnonneg, hlt⟩ := h.rest_of_pos hb
  have heq := h.eq
  obtain hq | hq := lt_or_ge q 0
  · have hstep : (q + 1) * b ≤ q + 1 := by nlinarith
    have : (q + 1) * b = q * b + b := by ring
    omega
  · have hstep : q ≤ q * b := by nlinarith
    omega

theorem natAbs_quotient_le (h : IsFloorDivision a b q r) (hb : b ≠ 0) : q.natAbs ≤ a.natAbs := by
  obtain hneg | hpos := lt_or_gt_of_ne hb
  · have hopposite : IsFloorDivision (-a) (-b) q (-r) := .neg (by simpa using h)
    rw [← Int.natAbs_neg a]
    exact hopposite.natAbs_quotient_le_of_pos (by omega)
  · exact h.natAbs_quotient_le_of_pos hpos

theorem natAbs_rest_le (h : IsFloorDivision a b q r) : r.natAbs ≤ b.natAbs := by
  have hlt := h.lt
  rw [Int.abs_eq_natAbs, Int.abs_eq_natAbs] at hlt
  exact_mod_cast hlt.le

end IsFloorDivision

/-- A division that rounds toward zero leaves a remainder on either side of zero, smaller than the divisor. -/
theorem abs_tmod_lt (a : Int) (hb : b ≠ 0) : |a.tmod b| < |b| := by
  have hlt : (a.tmod b).natAbs < b.natAbs := by
    rw [Int.natAbs_tmod]
    exact Nat.mod_lt _ (Int.natAbs_pos.mpr hb)
  rw [Int.abs_eq_natAbs, Int.abs_eq_natAbs]
  exact_mod_cast hlt

/-- Correcting the sign of the remainder makes the division round down. -/
theorem intDivMod_isFloorDivision (a : Int) (hb : b ≠ 0) :
    ∃ q r, intDivMod a b = .ok (q, r) ∧ IsFloorDivision a b q r := by
  have heq := Int.tdiv_mul_add_tmod a b
  obtain ⟨hlow, hhigh⟩ := abs_lt.mp (abs_tmod_lt a hb)
  rw [intDivMod, if_neg hb]
  dsimp only
  generalize a.tdiv b = q, a.tmod b = r at *
  obtain hneg | hpos := lt_or_gt_of_ne hb
  · rw [abs_of_neg hneg] at hlow hhigh
    obtain hrest | hrest := le_or_gt r 0
    · rw [if_neg (by simp; omega)]
      exact ⟨q, r, rfl, .neg (.of_pos (by omega) (by linarith) (by omega) (by omega))⟩
    · rw [if_pos ⟨hrest.ne', by simp; omega⟩]
      exact ⟨q - 1, r + b, rfl, .neg (.of_pos (by omega) (by linarith) (by omega) (by omega))⟩
  · rw [abs_of_pos hpos] at hlow hhigh
    obtain hrest | hrest := lt_or_ge r 0
    · rw [if_pos ⟨hrest.ne, by simp; omega⟩]
      exact ⟨q - 1, r + b, rfl, .of_pos hpos (by linarith) (by omega) (by omega)⟩
    · rw [if_neg (by simp; omega)]
      exact ⟨q, r, rfl, .of_pos hpos heq hrest hhigh⟩

end Reckoner.Number
