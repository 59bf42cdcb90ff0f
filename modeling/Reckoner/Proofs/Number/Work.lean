import Reckoner.Proofs.Number.Estimate
import Reckoner.Proofs.Number.Power

/-! What is computed of products and powers of integers. Guards judge the width of the result by the operands, only
what they let through is computed, and the width is judged again when the result is there. What the guards let
through is at most one bit wider than allowed. -/
namespace Reckoner.Number
open PowerSize

namespace Plan

/-- A plan that does no other work than `work`, and that only if its result is at most one bit too wide. Wider results
are refused, and only results of a single bit are known without work. -/
structure Bounded (bits : UInt64) (work : Work) (plan : Plan) : Prop where
  computed : ∀ w, plan = .compute w → w = work ∧ bitLength w.result ≤ bits.toNat + 1
  refused : bits.toNat + 1 < bitLength work.result → plan = .refused bits
  known : ∀ x, plan = .done (.ok x) → x = .int work.result ∧ bitLength work.result ≤ 1

namespace Bounded

variable {bits : UInt64} {work : Work}

theorem of_refused : Bounded bits work (.refused bits) where
  computed _ h := nomatch h
  refused _ := rfl
  known _ h := nomatch h

theorem of_known (work : Work) (h : bitLength work.result ≤ 1) :
    Bounded bits work (.done (.ok (.int work.result))) where
  computed _ hplan := nomatch hplan
  refused hwide := absurd (h.trans (Nat.le_add_left 1 _)) (not_le.mpr hwide)
  known x hplan := by
    cases hplan
    exact ⟨rfl, h⟩

theorem of_compute (h : bitLength work.result ≤ bits.toNat + 1) : Bounded bits work (.compute work) where
  computed w hplan := by
    cases hplan
    exact ⟨rfl, h⟩
  refused hwide := absurd h (not_le.mpr hwide)
  known _ hplan := nomatch hplan

end Bounded

end Plan

variable {r : Approximation} {bits : UInt64} {a b : Int} {e : ℕ}

/-- Powers as they are planned when their size is estimated with approximations; with roundings to the nearest that is
what the operator does. -/
theorem outcome_powPlan (bits : UInt64) (b : Int) (e : ℕ) :
    (powPlan Approximation.nearest.exceeds bits b e).outcome bits = binary .pow (.int b) (.int e) bits := by
  rw [binary_pow, intPow, Approximation.exceeds_nearest]

@[simp] theorem Work.result_power (b : Int) (e : ℕ) : (Work.power b e).result = b ^ e := rfl

theorem mulPlan_bounded (hbits : bits.toNat ≤ 2 ^ 40) : (mulPlan bits a b).Bounded bits (.product a b) := by
  unfold mulPlan
  rw [toNat_add_one (hbits.trans (by decide))]
  split
  · exact .of_refused
  · next hguard => exact .of_compute ((bitLength_mul_le a b).trans (not_lt.mp hguard))

/-- Only bases of magnitude above one are judged by an estimate. -/
theorem powPlan_of_two_le (he : e ≠ 0) (hb : 2 ≤ b.natAbs) : powPlan r.exceeds bits b e =
    if r.exceeds b.natAbs e bits ∨ 2 ^ 32 ≤ e then .refused bits else .compute (.power b e) := by
  rw [powPlan, if_neg he, if_neg (by omega), if_neg (by omega)]
  rfl

/-- All others have powers that are known, whatever the estimate. -/
theorem powPlan_of_small (h : e = 0 ∨ b.natAbs ≤ 1) : powPlan r.exceeds bits b e = .done (.ok (.int (b ^ e))) := by
  have hdone : ∃ outcome, ∀ exceeds, powPlan exceeds bits b e = .done outcome := by
    by_cases he : e = 0
    · exact ⟨_, fun _ => if_pos he⟩
    · by_cases hunit : b = 0 ∨ b = 1
      · exact ⟨_, fun _ => (if_neg he).trans (if_pos hunit)⟩
      · exact ⟨_, fun _ => (if_neg he).trans ((if_neg hunit).trans (if_pos (by omega)))⟩
  obtain ⟨outcome, hplan⟩ := hdone
  have houtcome := outcome_powPlan bits b e
  rw [hplan, binary_pow, intPow_small h] at houtcome
  rw [hplan]
  exact congrArg Plan.done houtcome

theorem powPlan_bounded (hbits : bits.toNat ≤ 2 ^ 40) : (powPlan r.exceeds bits b e).Bounded bits (.power b e) := by
  by_cases hsmall : e = 0 ∨ b.natAbs ≤ 1
  · rw [powPlan_of_small hsmall]
    exact .of_known (.power b e) (bitLength_pow_le_one hsmall)
  · obtain ⟨he, hb⟩ := not_or.mp hsmall
    rw [powPlan_of_two_le he (not_le.mp hb)]
    split
    · exact .of_refused
    · next hguard =>
      refine .of_compute (bitLength_le_iff.mpr ?_)
      rw [Work.result_power, Int.natAbs_pow]
      exact r.pow_lt (not_le.mp hb) (Nat.pos_of_ne_zero he) hbits (not_or.mp hguard).1

/-- Sizes are checked before the work: however the estimates are rounded, the products and powers that are computed
are at most one bit wider than allowed, and wider ones are refused without being computed. With roundings to the
nearest this is how the operators work. -/
theorem sizes_checked_before_work (r : Approximation) (bits : UInt64) (hbits : bits.toNat ≤ 2 ^ 40) (a b : Int)
    (e : ℕ) :
    (mulPlan bits a b).Bounded bits (.product a b) ∧
    (powPlan r.exceeds bits b e).Bounded bits (.power b e) ∧
    (mulPlan bits a b).outcome bits = binary .mul (.int a) (.int b) bits ∧
    (powPlan Approximation.nearest.exceeds bits b e).outcome bits = binary .pow (.int b) (.int e) bits :=
  ⟨mulPlan_bounded hbits, powPlan_bounded hbits, rfl, outcome_powPlan bits b e⟩

/-- Within eight bits, a product and a power of nine bits are computed before they overflow; a product of fourteen
bits and a power of thirteen are not. -/
theorem nine_bits_computed_within_eight : (8 : UInt64).toNat ≤ 2 ^ 40 ∧
    mulPlan 8 15 31 = .compute (.product 15 31) ∧ bitLength (15 * 31) = 9 ∧
    powPlan Approximation.nearest.exceeds 8 2 8 = .compute (.power 2 8) ∧ bitLength (2 ^ 8) = 9 ∧
    mulPlan 8 100 100 = .refused 8 ∧ powPlan Approximation.nearest.exceeds 8 3 8 = .refused 8 := by
  have hbits : (8 : UInt64).toNat ≤ 2 ^ 40 := by decide
  have hpower : powPlan Approximation.nearest.exceeds 8 2 8 = .compute (.power 2 8) := by
    rw [powPlan_of_two_le (by decide) (by decide), if_neg (by decide +kernel)]
  obtain ⟨hproduct, -⟩ := sizes_checked_before_work .nearest 8 hbits 100 100 0
  obtain ⟨-, hwide, -⟩ := sizes_checked_before_work .nearest 8 hbits 0 3 8
  exact ⟨hbits, rfl, by decide, hpower, by decide, hproduct.refused (by decide), hwide.refused (by decide)⟩

end Reckoner.Number
