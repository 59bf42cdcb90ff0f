import Reckoner.Proofs.Binary64.Values

/-! The order of doubles that are not negative is the order of the numbers that they stand for. -/
namespace Reckoner.Binary64
open Float.Model UnpackedFloat

variable {x y : Float} {m m' : ℕ} {e e' : ℤ} {v w : ℚ}

/-- Exponents are compared before significands. -/
def CodesBefore (m : ℕ) (e : ℤ) (m' : ℕ) (e' : ℤ) : Prop := e < e' ∨ e = e' ∧ m < m'

/-- A smaller exponent means a smaller number, for the greater one has all of its 53 bits. -/
theorem CodesBefore.magnitude_lt (h : CodesBefore m e m' e') (hc : Canonical m e) (hc' : Canonical m' e') :
    magnitude m e < magnitude m' e' := by
  obtain he | ⟨rfl, hm⟩ := h
  · have hnext : magnitude (2 ^ 53) e ≤ magnitude m' e' :=
      magnitude_le_of_lt he le_rfl (hc'.normal (lt_of_le_of_lt hc.least_le he))
    have hlt : magnitude m e < magnitude (2 ^ 53) e :=
      mul_lt_mul_of_pos_right (mod_cast hc.lt) (zpow_pos two_pos e)
    exact hlt.trans_le hnext
  · exact mul_lt_mul_of_pos_right (mod_cast hm) (zpow_pos two_pos e)

theorem codesBefore_iff (hc : Canonical m e) (hc' : Canonical m' e') :
    CodesBefore m e m' e' ↔ magnitude m e < magnitude m' e' := by
  refine ⟨fun h => h.magnitude_lt hc hc', fun h => ?_⟩
  by_contra hnot
  have hback : CodesBefore m' e' m e ∨ m = m' ∧ e = e' := by
    unfold CodesBefore at *
    omega
  obtain hback | ⟨rfl, rfl⟩ := hback
  · exact lt_asymm h (hback.magnitude_lt hc' hc)
  · exact lt_irrefl _ h

theorem compare_finite_iff {hm : 0 < m} {hm' : 0 < m'} :
    UnpackedFloat.lt (.finite .positive m e hm) (.finite .positive m' e' hm') = true ↔ CodesBefore m e m' e' := by
  simp only [UnpackedFloat.lt, UnpackedFloat.compare, beq_iff_eq, Option.some.injEq, Ordering.then_eq_lt,
    compare_lt_iff_lt, compare_eq_iff_eq]
  rfl

theorem magnitude_pos_iff (m : ℕ) (e : ℤ) : 0 < magnitude m e ↔ 0 < m := by
  rw [magnitude, mul_pos_iff_of_pos_right (zpow_pos two_pos e), Nat.cast_pos]

/-- Doubles that are not negative compare as their values. -/
theorem HasValue.lt_iff (hx : HasValue x false v) (hy : HasValue y false w) : x < y ↔ v < w := by
  obtain ⟨m, e, hc, rfl, rfl⟩ := hx
  obtain ⟨m', e', hc', rfl, rfl⟩ := hy
  change decide (_ < _) = true ↔ _
  rw [decide_eq_true_iff]
  change UnpackedFloat.lt _ _ = true ↔ _
  obtain ⟨rfl, hu⟩ | ⟨hm, hu⟩ := unpack_pack_cases false hc
  · have hzero : magnitude 0 e = 0 := by rw [magnitude, Nat.cast_zero, zero_mul]
    rw [hu, hzero, magnitude_pos_iff]
    obtain ⟨rfl, hu'⟩ | ⟨hm', hu'⟩ := unpack_pack_cases false hc'
    · rw [hu']
      exact iff_of_false (by decide) (lt_irrefl 0)
    · rw [hu']
      exact iff_of_true rfl hm'
  · obtain ⟨rfl, hu'⟩ | ⟨hm', hu'⟩ := unpack_pack_cases false hc'
    · have hzero : magnitude 0 e' = 0 := by rw [magnitude, Nat.cast_zero, zero_mul]
      rw [hu, hu', hzero]
      exact iff_of_false Bool.false_ne_true (not_lt.mpr (magnitude_nonneg m e))
    · rw [hu, hu', ← codesBefore_iff hc hc']
      exact compare_finite_iff

end Reckoner.Binary64
