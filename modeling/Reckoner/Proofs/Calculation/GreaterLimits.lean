import Reckoner.Proofs.Calculation.Outcome

/-! Greater limits keep every result, up to the one width at which the bound on the widths of two factors
wraps to zero. -/
namespace Reckoner

/-- No limit of the one is greater than the same limit of the other. -/
structure Limits.Within (limits limits' : Limits) : Prop where
  maxInputLength : limits.maxInputLength ≤ limits'.maxInputLength
  maxDepth : limits.maxDepth ≤ limits'.maxDepth
  maxIntBits : limits.maxIntBits ≤ limits'.maxIntBits
  gasLimit : limits.gasLimit ≤ limits'.gasLimit

namespace Calculation

variable {limits limits' : Limits} {s : String} {tree : Expr}

theorem Fits.mono (h : limits.Within limits') (hfits : Fits limits s tree) : Fits limits' s tree where
  length := hfits.length.trans (UInt64.le_iff_toNat_le.mp h.maxInputLength)
  depth := hfits.depth.trans (UInt32.le_iff_toNat_le.mp h.maxDepth)
  nodes := hfits.nodes.trans (UInt64.le_iff_toNat_le.mp h.gasLimit)

theorem evaluate_keeps (h : limits.Within limits') (hsucc : limits.maxIntBits + 1 ≤ limits'.maxIntBits + 1)
    (s : String) : Keeps (evaluate limits s) (evaluate limits' s) := by
  intro v hv
  obtain ⟨ts, e, hr, hfits, hvalue⟩ := evaluate_eq_ok_iff.mp hv
  have hallows : Allows limits'.maxIntBits limits.maxIntBits := ⟨h.maxIntBits, hsucc⟩
  exact evaluate_eq_ok_iff.mpr ⟨ts, e, hr, hfits.mono h, Evaluator.value_keeps hallows e v hvalue⟩

theorem calculate_keeps (h : limits.Within limits') (hsucc : limits.maxIntBits + 1 ≤ limits'.maxIntBits + 1)
    (text : String) : Keeps (calculate limits text) (calculate limits' text) := by
  intro d hd
  rw [calculate_eq_ok_iff] at hd ⊢
  split at hd
  · next hempty =>
    rw [if_pos hempty]
    exact hd
  · next hempty =>
    rw [if_neg hempty]
    obtain ⟨v, hv, hshown⟩ := hd
    exact ⟨v, evaluate_keeps h hsucc _ v hv, hshown⟩

/-- One times zero. -/
def product : Expr := .binary .mul (.int 1 ⟨0, 1⟩) (.int 0 ⟨2, 3⟩) ⟨0, 3⟩

theorem product_reading : ∃ ts, Reading "1*0" ts product :=
  ⟨[⟨.int 1, ⟨0, 1⟩⟩, ⟨.star, ⟨1, 2⟩⟩, ⟨.int 0, ⟨2, 3⟩⟩], ⟨⟨.endOfInput, ⟨3, 3⟩⟩, rfl, by cbv⟩,
    .term (.product (.factor (.unsigned (.base (.primary (.int rfl))))) .star
      (.unsigned (.base (.primary (.int rfl))))),
    fun _ h => by cases h⟩

/-- A product of one and zero needs a bound of at least one on the widths of its factors. -/
theorem value_product (bits : UInt64) : Evaluator.value bits product =
    if bits + 1 = 0 then .error (.overflow (.integerWidth bits)) else .ok (.int 0) := by
  change Number.intMul bits 1 0 = _
  rw [Number.intMul_eq]
  have hone : bitLength 1 + bitLength 0 = 1 := by decide
  have hzero : bits + 1 = 0 ↔ (bits + 1).toNat < 1 := by
    rw [Nat.lt_one_iff, ← UInt64.toNat_zero, UInt64.toNat_inj]
  simp only [hone, hzero]
  split
  · rfl
  · exact if_neg (Nat.not_lt_zero _)

/-- The width that wraps is the greatest one, and it wraps to zero. -/
theorem succ_eq_zero_of_lt {bits bits' : UInt64} (hle : bits ≤ bits') (hlt : bits' + 1 < bits + 1) :
    bits' + 1 = 0 := by
  rw [UInt64.le_iff_toNat_le] at hle
  rw [UInt64.lt_iff_toNat_lt, UInt64.toNat_add, UInt64.toNat_add] at hlt
  rw [← UInt64.toNat_inj, UInt64.toNat_add]
  have := bits'.toNat_lt
  simp only [UInt64.toNat_one, UInt64.toNat_zero] at hlt ⊢
  omega

/-- Greater limits keep every value and every display as long as the bound on the widths of two factors is
not smaller. It is smaller only if it has wrapped, and the product of one and zero is lost then. -/
theorem greater_limits_keep_results (limits limits' : Limits) (h : limits.Within limits') :
    (limits.maxIntBits + 1 ≤ limits'.maxIntBits + 1 → ∀ text,
      Keeps (evaluate limits text) (evaluate limits' text) ∧
      Keeps (calculate limits text) (calculate limits' text)) ∧
    (limits'.maxIntBits + 1 < limits.maxIntBits + 1 → Fits limits "1*0" product →
      evaluate limits "1*0" = .ok (.int 0) ∧
      evaluate limits' "1*0" = .error (EvalError.overflow (.integerWidth limits'.maxIntBits)).diagnostic) := by
  refine ⟨fun hsucc text => ⟨evaluate_keeps h hsucc text, calculate_keeps h hsucc text⟩,
    fun hlt hfits => ?_⟩
  obtain ⟨ts, hr⟩ := product_reading
  have hwraps := succ_eq_zero_of_lt h.maxIntBits hlt
  have hpositive : limits.maxIntBits + 1 ≠ 0 := fun h0 => by
    rw [hwraps, h0] at hlt
    exact absurd hlt (by decide)
  rw [hr.evaluate limits hfits, hr.evaluate limits' (hfits.mono h), value_product, value_product,
    if_neg hpositive, if_pos hwraps]
  exact ⟨rfl, rfl⟩

/-- The limits with the greatest width. -/
def widest : Limits := { Limits.standard with maxIntBits := 18446744073709551615 }

theorem standard_within_widest : Limits.standard.Within widest := ⟨by decide, by decide, by decide, by decide⟩

/-- Longer texts keep a display, the greatest width loses one. -/
theorem product_kept_and_lost :
    calculate { Limits.standard with maxInputLength := 4000 } "2×3" = .ok "6" ∧
      evaluate .standard "1*0" = .ok (.int 0) ∧
      evaluate widest "1*0" = .error (EvalError.overflow (.integerWidth widest.maxIntBits)).diagnostic := by
  have hwithin : Limits.standard.Within { Limits.standard with maxInputLength := 4000 } :=
    ⟨by decide, by decide, by decide, by decide⟩
  have hkept := (greater_limits_keep_results .standard _ hwithin).1 (by decide) "2×3"
  have hlost := (greater_limits_keep_results .standard _ standard_within_widest).2 (by decide)
  exact ⟨hkept.2 "6" (by decide +kernel), hlost ⟨by decide, by decide, by decide⟩⟩

/-- Greater limits do not keep every value: the greatest width refuses the product of one and zero. -/
theorem greatest_width_loses_product : ¬ ∀ limits limits' : Limits, limits.Within limits' →
    ∀ text v, evaluate limits text = .ok v → evaluate limits' text = .ok v := by
  intro h
  obtain ⟨ts, hr⟩ := product_reading
  have hfits : Fits .standard "1*0" product := ⟨by decide, by decide, by decide⟩
  have hkept := h _ _ standard_within_widest "1*0" (.int 0) (by
    rw [hr.evaluate _ hfits, value_product]
    rfl)
  rw [hr.evaluate _ (hfits.mono standard_within_widest), value_product] at hkept
  cases hkept

end Calculation
end Reckoner
