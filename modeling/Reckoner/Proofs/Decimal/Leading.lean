import Reckoner.Proofs.Decimal.Scientific

/-! The shortest decimal of a double has the leading power of ten that its size tells, wherever that power does not
round down, and no decimal with fewer digits is read as the double. -/
namespace Reckoner.Decimal
open Binary64

variable {m n : ℕ} {e j k : ℤ} {q : ℚ} {tie : Tie} {d : Scientific}

/-- Numbers in the interval of a double round to it. -/
theorem Interval.Contains.roundsTo (h : (Interval.around m e).Contains q) (hc : Canonical m e) (hm : 0 < m) :
    RoundsTo q (magnitude m e) := by
  by_cases hcase : leastExponent < e → (2 : ℚ) ^ (e + 52) ≤ q
  · exact ⟨m, e, h.rounds hc hm hcase, rfl⟩
  · obtain ⟨he, hv⟩ := Classical.not_imp.mp hcase
    obtain rfl := h.eq_pow (hc.normal he) (not_le.mp hv)
    refine ⟨2 ^ 53, e - 1, h.rounds_carry he (not_le.mp hv), ?_⟩
    rw [magnitude_carry, sub_add_cancel]

/-- Digits tell the leading power of ten. -/
theorem zpow_le_iff (hn : 0 < n) (j k : ℤ) : (10 : ℚ) ^ j ≤ n * 10 ^ k ↔ j ≤ k + (digits n).length - 1 := by
  have hplain := digits_plain n
  have hvalue := value_digits n
  have hpos := hplain.length_pos
  have hten : (0 : ℚ) < 10 ^ k := zpow_pos (by norm_num) k
  generalize digits n = ds at *
  constructor
  · intro h
    by_contra! hlt
    have hbelow : (n : ℚ) < 10 ^ (ds.length : ℤ) := by
      rw [zpow_natCast]
      exact_mod_cast hvalue ▸ value_lt hplain.all.2
    have hproduct : (n * 10 ^ k : ℚ) < 10 ^ j := by
      calc (n * 10 ^ k : ℚ) < 10 ^ (ds.length : ℤ) * 10 ^ k := mul_lt_mul_of_pos_right hbelow hten
        _ = 10 ^ (ds.length + k : ℤ) := (zpow_add₀ (by norm_num) _ _).symm
        _ ≤ 10 ^ j := zpow_le_zpow_right₀ (by norm_num) (by omega)
    exact absurd h (not_le.mpr hproduct)
  · intro h
    have hne : ds ≠ ['0'] := by
      rintro rfl
      rw [← hvalue] at hn
      exact absurd hn (by decide)
    have habove : (10 : ℚ) ^ ((ds.length - 1 : ℕ) : ℤ) ≤ n := by
      rw [zpow_natCast]
      exact_mod_cast hvalue ▸ hplain.eq_zero_or_pow_le.resolve_left hne
    calc (10 : ℚ) ^ j ≤ 10 ^ (((ds.length - 1 : ℕ) : ℤ) + k) := zpow_le_zpow_right₀ (by norm_num) (by omega)
      _ = 10 ^ ((ds.length - 1 : ℕ) : ℤ) * 10 ^ k := zpow_add₀ (by norm_num) _ _
      _ ≤ n * 10 ^ k := mul_le_mul_of_nonneg_right habove hten.le

theorem Identifies.digits_pos (h : Identifies m e d) : 0 < d.digits :=
  Nat.pos_of_ne_zero fun hzero => h.last (by rw [hzero])

/-- A power of ten in the interval of a double is not above the place of its shortest decimal. -/
theorem le_exponent_of_contains (tie : Tie) (hm : 0 < m) (h : (Interval.around m e).Contains (10 ^ j)) :
    j ≤ (shortest tie m e).exponent := by
  by_contra! hlt
  refine shortest_coarsest tie hm e hlt ⟨1, ?_⟩
  rwa [Nat.cast_one, one_mul]

/-- The shortest decimal of a double is not below a power of ten if the double is not. -/
theorem zpow_le_shortest (tie : Tie) (hm : 0 < m) (h : (10 : ℚ) ^ j ≤ magnitude m e) :
    (10 : ℚ) ^ j ≤ (shortest tie m e).digits * 10 ^ (shortest tie m e).exponent := by
  have hd := shortest_identifies tie hm e
  by_contra! hlt
  have hplace := le_exponent_of_contains tie hm (hd.contains.convex (Interval.contains_centre hm e) hlt.le h)
  have hle : (10 : ℚ) ^ j ≤ 10 ^ (shortest tie m e).exponent := zpow_le_zpow_right₀ (by norm_num) hplace
  exact not_le.mpr hlt (hle.trans (ten_pow_le_scientific hd.digits_pos _))

/-- A power of ten that does not round down is reached by a double as soon as by its shortest decimal. -/
theorem zpow_le_shortest_iff (tie : Tie) (hc : Canonical m e) (hm : 0 < m) (hround : RoundsTo (10 ^ j) q)
    (hup : 10 ^ j ≤ q) :
    (10 : ℚ) ^ j ≤ (shortest tie m e).digits * 10 ^ (shortest tie m e).exponent ↔ (10 : ℚ) ^ j ≤ magnitude m e := by
  refine ⟨fun h => ?_, zpow_le_shortest tie hm⟩
  by_contra! hlt
  have hin := (Interval.contains_centre hm e).convex (shortest_identifies tie hm e).contains hlt.le h
  exact not_lt.mpr hup ((hin.roundsTo hc hm).unique hround ▸ hlt)

/-- No decimal in the interval of a double has fewer digits than its shortest decimal. -/
theorem length_shortest_le (tie : Tie) (hm : 0 < m) (h : (Interval.around m e).Contains (n * 10 ^ k)) :
    (digits (shortest tie m e).digits).length ≤ (digits n).length := by
  have hd := shortest_identifies tie hm e
  have hn : 0 < n := by
    have hpos := h.pos hm
    exact_mod_cast (mul_pos_iff_of_pos_right (zpow_pos (by norm_num) k)).mp hpos
  have hcoarsest : k ≤ (shortest tie m e).exponent := by
    by_contra! hlt
    exact shortest_coarsest tie hm e hlt ⟨n, h⟩
  have hplace (j : ℤ) := le_exponent_of_contains (e := e) (j := j) tie hm
  generalize shortest tie m e = d at *
  by_contra! hfewer
  -- the leading power of ten of the shortest decimal lies between the two, and has one digit
  have hbelow : (n * 10 ^ k : ℚ) < 10 ^ (d.exponent + (digits d.digits).length - 1) := by
    rw [← not_le, zpow_le_iff hn]
    omega
  have habove : (10 : ℚ) ^ (d.exponent + (digits d.digits).length - 1) ≤ d.digits * 10 ^ d.exponent :=
    (zpow_le_iff hd.digits_pos _ _).mpr le_rfl
  have hone := hplace _ (h.convex hd.contains hbelow.le habove)
  have := (digits_plain n).length_pos
  omega

end Reckoner.Decimal
