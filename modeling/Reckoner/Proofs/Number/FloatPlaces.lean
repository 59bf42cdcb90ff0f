import Reckoner.Function
import Reckoner.Proofs.Number.ScaledRounding

/-! Doubles rounded to places. The double nearest to the rounded decimal is given, but where units before the point
are counted in doubles that are not exact. -/
namespace Reckoner.Number
open Binary64 Decimal

variable {x y : Float} {negative : Bool} {m c k n num den : ℕ} {e places : ℤ} {u v w d : ℚ}

/-- The double nearest to a number, ties to even, with a sign; an overflow where that is beyond the doubles. -/
inductive NearestOrOverflow (negative : Bool) (d : ℚ) : Except EvalError Number → Prop
  | double {m : ℕ} {e : ℤ} (h : Rounds leastExponent d m e) (hlt : magnitude m e < 2 ^ (1024 : ℤ)) :
    NearestOrOverflow negative d (.ok (.float (pack negative m e)))
  | beyond {m : ℕ} {e : ℤ} (h : Rounds leastExponent d m e) (hle : 2 ^ (1024 : ℤ) ≤ magnitude m e) :
    NearestOrOverflow negative d (.error (.overflow .rounding))

namespace NearestOrOverflow

theorem product (hx : HasValue x negative v) (hy : HasValue y false w) :
    NearestOrOverflow negative (v * w)
      (if (x * y).isFinite then .ok (.float (x * y)) else .error (.overflow .rounding)) := by
  obtain ⟨k, f, h⟩ := exists_rounds (mul_nonneg hx.nonneg hy.nonneg)
  obtain ⟨m, e, hc, rfl, rfl⟩ := hx
  obtain ⟨m', e', hc', rfl, rfl⟩ := hy
  rw [pack_mul_pack hc hc' h, Bool.bne_false]
  have hfinite := isFinite_pack_iff h negative
  split
  · next hf => exact .double h (hfinite.mp hf)
  · next hf => exact .beyond h (not_lt.mp fun hlt => hf (hfinite.mpr hlt))

theorem quotient (negative : Bool) (hden : 0 < den) (hle : num / den ≤ greatest) :
    NearestOrOverflow negative (num / den) (.ok (.float (Binary64.nearest negative num den))) := by
  obtain ⟨m, e, h⟩ := exists_rounds (show (0 : ℚ) ≤ num / den by positivity)
  have hlt := ((HasValue.of_rounds h hle negative).le_greatest).trans_lt greatest_lt
  have hnearest : Binary64.nearest negative num den = pack negative m e := by
    obtain rfl | hnum := Nat.eq_zero_or_pos num
    · rw [Nat.cast_zero, zero_div] at h
      obtain ⟨rfl, rfl⟩ := rounds_zero.unique h
      rfl
    · exact nearest_eq_pack negative hnum hden h
  rw [hnearest]
  exact .double h hlt

theorem zero (negative : Bool) : NearestOrOverflow negative 0 (.ok (.float (Binary64.zero negative))) :=
  .double rounds_zero (by rw [magnitude, Nat.cast_zero, zero_mul]; exact zpow_pos two_pos _)

end NearestOrOverflow

theorem isFinite_of_view (h : view x = .finite negative m e) : x.isFinite = true := by
  have hc := canonical_of_view h
  rw [eq_pack_of_view h, pack, isFinite_ofBits_iff negative (Nat.min_le_right _ _)]
  exact min_lt_of_left_lt hc.code_lt

theorem beq_zero_of_view (h : view x = .finite negative m e) : (x == 0.0) = true ↔ m = 0 := by
  have hc := canonical_of_view h
  rw [eq_pack_of_view h, pack, beq_zero_ofBits_iff negative (Nat.min_le_right _ _)]
  have hlt := hc.code_lt
  have hnormal := hc.normal
  have hleast := hc.least_le
  unfold magnitudeCode leastNormal infinityCode at *
  omega

/-- The value of a double tells which way of rounding is taken. -/
theorem roundFloat_of_view (h : view x = .finite negative m e) (places : ℤ) :
    roundFloat x places =
      if m = 0 ∨ 330 < places then .ok x
      else if 0 ≤ places then .ok (roundToPlaces x places.toNat)
      else if -308 ≤ places then
        if (roundHalfEven (x / floatPowNat 10.0 places.natAbs 1.0) * floatPowNat 10.0 places.natAbs 1.0).isFinite then
          .ok (roundHalfEven (x / floatPowNat 10.0 places.natAbs 1.0) * floatPowNat 10.0 places.natAbs 1.0)
        else .error (.overflow .rounding)
      else .ok (copySign 0.0 x) := by
  have hzero := beq_zero_of_view h
  rw [roundFloat, isFinite_of_view h, Bool.not_true, Bool.false_or]
  by_cases hm : m = 0
  · rw [if_pos (hzero.mpr hm), if_pos (.inl hm)]
  · rw [if_neg (fun hx => hm (hzero.mp hx))]
    by_cases hplaces : 330 < places
    · rw [if_pos hplaces, if_pos (.inr hplaces)]
    · rw [if_neg hplaces, if_neg (not_or.mpr ⟨hm, hplaces⟩)]

theorem call_round_float (x : Float) (places : ℤ) :
    Function.round.call [.float x, .int places] = (roundFloat x places).map .float := rfl

/-- A quarter of the last place around a double is in its interval. -/
theorem contains_of_close (hm : 0 < m) (h : |v - magnitude m e| < 2 ^ (e - 2)) : (Interval.around m e).Contains v := by
  obtain ⟨hlow, hhigh⟩ := abs_lt.mp h
  have hquarters := Interval.magnitude_quarters m e
  have hpos : (0 : ℚ) < 2 ^ (e - 2) := zpow_pos two_pos _
  have hend : magnitude (Interval.around m e).high (e - 2) = magnitude m e + 2 * 2 ^ (e - 2) := by
    rw [← hquarters]
    simp only [magnitude, Interval.around]
    push_cast
    ring
  have hstart : magnitude (Interval.around m e).low (e - 2) ≤ magnitude m e - 2 ^ (e - 2) := by
    have hle : (Interval.around m e).low ≤ 4 * m - 1 := by
      simp only [Interval.around]
      split <;> omega
    refine (magnitude_mono hle (e - 2)).trans_eq ?_
    rw [← hquarters, magnitude, magnitude, Nat.cast_sub (by omega), sub_mul, Nat.cast_one, one_mul]
  exact Interval.contains_of_lt (hstart.trans_lt (by linarith)) (lt_of_lt_of_eq (by linarith) hend.symm)

/-- Rounding to places past the last one of every double moves a number by less than a quarter of its last place. -/
theorem close_of_many_places (hc : Canonical m e) (hplaces : 330 < k)
    (h : IsNearest (magnitude m e * 10 ^ k) c) : |c / (10 ^ k : ℕ) - magnitude m e| < 2 ^ (e - 2) := by
  have hten : (0 : ℚ) < (10 ^ k : ℕ) := by positivity
  have hscale : |c / (10 ^ k : ℕ) - magnitude m e| * (10 ^ k : ℕ) = |magnitude m e * 10 ^ k - c| := by
    rw [← abs_of_pos hten, ← abs_mul, abs_of_pos hten, sub_mul, div_mul_cancel₀ _ hten.ne', abs_sub_comm]
    push_cast
    rfl
  have hpow : 2 ^ 1076 ≤ 10 ^ k := by
    calc 2 ^ 1076 ≤ 10 ^ 331 := pow_two_le_pow_ten
      _ ≤ 10 ^ k := pow_le_pow_right₀ (by decide) hplaces
  have hpow : (2 : ℚ) ^ (1076 : ℤ) ≤ (10 ^ k : ℕ) := by exact_mod_cast hpow
  have hone : (1 : ℚ) ≤ 2 ^ (e - 2) * (10 ^ k : ℕ) := by
    calc (1 : ℚ) = 2 ^ (-1076 : ℤ) * 2 ^ (1076 : ℤ) := by
          rw [← zpow_add₀ two_ne_zero]
          rfl
      _ ≤ 2 ^ (e - 2) * (10 ^ k : ℕ) := by
        have hleast := hc.least_le
        refine mul_le_mul (zpow_le_zpow_right₀ one_le_two ?_) hpow (zpow_pos two_pos _).le (zpow_pos two_pos _).le
        unfold leastExponent at hleast
        omega
  by_contra! hle
  have := mul_le_mul_of_nonneg_right hle hten.le
  rw [hscale] at this
  linarith [h.close]

theorem many_places (h : view x = .finite negative m e) (hm : 0 < m) (hplaces : 330 < k)
    (hcount : IsNearest (magnitude m e * 10 ^ k) c) :
    NearestOrOverflow negative (c / (10 ^ k : ℕ)) (.ok (.float x)) := by
  have hc := canonical_of_view h
  have hcontains := contains_of_close hm (close_of_many_places hc hplaces hcount)
  rw [eq_pack_of_view h, ← nearest_eq_pack_of_contains hc hm (by positivity) hcontains negative]
  apply NearestOrOverflow.quotient negative (by positivity)
  rw [hcount.unique (toPlaces_isNearest m e k)]
  exact toPlaces_le_greatest hc k

/-- Rounded to places after the point. -/
theorem few_places (h : view x = .finite negative m e) (k : ℕ) :
    NearestOrOverflow negative (toPlaces m e k / (10 ^ k : ℕ)) (.ok (.float (roundToPlaces x k))) := by
  rw [roundToPlaces, h]
  exact .quotient negative (by positivity) (toPlaces_le_greatest (canonical_of_view h) k)

theorem copySign_zero_of_view (h : view x = .finite negative m e) : copySign 0.0 x = Binary64.zero negative := by
  have hzero : view 0.0 = .finite false 0 leastExponent := by decide +kernel
  rw [copySign, hzero, isNegative, h, Binary64.zero]

theorem isNearest_zero_of_bound {j : ℕ} (hbound : 2 * ((2 ^ 53 - 1) * 2 ^ 971) ≤ 10 ^ j) (hc : Canonical m e)
    (hj : j ≤ k) : IsNearest (magnitude m e / 10 ^ k) 0 := by
  have hgreatest : greatest = ((2 ^ 53 - 1) * 2 ^ 971 : ℕ) := magnitude_natCast (2 ^ 53 - 1) 971
  have hpow := hbound.trans (Nat.pow_le_pow_right (by decide) hj)
  -- the bound is abstracted before it is cast, or its thousand bits are evaluated
  generalize (2 ^ 53 - 1) * 2 ^ 971 = bound at *
  have hcast : (2 * bound : ℚ) ≤ 10 ^ k := mod_cast hpow
  have hle := hc.magnitude_le
  rw [hgreatest] at hle
  apply isNearest_zero_of_le_half
  · exact div_nonneg (magnitude_nonneg m e) (by positivity)
  · rw [div_le_iff₀ (by positivity)]
    linarith

/-- Half of a unit past the greatest power of ten is above every double. -/
theorem isNearest_zero_of_wide_unit (hc : Canonical m e) (hk : 309 ≤ k) : IsNearest (magnitude m e / 10 ^ k) 0 :=
  isNearest_zero_of_bound (by decide +kernel) hc hk

/-- Whole units of a double are counted, and the count is multiplied by the unit again. -/
theorem scaled (hx : HasValue x negative v) (hy : HasValue y false w) (hw : 1 ≤ w) : ∃ u c, RoundsTo (v / w) u ∧
    IsNearest u c ∧ NearestOrOverflow negative (c * w)
      (if (roundHalfEven (x / y) * y).isFinite then .ok (.float (roundHalfEven (x / y) * y))
        else .error (.overflow .rounding)) := by
  obtain ⟨u, hu⟩ := RoundsTo.exists_of_nonneg (div_nonneg hx.nonneg hy.nonneg)
  have hquotient := hx.div_right hy (one_pos.trans_le hw) hu ((div_le_self hx.nonneg hw).trans hx.le_greatest)
  obtain ⟨c, hnearest, hcount⟩ := hquotient.roundHalfEven
  exact ⟨u, c, hu, hnearest, .product hcount hy⟩

/-- The number that is rounded last is about half a unit away at most. -/
theorem scaled_close (hv : 0 ≤ v) (hw : 0 < w) (hu : RoundsTo (v / w) u) (hc : IsNearest u c) :
    |c * w - v| ≤ w / 2 + v * 2 ^ (-53 : ℤ) := by
  have hscale : |(c : ℚ) - v / w| * w = |c * w - v| := by
    rw [← abs_of_pos hw, ← abs_mul, abs_of_pos hw, sub_mul, div_mul_cancel₀ v hw.ne']
  have hpart : v / w * 2 ^ (-53 : ℤ) * w = v * 2 ^ (-53 : ℤ) := by field_simp
  have hdist : |(c : ℚ) - v / w| ≤ 1 / 2 + v / w * 2 ^ (-53 : ℤ) := by
    obtain hsmall | hlarge := le_or_gt (v / w) (1 / 4)
    · have hnonneg := div_nonneg hv hw.le
      have hu' := hu.mono roundsTo_one_half (hsmall.trans (by norm_num))
      rw [hc.unique (isNearest_zero_of_le_half hu.nonneg hu'), Nat.cast_zero, zero_sub, abs_neg, abs_of_nonneg hnonneg]
      have : 0 ≤ v / w * 2 ^ (-53 : ℤ) := by positivity
      linarith
    · obtain ⟨hlow, hhigh⟩ := abs_le.mp (hu.close_of_quarter_le hlarge.le)
      obtain ⟨hlow', hhigh'⟩ := abs_le.mp hc.close
      exact abs_le.mpr ⟨by linarith, by linarith⟩
  rw [← hscale, ← hpart]
  have := mul_le_mul_of_nonneg_right hdist hw.le
  linarith

/-- Units before the point in which a double is not counted exactly: it has no places below them in binary, or the
power of ten is rounded, and its half is not above the double. -/
inductive Strays (v : ℚ) : ℤ → Prop
  | coarse {k : ℕ} (hk : 1 ≤ k) (hle : k ≤ 22) (h : 2 ^ (52 + k) ≤ v) : Strays v (-k)
  | inexact {k : ℕ} (hk : 22 < k) (hle : k ≤ 308) (h : (1 - 2 ^ (-44 : ℤ)) * 10 ^ k < 2 * v) : Strays v (-k)

/-- Without straying the count of units is the nearest one. -/
theorem scaled_exact (hc : Canonical m e) (hk : 1 ≤ k) (hle : k ≤ 308) (hstrays : ¬ Strays (magnitude m e) (-k))
    (hw : |w - 10 ^ k| ≤ 10 ^ k * 2 ^ (-44 : ℤ)) (hexact : k ≤ 22 → w = 10 ^ k)
    (hu : RoundsTo (magnitude m e / w) u) (hcount : IsNearest u c) (hn : IsNearest (magnitude m e / 10 ^ k) n) :
    c * w = n * 10 ^ k := by
  obtain hfew | hmany := le_or_gt k 22
  · obtain rfl := hexact hfew
    have he : e < k := by
      by_contra! hge
      have hlong := hc.normal (by unfold leastExponent; omega)
      refine hstrays (.coarse hk hfew ?_)
      calc (2 : ℚ) ^ (52 + k) = 2 ^ ((k : ℤ) + (52 : ℕ)) := by
            rw [← zpow_natCast]
            congr 1
            push_cast
            ring
        _ ≤ 2 ^ (e + (52 : ℕ)) := zpow_le_zpow_right₀ one_le_two (by omega)
        _ = magnitude (2 ^ 52) e := (magnitude_pow 52 e).symm
        _ ≤ magnitude m e := magnitude_mono hlong e
    rw [(isNearest_of_rounded_quotient hc.lt he hu hcount).unique hn]
  · have hten : (0 : ℚ) < 10 ^ k := by positivity
    have hnonneg := magnitude_nonneg m e
    have hhalf : 2 * magnitude m e ≤ (1 - 2 ^ (-44 : ℤ)) * 10 ^ k := by
      by_contra! hlt
      exact hstrays (.inexact hmany hle hlt)
    have hlow := (abs_le.mp hw).1
    have hpos : 0 < w := by
      norm_num at hlow
      linarith
    have hquotient : magnitude m e / w ≤ 1 / 2 := by
      rw [div_le_iff₀ hpos]
      linarith
    have hquotient' : magnitude m e / 10 ^ k ≤ 1 / 2 := by
      rw [div_le_iff₀ hten]
      norm_num at hhalf
      linarith
    rw [hcount.unique (isNearest_zero_of_le_half hu.nonneg (hu.mono roundsTo_one_half hquotient)),
      hn.unique (isNearest_zero_of_le_half (div_nonneg hnonneg hten.le) hquotient'), Nat.cast_zero, zero_mul, zero_mul]

theorem mul_zpow_neg_natCast (n k : ℕ) : (n : ℚ) * 10 ^ (-k : ℤ) = n / (10 ^ k : ℕ) := by
  rw [zpow_neg, zpow_natCast, div_eq_mul_inv]
  push_cast
  rfl

/-- Outside the units that are counted in doubles the result is exact. -/
theorem unscaled (h : view x = .finite negative m e) (hplaces : m = 0 ∨ 0 ≤ places ∨ places < -308)
    (hn : IsNearest (magnitude m e * 10 ^ places) n) :
    NearestOrOverflow negative (n * 10 ^ (-places)) (Function.round.call [.float x, .int places]) := by
  have hc := canonical_of_view h
  rw [call_round_float, roundFloat_of_view h]
  by_cases hm : m = 0
  · subst hm
    have hzero : magnitude 0 e * 10 ^ places = (0 : ℕ) := by
      rw [magnitude, Nat.cast_zero, zero_mul, zero_mul]
    rw [hzero] at hn
    rw [hn.unique (.natCast 0), if_pos (.inl rfl), Nat.cast_zero, zero_mul, eq_pack_of_view h, hc.exponent_of_zero]
    exact .zero negative
  obtain hnonneg | hneg := le_or_gt 0 places
  · obtain ⟨k, rfl⟩ := Int.eq_ofNat_of_zero_le hnonneg
    rw [zpow_natCast] at hn
    rw [mul_zpow_neg_natCast]
    by_cases hmany : 330 < (k : ℤ)
    · rw [if_pos (.inr hmany)]
      exact many_places h (Nat.pos_of_ne_zero hm) (by omega) hn
    · rw [if_neg (not_or.mpr ⟨hm, hmany⟩), if_pos hnonneg, Int.toNat_natCast, hn.unique (toPlaces_isNearest m e k)]
      exact few_places h k
  · have hwide : places < -308 := (hplaces.resolve_left hm).resolve_left (not_le.mpr hneg)
    obtain ⟨k, hk⟩ := Int.eq_ofNat_of_zero_le (show 0 ≤ -places by omega)
    rw [if_neg (not_or.mpr ⟨hm, by omega⟩), if_neg (by omega), if_neg (by omega), copySign_zero_of_view h]
    rw [← neg_neg places, hk, zpow_neg, zpow_natCast, ← div_eq_mul_inv] at hn
    rw [hn.unique (isNearest_zero_of_wide_unit hc (by omega)), Nat.cast_zero, zero_mul]
    exact .zero negative

theorem call_scaled (h : view x = .finite negative m e) (hm : m ≠ 0) (hk : 1 ≤ k) (hle : k ≤ 308)
    (hunit : floatPowNat 10.0 k 1.0 = y) : Function.round.call [.float x, .int (-k)] =
      if (roundHalfEven (x / y) * y).isFinite then .ok (.float (roundHalfEven (x / y) * y))
      else .error (.overflow .rounding) := by
  rw [call_round_float, roundFloat_of_view h, if_neg (by omega), if_neg (by omega), if_pos (by omega),
    Int.natAbs_neg, Int.natAbs_natCast, apply_ite (Except.map Number.float), hunit]
  rfl

/-- Units before the point are counted in doubles. -/
theorem scaled_places (h : view x = .finite negative m e) (hm : m ≠ 0) (hk : 1 ≤ k) (hle : k ≤ 308)
    (hn : IsNearest (magnitude m e / 10 ^ k) n) : ∃ d,
    NearestOrOverflow negative d (Function.round.call [.float x, .int (-k)]) ∧
    (¬ Strays (magnitude m e) (-k) → d = n * 10 ^ k) ∧
    |d - magnitude m e| ≤ (1 + 2 ^ (-44 : ℤ)) / 2 * 10 ^ k + magnitude m e * 2 ^ (-53 : ℤ) := by
  have hx := HasValue.of_view h
  obtain ⟨w, hunit, hw, hexact⟩ := floatPowNat_ten hk hle
  have hten : (10 : ℚ) ≤ 10 ^ k := le_self_pow₀ (by norm_num) (by omega)
  obtain ⟨hlow, hhigh⟩ := abs_le.mp hw
  have hone : 1 ≤ w := by
    norm_num at hlow
    linarith
  obtain ⟨u, c, hu, hc, hresult⟩ := scaled hx hunit hone
  refine ⟨c * w, ?_, fun hstrays => ?_, ?_⟩
  · rwa [call_scaled h hm hk hle rfl]
  · exact scaled_exact (canonical_of_view h) hk hle hstrays hw hexact hu hc hn
  · refine (scaled_close hx.nonneg (one_pos.trans_le hone) hu hc).trans (add_le_add_left ?_ _)
    rw [div_mul_eq_mul_div, add_mul, one_mul, mul_comm (2 ^ (-44 : ℤ) : ℚ)]
    exact div_le_div_of_nonneg_right (sub_le_iff_le_add'.mp hhigh) zero_le_two

/-- A double is rounded to the double nearest to its nearest multiple of the unit, ties to even, wherever its units
are counted exactly. Elsewhere what is rounded last is near to it. -/
theorem round_float_half_even (h : view x = .finite negative m e) (places : ℤ) :
    ∃ count : ℕ, IsNearest (magnitude m e * 10 ^ places) count ∧
      (¬ Strays (magnitude m e) places →
        NearestOrOverflow negative (count * 10 ^ (-places)) (Function.round.call [.float x, .int places])) ∧
      ∃ d, NearestOrOverflow negative d (Function.round.call [.float x, .int places]) ∧
        |d - magnitude m e| ≤ (1 + 2 ^ (-44 : ℤ)) / 2 * 10 ^ (-places) + magnitude m e * 2 ^ (-53 : ℤ) := by
  have hnonneg := (HasValue.of_view h).nonneg
  by_cases hplaces : m = 0 ∨ 0 ≤ places ∨ places < -308
  · obtain ⟨n, hn⟩ := exists_isNearest (mul_nonneg hnonneg (zpow_pos (by norm_num : (0 : ℚ) < 10) places).le)
    have hexact := unscaled h hplaces hn
    refine ⟨n, hn, fun _ => hexact, _, hexact, ?_⟩
    have hunit : (0 : ℚ) < 10 ^ (-places) := zpow_pos (by norm_num) _
    have hscale : |magnitude m e * 10 ^ places - n| * 10 ^ (-places) = |n * 10 ^ (-places) - magnitude m e| := by
      rw [abs_sub_comm, ← abs_of_pos hunit, ← abs_mul, abs_of_pos hunit, sub_mul, mul_assoc,
        ← zpow_add₀ (by norm_num), add_neg_cancel, zpow_zero, mul_one]
    rw [← hscale]
    refine (mul_le_mul_of_nonneg_right hn.close hunit.le).trans (le_add_of_le_of_nonneg ?_ (by positivity))
    exact mul_le_mul_of_nonneg_right (by norm_num) hunit.le
  · obtain ⟨hm, hplaces⟩ := not_or.mp hplaces
    obtain ⟨k, hk⟩ := Int.eq_ofNat_of_zero_le (show 0 ≤ -places by omega)
    obtain rfl : places = -k := by omega
    obtain ⟨n, hn⟩ := exists_isNearest (div_nonneg hnonneg (by positivity : (0 : ℚ) ≤ 10 ^ k))
    obtain ⟨d, hresult, hexact, hclose⟩ := scaled_places h hm (by omega) (by omega) hn
    rw [neg_neg, zpow_neg, zpow_natCast, ← div_eq_mul_inv]
    exact ⟨n, hn, fun hstrays => hexact hstrays ▸ hresult, d, hresult, hclose⟩

/-- Hundreds of a double with places after the point are counted exactly: 1234.5 is rounded to the double nearest
to 1200. -/
theorem hundreds_rounded :
    let x := pack false 5429388417957888 (-42)
    view x = .finite false 5429388417957888 (-42) ∧ magnitude 5429388417957888 (-42) = 1234.5 ∧
      IsNearest (magnitude 5429388417957888 (-42) * 10 ^ (-2 : ℤ)) 12 ∧
      ¬ Strays (magnitude 5429388417957888 (-42)) (-2) ∧
      NearestOrOverflow false 1200 (Function.round.call [.float x, .int (-2)]) ∧
      ∃ d, NearestOrOverflow false d (Function.round.call [.float x, .int (-2)]) ∧
        |d - magnitude 5429388417957888 (-42)| ≤
          (1 + 2 ^ (-44 : ℤ)) / 2 * 10 ^ (-(-2) : ℤ) + magnitude 5429388417957888 (-42) * 2 ^ (-53 : ℤ) := by
  intro x
  have hview : view x = .finite false 5429388417957888 (-42) :=
    view_pack false ⟨by decide, by decide, by decide, fun _ => by decide⟩
  have hvalue : magnitude 5429388417957888 (-42) = 1234.5 := by
    rw [magnitude]
    norm_num
  have hstrays : ¬ Strays (magnitude 5429388417957888 (-42)) (-2) := by
    rw [hvalue]
    generalize hplaces : (-2 : ℤ) = places
    intro hstrays
    cases hstrays with
    | @coarse k hk hle h =>
      obtain rfl : k = 2 := by omega
      norm_num at h
    | inexact hk => omega
  have htwelve : IsNearest (magnitude 5429388417957888 (-42) * 10 ^ (-2 : ℤ)) 12 := by
    refine .of_lt ?_
    rw [hvalue]
    norm_num [abs_lt]
  obtain ⟨count, hcount, hexact, hclose⟩ := round_float_half_even hview (-2)
  obtain rfl := hcount.unique htwelve
  refine ⟨hview, hvalue, htwelve, hstrays, ?_, hclose⟩
  convert hexact hstrays using 1
  norm_num

/-- The quotient of a double without binary places below ten is rounded up to a tie, and from there to the even
multiple, which is not the nearest one. -/
theorem tens_rounded_twice :
    let x := pack false 5629499534213127 1
    view x = .finite false 5629499534213127 1 ∧
    IsNearest (magnitude 5629499534213127 1 * 10 ^ (-1 : ℤ)) 1125899906842625 ∧
    ¬ NearestOrOverflow false ((1125899906842625 : ℕ) * 10 ^ (-(-1) : ℤ))
      (Function.round.call [.float x, .int (-1)]) := by
  intro x
  have hview : view x = .finite false 5629499534213127 1 :=
    view_pack false ⟨by decide, by decide, by decide, fun _ => by decide⟩
  refine ⟨hview, .of_lt ?_, fun h => ?_⟩
  · rw [magnitude]
    norm_num [abs_lt]
  · have hunit : floatPowNat 10.0 1 1.0 = 10.0 := by
      rw [floatPowNat]
      decide +kernel
    have hcall : Function.round.call [.float x, .int (-1)] = .ok (.float (pack false 5629499534213130 1)) := by
      have hproduct : roundHalfEven (x / 10.0) * 10.0 = pack false 5629499534213130 1 :=
        eq_iff_toBits.mpr (by decide +kernel)
      have hfinite := isFinite_of_view (view_pack false (m := 5629499534213130) (e := 1)
        ⟨by decide, by decide, by decide, fun _ => by decide⟩)
      rw [← hproduct] at hfinite ⊢
      exact (call_scaled hview (by decide) le_rfl (by decide) hunit).trans (if_pos hfinite)
    have hexact : Rounds leastExponent ((1125899906842625 : ℕ) * 10 ^ (-(-1) : ℤ)) 5629499534213125 1 := by
      refine ⟨?_, by decide, by norm_num, fun _ => by norm_num⟩
      have hhalf : ((1125899906842625 : ℕ) * 10 ^ (-(-1) : ℤ) / 2 ^ (1 : ℤ) : ℚ) = (5629499534213125 : ℕ) := by norm_num
      rw [hhalf]
      exact .natCast _
    rw [hcall] at h
    generalize hr : Except.ok (Number.float (pack false 5629499534213130 1)) = r at h
    cases h with
    | double h hlt =>
      obtain ⟨rfl, rfl⟩ := h.unique hexact
      have hpack := Number.float.inj (Except.ok.inj hr)
      exact absurd (congrArg Float.toBits hpack) (by decide +kernel)
    | beyond h hle => cases hr

end Reckoner.Number
