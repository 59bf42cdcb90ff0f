import Reckoner.Decimal.Shortest
import Reckoner.Proofs.Binary64.Nearest

/-! The decimal that is written for a double lies where numbers round to the double, and it has no zero at
its end. -/
namespace Reckoner.Decimal
open Binary64

variable {i : Interval} {tie : Tie} {steps c m num den : ℕ} {k e : ℤ} {v a b : ℚ} {d : Scientific}

namespace Interval

/-- Between the ends of an interval, or at one of them if they belong to it. -/
structure Contains (i : Interval) (v : ℚ) : Prop where
  low_le : magnitude i.low i.exponent ≤ v
  le_high : v ≤ magnitude i.high i.exponent
  strict : i.closed = false → magnitude i.low i.exponent < v ∧ v < magnitude i.high i.exponent

theorem contains_of_lt (hlow : magnitude i.low i.exponent < v) (hhigh : v < magnitude i.high i.exponent) :
    i.Contains v := ⟨hlow.le, hhigh.le, fun _ => ⟨hlow, hhigh⟩⟩

theorem contains_iff_of_closed (h : i.closed = true) :
    i.Contains v ↔ magnitude i.low i.exponent ≤ v ∧ v ≤ magnitude i.high i.exponent :=
  ⟨fun hv => ⟨hv.low_le, hv.le_high⟩, fun hv => ⟨hv.1, hv.2, by simp [h]⟩⟩

theorem contains_iff_of_open (h : i.closed = false) :
    i.Contains v ↔ magnitude i.low i.exponent < v ∧ v < magnitude i.high i.exponent :=
  ⟨fun hv => hv.strict h, fun hv => contains_of_lt hv.1 hv.2⟩

theorem Contains.convex (ha : i.Contains a) (hb : i.Contains b) (hav : a ≤ v) (hvb : v ≤ b) :
    i.Contains v where
  low_le := ha.low_le.trans hav
  le_high := hvb.trans hb.le_high
  strict hopen := ⟨(ha.strict hopen).1.trans_le hav, hvb.trans_lt (hb.strict hopen).2⟩

/-- The factors by which quarters are compared with the steps of a grid. -/
theorem grid_factors (e k : ℤ) :
    ((Nat.pow 2 e.toNat * Nat.pow 10 (-k).toNat : ℕ) : ℚ) * 10 ^ k =
      (Nat.pow 2 (-e).toNat * Nat.pow 10 k.toNat : ℕ) * 2 ^ e := by
  have hten : (10 : ℚ) ^ (-k).toNat * 10 ^ k = 10 ^ k.toNat := by
    rw [← zpow_natCast, ← zpow_natCast, ← zpow_add₀ (by norm_num)]
    congr 1
    omega
  have htwo : (2 : ℚ) ^ (-e).toNat * 2 ^ e = 2 ^ e.toNat := by
    rw [← zpow_natCast, ← zpow_natCast, ← zpow_add₀ (by norm_num)]
    congr 1
    omega
  rw [Nat.pow_eq, Nat.pow_eq, Nat.pow_eq, Nat.pow_eq]
  push_cast
  rw [mul_assoc, hten, mul_right_comm, htwo]

/-- Multiples of a quarter and of a step compare as the numbers that they stand for. -/
theorem quarter_le_step_iff (m c : ℕ) (e k : ℤ) :
    (m * (Nat.pow 2 e.toNat * Nat.pow 10 (-k).toNat) ≤ c * (Nat.pow 2 (-e).toNat * Nat.pow 10 k.toNat) ↔
      magnitude m e ≤ c * 10 ^ k) ∧
    (c * (Nat.pow 2 (-e).toNat * Nat.pow 10 k.toNat) ≤ m * (Nat.pow 2 e.toNat * Nat.pow 10 (-k).toNat) ↔
      c * 10 ^ k ≤ magnitude m e) := by
  have hfactors := grid_factors e k
  have hpos : 0 < Nat.pow 2 (-e).toNat * Nat.pow 10 k.toNat :=
    Nat.mul_pos (Nat.pow_pos two_pos) (Nat.pow_pos (by decide))
  generalize Nat.pow 2 e.toNat * Nat.pow 10 (-k).toNat = quarter at *
  generalize Nat.pow 2 (-e).toNat * Nat.pow 10 k.toNat = step at *
  have hstep : (0 : ℚ) < step := mod_cast hpos
  have hten : (0 : ℚ) < 10 ^ k := zpow_pos (by norm_num) k
  have hleft : ((m * quarter : ℕ) : ℚ) * 10 ^ k = magnitude m e * step := by
    rw [magnitude, Nat.cast_mul, mul_assoc, hfactors]
    ring
  have hright : ((c * step : ℕ) : ℚ) * 10 ^ k = c * 10 ^ k * step := by
    rw [Nat.cast_mul]
    ring
  have hcast (a b : ℕ) : a ≤ b ↔ (a : ℚ) * 10 ^ k ≤ b * 10 ^ k := by
    rw [mul_le_mul_iff_left₀ hten, Nat.cast_le]
  rw [hcast, hcast, hleft, hright, mul_le_mul_iff_left₀ hstep, mul_le_mul_iff_left₀ hstep]
  exact ⟨Iff.rfl, Iff.rfl⟩

/-- What a grid gives is one of the points around the centre, as far as they are in the interval. -/
theorem onGrid?_eq (i : Interval) (tie : Tie) (k : ℤ) : ∃ (below : ℕ) (inside : ℕ → Bool) (nearer : ℕ),
    (∀ c, inside c = true ↔ i.Contains (c * 10 ^ k)) ∧
    below * 10 ^ k ≤ magnitude i.centre i.exponent ∧ magnitude i.centre i.exponent < (below + 1 : ℕ) * 10 ^ k ∧
    (nearer = below ∨ nearer = below + 1) ∧ i.onGrid? tie k =
      match inside below, inside (below + 1) with
      | true, true => some nearer
      | true, false => some below
      | false, true => some (below + 1)
      | false, false => none := by
  unfold onGrid?
  extract_lets quarter step inside below
  have hstep : 0 < step := Nat.mul_pos (Nat.pow_pos two_pos) (Nat.pow_pos (by decide))
  have hcompare (m c : ℕ) : (m * quarter ≤ c * step ↔ magnitude m i.exponent ≤ c * 10 ^ k) ∧
      (c * step ≤ m * quarter ↔ c * 10 ^ k ≤ magnitude m i.exponent) := quarter_le_step_iff m c i.exponent k
  refine ⟨below, inside, _, fun c => ?_, (hcompare _ _).2.mp (Nat.div_mul_le_self _ _), ?_, ?_, rfl⟩
  · have hlow := hcompare i.low c
    have hhigh := hcompare i.high c
    simp only [inside]
    cases hclosed : i.closed with
    | true =>
      rw [contains_iff_of_closed hclosed, if_pos rfl, Bool.and_eq_true, decide_eq_true_eq, decide_eq_true_eq,
        hlow.1, hhigh.2]
    | false =>
      rw [contains_iff_of_open hclosed, if_neg Bool.false_ne_true, Bool.and_eq_true, decide_eq_true_eq,
        decide_eq_true_eq, ← not_le, ← not_le, hlow.2, hhigh.1, not_le, not_le]
  · rw [← not_le, ← (hcompare _ _).2, not_le]
    exact Nat.lt_mul_of_div_lt (Nat.lt_succ_self _) hstep
  · split <;> simp

/-- Whether a grid has a point in the interval. -/
def Meets (i : Interval) (k : ℤ) : Prop := ∃ c : ℕ, i.Contains (c * 10 ^ k)

theorem contains_of_onGrid? (h : i.onGrid? tie k = some c) : i.Contains (c * 10 ^ k) := by
  obtain ⟨below, inside, nearer, hinside, -, -, hnearer, heq⟩ := i.onGrid?_eq tie k
  rw [heq] at h
  split at h
  · next hbelow habove =>
    cases h
    obtain rfl | rfl := hnearer
    · exact (hinside _).mp hbelow
    · exact (hinside _).mp habove
  · next hbelow _ =>
    cases h
    exact (hinside _).mp hbelow
  · next _ habove =>
    cases h
    exact (hinside _).mp habove
  · cases h

/-- The points next to the centre are in the interval if any point of the grid is. -/
theorem not_meets_of_onGrid? (hcentre : i.Contains (magnitude i.centre i.exponent))
    (h : i.onGrid? tie k = none) : ¬ i.Meets k := by
  rintro ⟨c, hc⟩
  obtain ⟨below, inside, nearer, hinside, hbelow, habove, -, heq⟩ := i.onGrid?_eq tie k
  have hten : (0 : ℚ) < 10 ^ k := zpow_pos (by norm_num) k
  rw [heq] at h
  obtain hle | hlt := le_or_gt c below
  · have hin := hc.convex hcentre (mul_le_mul_of_nonneg_right (mod_cast hle) hten.le) hbelow
    rw [(hinside below).mpr hin] at h
    cases hb : inside (below + 1) <;> rw [hb] at h <;> cases h
  · have hin := hcentre.convex hc habove.le (mul_le_mul_of_nonneg_right (mod_cast hlt) hten.le)
    rw [(hinside (below + 1)).mpr hin] at h
    cases hb : inside below <;> rw [hb] at h <;> cases h

/-- A search ends on the first grid that meets the interval. -/
theorem search_spec (hcentre : i.Contains (magnitude i.centre i.exponent)) (h : i.search tie steps k = some d) :
    i.Contains (d.digits * 10 ^ d.exponent) ∧ d.exponent ≤ k ∧
      ∀ j, d.exponent < j → j ≤ k → ¬ i.Meets j := by
  induction steps generalizing k with
  | zero => cases h
  | succ steps ih =>
    rw [search] at h
    split at h
    · next c hc =>
      cases h
      exact ⟨contains_of_onGrid? hc, le_rfl, fun j hlt hle => absurd hlt (not_lt.mpr hle)⟩
    · next hnone =>
      obtain ⟨hcontains, hbelow, hcoarser⟩ := ih h
      refine ⟨hcontains, by omega, fun j hlt hle => ?_⟩
      obtain rfl | hlt' := hle.eq_or_lt
      · exact not_meets_of_onGrid? hcentre hnone
      · exact hcoarser j hlt (by omega)

theorem search_isSome (hcentre : i.Contains (magnitude i.centre i.exponent)) {j : ℤ} (hmeets : i.Meets j)
    (hle : j ≤ k) (hsteps : k < j + steps) : ∃ d, i.search tie steps k = some d := by
  induction steps generalizing k with
  | zero => omega
  | succ steps ih =>
    rw [search]
    split
    · exact ⟨_, rfl⟩
    · next hnone =>
      have hne : j ≠ k := by
        rintro rfl
        exact not_meets_of_onGrid? hcentre hnone hmeets
      exact ih (by omega) (by push_cast at hsteps; omega)

theorem magnitude_quarters (m : ℕ) (e : ℤ) : magnitude (4 * m) (e - 2) = magnitude m e := by
  rw [magnitude, magnitude, zpow_sub₀ two_ne_zero, Nat.cast_mul]
  norm_num
  ring

theorem contains_centre (hm : 0 < m) (e : ℤ) : (around m e).Contains (magnitude m e) := by
  have hpos : (0 : ℚ) < 2 ^ (e - 2) := zpow_pos two_pos _
  rw [← magnitude_quarters]
  refine contains_of_lt (mul_lt_mul_of_pos_right ?_ hpos) (mul_lt_mul_of_pos_right ?_ hpos)
  · have hlow : (around m e).low < 4 * m := by
      simp only [around]
      split <;> omega
    exact_mod_cast hlow
  · have hhigh : 4 * m < (around m e).high := by
      simp only [around]
      omega
    exact_mod_cast hhigh

/-- The ends are half a place away, but the lower one may be nearer. -/
theorem ends (hm : 0 < m) (e : ℤ) :
    (m - 1 / 2) * 2 ^ e ≤ magnitude (around m e).low (e - 2) ∧
      magnitude (around m e).high (e - 2) = (m + 1 / 2) * 2 ^ e := by
  have hpos : (0 : ℚ) < 2 ^ (e - 2) := zpow_pos two_pos _
  have hquarter : (2 : ℚ) ^ e = 4 * 2 ^ (e - 2) := by
    rw [zpow_sub₀ two_ne_zero]
    norm_num
    ring
  rw [hquarter]
  constructor
  · have hlow : ((4 * m - 2 : ℕ) : ℚ) ≤ ((around m e).low : ℕ) := by
      simp only [around]
      split
      · exact_mod_cast (by omega : 4 * m - 2 ≤ 4 * m - 1)
      · exact le_rfl
    rw [Nat.cast_sub (by omega)] at hlow
    push_cast at hlow
    rw [magnitude]
    nlinarith
  · simp only [magnitude, around]
    push_cast
    ring

theorem Contains.bounds (h : (around m e).Contains v) (hm : 0 < m) :
    (m - 1 / 2) * 2 ^ e ≤ v ∧ v ≤ (m + 1 / 2) * 2 ^ e :=
  ⟨(ends hm e).1.trans h.low_le, h.le_high.trans_eq (ends hm e).2⟩

theorem Contains.pos (h : (around m e).Contains v) (hm : 0 < m) : 0 < v := by
  have hone : (1 : ℚ) ≤ m := mod_cast hm
  exact lt_of_lt_of_le (mul_pos (by linarith) (zpow_pos two_pos e)) (h.bounds hm).1

theorem Contains.zpow_le (h : (around m e).Contains v) (hc : Canonical m e) (hm : 0 < m) :
    (2 : ℚ) ^ (-1075 : ℤ) ≤ v := by
  have hone : (1 : ℚ) ≤ m := mod_cast hm
  calc (2 : ℚ) ^ (-1075 : ℤ) ≤ 2 ^ (e - 1) := by
        have := hc.least_le
        exact zpow_le_zpow_right₀ one_le_two (by rw [leastExponent] at this; omega)
    _ = (1 - 1 / 2) * 2 ^ e := by
      rw [zpow_sub_one₀ two_ne_zero]
      ring
    _ ≤ (m - 1 / 2) * 2 ^ e := mul_le_mul_of_nonneg_right (by linarith) (zpow_pos two_pos e).le
    _ ≤ v := (h.bounds hm).1

theorem Contains.even_of_tie (h : (around m e).Contains v) (hm : 0 < m) (htie : |v / 2 ^ e - m| = 1 / 2) :
    m % 2 = 0 := by
  have hpos : (0 : ℚ) < 2 ^ e := zpow_pos two_pos e
  obtain ⟨hlow, hhigh⟩ := ends hm e
  by_contra hodd
  -- the ends of an open interval do not belong to it
  obtain ⟨hl, hh⟩ := h.strict (by simpa [around] using hodd)
  obtain hup | hdown := (abs_eq (by norm_num)).mp htie
  · have hv : v = (m + 1 / 2) * 2 ^ e := (div_eq_iff hpos.ne').mp (by linarith)
    exact absurd hh (not_lt.mpr (hhigh.trans hv.symm).le)
  · have hv : v = (m - 1 / 2) * 2 ^ e := (div_eq_iff hpos.ne').mp (by linarith)
    exact absurd hl (not_lt.mpr (hv.trans_le hlow))

/-- A number in the interval of a double that has its exponent rounds to it. -/
theorem Contains.rounds (h : (around m e).Contains v) (hc : Canonical m e) (hm : 0 < m)
    (hv : leastExponent < e → (2 : ℚ) ^ (e + 52) ≤ v) : Rounds leastExponent v m e where
  nearest := by
    have hpos : (0 : ℚ) < 2 ^ e := zpow_pos two_pos e
    obtain ⟨hlow, hhigh⟩ := h.bounds hm
    refine ⟨abs_le.mpr ⟨?_, ?_⟩, h.even_of_tie hm⟩
    · have := (le_div_iff₀ hpos).mpr hlow
      linarith
    · have := (div_le_iff₀ hpos).mpr hhigh
      linarith
  least_le := hc.least_le
  lt := by
    have hlt : (m : ℚ) + 1 / 2 < 2 ^ 53 := by
      have : (m : ℚ) + 1 ≤ 2 ^ 53 := mod_cast hc.lt
      linarith
    rw [zpow_add₀ two_ne_zero, mul_comm]
    exact (h.bounds hm).2.trans_lt (mul_lt_mul_of_pos_right hlt (zpow_pos two_pos e))
  normal := hv

/-- Only the least significand has numbers with a smaller exponent in its interval. -/
theorem Contains.eq_pow (h : (around m e).Contains v) (hnormal : 2 ^ 52 ≤ m) (hv : v < 2 ^ (e + 52)) :
    m = 2 ^ 52 := by
  have hlow := ((h.bounds (lt_of_lt_of_le (by decide) hnormal)).1).trans_lt hv
  rw [zpow_add₀ two_ne_zero, mul_comm _ ((2 : ℚ) ^ (52 : ℤ))] at hlow
  have hlt := lt_of_mul_lt_mul_right hlow (zpow_pos two_pos e).le
  have hsucc : (m : ℚ) < 2 ^ 52 + 1 := by
    norm_num at hlt
    linarith
  have : m < 2 ^ 52 + 1 := mod_cast hsucc
  omega

/-- Below the least significand the interval ends half a place of the smaller exponent away. -/
theorem Contains.low_le_of_pow (h : (around (2 ^ 52) e).Contains v) (he : leastExponent < e) :
    (2 ^ 53 - 1 / 2) * 2 ^ (e - 1) ≤ v := by
  have hle := h.low_le
  have hlow : (around (2 ^ 52) e).low = 4 * 2 ^ 52 - 1 := by simp [around, leastNormal, he.ne']
  have hexponent : (around (2 ^ 52) e).exponent = e - 2 := rfl
  have hhalf : (2 : ℚ) ^ (e - 1) = 2 * 2 ^ (e - 2) := by
    rw [← zpow_one_add₀ two_ne_zero]
    congr 1
    ring
  rw [hlow, hexponent, magnitude] at hle
  rw [hhalf]
  norm_num at hle ⊢
  linarith

/-- A number in the interval of a double that has a smaller exponent rounds to a carry. -/
theorem Contains.rounds_carry (h : (around (2 ^ 52) e).Contains v) (he : leastExponent < e)
    (hv : v < 2 ^ (e + 52)) : Rounds leastExponent v (2 ^ 53) (e - 1) := by
  have hpos : (0 : ℚ) < 2 ^ (e - 1) := zpow_pos two_pos _
  have hlow := h.low_le_of_pow he
  have hv' : v < 2 ^ 53 * 2 ^ (e - 1) := by
    refine hv.trans_eq ?_
    rw [← zpow_natCast, ← zpow_add₀ two_ne_zero]
    congr 1
    push_cast
    ring
  refine ⟨⟨?_, fun _ => by decide⟩, by omega, ?_, fun _ => ?_⟩
  · have hle := (le_div_iff₀ hpos).mpr hlow
    have hlt := (div_lt_iff₀ hpos).mpr hv'
    rw [abs_le]
    push_cast
    constructor <;> linarith
  · exact hv'.trans_eq (by rw [zpow_add₀ two_ne_zero, mul_comm]; rfl)
  · refine le_trans ?_ hlow
    rw [zpow_add₀ two_ne_zero, mul_comm]
    exact mul_le_mul_of_nonneg_right (by norm_num) hpos.le

end Interval

/-- The numbers in the interval of a double round to it. -/
theorem nearest_eq_pack_of_contains (hc : Canonical m e) (hm : 0 < m) (hden : 0 < den)
    (h : (Interval.around m e).Contains (num / den)) (negative : Bool) :
    Binary64.nearest negative num den = pack negative m e := by
  have hnum : 0 < num := by
    have hpos := h.pos hm
    exact_mod_cast (div_pos_iff_of_pos_right (by positivity)).mp hpos
  by_cases hcase : leastExponent < e → (2 : ℚ) ^ (e + 52) ≤ num / den
  · exact nearest_eq_pack negative hnum hden (h.rounds hc hm hcase)
  · obtain ⟨he, hv⟩ := Classical.not_imp.mp hcase
    obtain rfl := h.eq_pow (hc.normal he) (not_le.mp hv)
    rw [nearest_eq_pack negative hnum hden (h.rounds_carry he (not_le.mp hv)),
      pack_carry negative (by omega), sub_add_cancel]

/-- The powers of two below a power of ten. -/
theorem pow_le_powerAbove (e : ℤ) : (2 : ℚ) ^ e ≤ 10 ^ powerAbove e := by
  unfold powerAbove
  split
  · next h =>
    calc (2 : ℚ) ^ e ≤ 2 ^ (3 * (e / 3 + 1)) := zpow_le_zpow_right₀ one_le_two (by omega)
      _ = 8 ^ (e / 3 + 1) := by
        rw [zpow_mul]
        norm_num
      _ ≤ 10 ^ (e / 3 + 1) := zpow_le_zpow_left₀ (by omega) (by norm_num) (by norm_num)
  · next h =>
    calc (2 : ℚ) ^ e ≤ 2 ^ (4 * -(-e / 4)) := zpow_le_zpow_right₀ one_le_two (by omega)
      _ = (16 ^ (-e / 4))⁻¹ := by
        rw [zpow_mul, zpow_neg]
        norm_num
      _ ≤ (10 ^ (-e / 4))⁻¹ := by
        apply inv_anti₀ (zpow_pos (by norm_num) _)
        exact zpow_le_zpow_left₀ (by omega) (by norm_num) (by norm_num)
      _ = 10 ^ (-(-e / 4)) := (zpow_neg _ _).symm

/-- A decimal whose value rounds to a double, without zeros at its end. -/
structure Identifies (m : ℕ) (e : ℤ) (d : Scientific) : Prop where
  contains : (Interval.around m e).Contains (d.digits * 10 ^ d.exponent)
  last : d.digits % 10 ≠ 0

/-- No multiple of the power of ten that is tried first is near to the double. -/
theorem not_meets_top (hm : 0 < m) (hc : 0 < c) (e : ℤ) :
    ¬ (Interval.around m e).Contains (c * 10 ^ powerAbove (m.log2 + 1 + e)) := by
  intro h
  have hhigh := (h.bounds hm).2
  have hpos : (0 : ℚ) < 2 ^ e := zpow_pos two_pos e
  have hlog : ((m + 1 : ℕ) : ℚ) ≤ 2 ^ ((m.log2 + 1 : ℕ) : ℤ) := by
    rw [zpow_natCast]
    exact_mod_cast Nat.lt_log2_self
  have hten := pow_le_powerAbove (m.log2 + 1 + e)
  have hpow : ((m + 1 : ℕ) : ℚ) * 2 ^ e ≤ 10 ^ powerAbove (m.log2 + 1 + e) := by
    refine le_trans ?_ hten
    rw [zpow_add₀ two_ne_zero]
    exact mul_le_mul_of_nonneg_right (by exact_mod_cast hlog) hpos.le
  have hone : (1 : ℚ) * 10 ^ powerAbove (m.log2 + 1 + e) ≤ c * 10 ^ powerAbove (m.log2 + 1 + e) :=
    mul_le_mul_of_nonneg_right (mod_cast hc) (zpow_pos (by norm_num) _).le
  push_cast at hpow
  nlinarith

/-- What ends in a zero lies on the next coarser grid. -/
theorem meets_succ {n : ℕ} (h : i.Contains (n * 10 ^ k)) (hlast : n % 10 = 0) : i.Meets (k + 1) := by
  refine ⟨n / 10, ?_⟩
  have hten : ((n / 10 : ℕ) : ℚ) * 10 = n := mod_cast Nat.div_mul_cancel (Nat.dvd_of_mod_eq_zero hlast)
  rw [zpow_add₀ (by norm_num), zpow_one, mul_comm (10 ^ k : ℚ), ← mul_assoc, hten]
  exact h

/-- A double lies on the grid of its own last place. -/
theorem meets_bottom (hm : 0 < m) (e : ℤ) : (Interval.around m e).Meets (min e 0) := by
  have hcentre := Interval.contains_centre hm e
  obtain h | h := le_total 0 e
  · refine ⟨m * 2 ^ e.toNat, ?_⟩
    rw [min_eq_right h, zpow_zero, mul_one, Nat.cast_mul, Nat.cast_pow, Nat.cast_ofNat, ← zpow_natCast,
      Int.toNat_of_nonneg h]
    exact hcentre
  · refine ⟨m * 5 ^ (-e).toNat, ?_⟩
    have hsplit : (10 : ℚ) ^ e = 5 ^ e * 2 ^ e := by
      rw [← mul_zpow]
      norm_num
    have hcancel : (5 : ℚ) ^ (-e).toNat * 5 ^ e = 1 := by
      rw [← zpow_natCast, Int.toNat_of_nonneg (by omega), ← zpow_add₀ (by norm_num), neg_add_cancel, zpow_zero]
    rw [min_eq_left h, Nat.cast_mul, Nat.cast_pow, Nat.cast_ofNat, hsplit, mul_assoc, ← mul_assoc _ _ (2 ^ e : ℚ),
      hcancel, one_mul]
    exact hcentre

theorem contains_quarters (hm : 0 < m) (e : ℤ) : (Interval.around m e).Contains
    (magnitude (Interval.around m e).centre (Interval.around m e).exponent) := by
  have := Interval.contains_centre hm e
  rwa [← Interval.magnitude_quarters] at this

/-- The search comes to an end with the decimal. -/
theorem search_eq_shortest (tie : Tie) (hm : 0 < m) (e : ℤ) :
    (Interval.around m e).search tie (powerAbove (m.log2 + 1 + e) - min e 0 + 1).toNat
      (powerAbove (m.log2 + 1 + e)) = some (shortest tie m e) := by
  have htop : min e 0 ≤ powerAbove (m.log2 + 1 + e) := by
    unfold powerAbove
    split <;> omega
  obtain ⟨d, hd⟩ : ∃ d, (Interval.around m e).search tie (powerAbove (m.log2 + 1 + e) - min e 0 + 1).toNat
      (powerAbove (m.log2 + 1 + e)) = some d :=
    Interval.search_isSome (contains_quarters hm e) (meets_bottom hm e) htop (by omega)
  rw [hd, shortest, hd, Option.getD_some]

theorem not_meets_above_top (hm : 0 < m) (e : ℤ) (hk : powerAbove (m.log2 + 1 + e) ≤ k) :
    ¬ (Interval.around m e).Meets k := by
  rintro ⟨c, hc⟩
  have hpos : 0 < c := by
    have := hc.pos hm
    exact_mod_cast (mul_pos_iff_of_pos_right (zpow_pos (by norm_num) _)).mp this
  obtain ⟨j, hj⟩ := Int.eq_ofNat_of_zero_le (sub_nonneg.mpr hk)
  have hsplit : (c : ℚ) * 10 ^ k = (c * 10 ^ j : ℕ) * 10 ^ powerAbove (m.log2 + 1 + e) := by
    rw [← sub_add_cancel k (powerAbove (m.log2 + 1 + e)), hj, zpow_add₀ (by norm_num)]
    push_cast
    rw [zpow_natCast]
    ring
  rw [hsplit] at hc
  exact not_meets_top hm (by positivity) e hc

/-- No grid that is coarser than that of the decimal has a point in the interval. -/
theorem shortest_coarsest (tie : Tie) (hm : 0 < m) (e : ℤ) (hk : (shortest tie m e).exponent < k) :
    ¬ (Interval.around m e).Meets k := by
  obtain ⟨-, -, hcoarser⟩ := Interval.search_spec (contains_quarters hm e) (search_eq_shortest tie hm e)
  obtain hle | hlt := le_or_gt k (powerAbove (m.log2 + 1 + e))
  · exact hcoarser k hk hle
  · exact not_meets_above_top hm e hlt.le

theorem shortest_identifies (tie : Tie) (hm : 0 < m) (e : ℤ) : Identifies m e (shortest tie m e) := by
  obtain ⟨hcontains, -, -⟩ := Interval.search_spec (contains_quarters hm e) (search_eq_shortest tie hm e)
  exact ⟨hcontains, fun hlast => shortest_coarsest tie hm e (Int.lt_succ _) (meets_succ hcontains hlast)⟩

end Reckoner.Decimal
