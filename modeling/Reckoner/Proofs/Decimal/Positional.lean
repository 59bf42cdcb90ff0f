import Reckoner.Decimal.Layout
import Reckoner.Proofs.Decimal.Digits
import Reckoner.Proofs.Decimal.Shortest

/-! Decimals written with a point, and without zeros that could be left out. Both ways in which doubles are
shown lead to such texts, and their values are told from what is shown. -/
namespace Reckoner.Decimal

variable {whole fraction ds es : List Char} {n k places count : ℕ} {e : ℤ}

/-- Digits with a point before the fraction, if there is one. -/
def positional (whole fraction : List Char) : List Char :=
  whole ++ (if fraction = [] then [] else '.' :: fraction)

/-- Digits around a point without a zero that could be left out. -/
structure Tidy (whole fraction : List Char) : Prop where
  plain : Plain whole
  digits : ∀ c ∈ fraction, isDigit c
  last : fraction.getLast? ≠ some '0'

/-- The number that digits around a point stand for. -/
def decimal (whole fraction : List Char) : ℚ := value (whole ++ fraction) / 10 ^ fraction.length

theorem Plain.tidy (h : Plain ds) : Tidy ds [] := ⟨h, List.forall_mem_nil _, by simp⟩

theorem decimal_nil (ds : List Char) : decimal ds [] = value ds := by
  rw [decimal, List.append_nil, List.length_nil, pow_zero, div_one]

theorem plain_zero : Plain ['0'] := digits_plain 0

theorem Plain.head_ne (h : Plain ds) (hpos : 0 < value ds) : ds.head? ≠ some '0' := by
  intro hhead
  rw [h.head hhead] at hpos
  exact absurd hpos (by decide)

theorem plain_of_head_ne (h : Digits ds) (hhead : ds.head? ≠ some '0') : Plain ds :=
  ⟨h, fun h' => absurd h' hhead⟩

/-- Digits that end in a zero are a multiple of ten. -/
theorem getLast?_ne_zero (h : value ds % 10 ≠ 0) : ds.getLast? ≠ some '0' := by
  intro hlast
  obtain ⟨es, rfl⟩ := List.getLast?_eq_some_iff.mp hlast
  rw [value_snoc] at h
  omega

theorem isDigit_zeros (n : ℕ) : ∀ c ∈ zeros n, isDigit c := by
  intro c hc
  cases List.eq_of_mem_replicate hc
  decide

/-- Digits are cut at the last one that is not zero. -/
theorem exists_strip (ds : List Char) : ∃ es k, ds = es ++ zeros k ∧ es.getLast? ≠ some '0' := by
  induction ds using List.reverseRecOn with
  | nil => exact ⟨[], 0, rfl, by simp⟩
  | append_singleton ds c ih =>
    by_cases hc : c = '0'
    · obtain ⟨es, k, rfl, hlast⟩ := ih
      exact ⟨es, k + 1, by rw [hc, zeros, zeros, List.replicate_succ', List.append_assoc], hlast⟩
    · exact ⟨ds ++ [c], 0, by simp [zeros], by simpa using hc⟩

theorem positional_nil (whole : List Char) : positional whole [] = whole := List.append_nil whole

theorem positional_pointed (whole : List Char) (h : fraction ≠ []) :
    positional whole fraction = whole ++ '.' :: fraction := by
  rw [positional, if_neg h]

theorem placePoint_after (ds : List Char) (j : ℕ) : placePoint false ds (ds.length + j) = ds ++ zeros j := by
  rw [placePoint, if_pos (by omega)]
  simp

theorem placePoint_within (hwhole : whole ≠ []) (h : fraction ≠ []) :
    placePoint false (whole ++ fraction) whole.length = positional whole fraction := by
  have hpos := List.length_pos_iff.mpr hwhole
  have hpos' := List.length_pos_iff.mpr h
  rw [placePoint, if_neg (by rw [List.length_append]; omega), if_pos (by omega), positional_pointed whole h]
  simp

theorem placePoint_before (hds : ds ≠ []) (j : ℕ) :
    placePoint false ds (-j) = positional ['0'] (zeros j ++ ds) := by
  have hpos := List.length_pos_iff.mpr hds
  rw [placePoint, if_neg (by omega), if_neg (by omega), positional_pointed _ (by simp [hds])]
  simp

/-- Digits with zeros behind them. -/
theorem tidy_after (h : Digits ds) (hhead : ds.head? ≠ some '0') (j : ℕ) : Tidy (ds ++ zeros j) [] ∧
    decimal (ds ++ zeros j) [] = value ds * 10 ^ j := by
  have hdigits : Digits (ds ++ zeros j) :=
    ⟨List.append_ne_nil_of_left_ne_nil h.1 _, List.forall_mem_append.mpr ⟨h.2, isDigit_zeros j⟩⟩
  refine ⟨(plain_of_head_ne hdigits (by rwa [List.head?_append_of_ne_nil _ h.1])).tidy, ?_⟩
  rw [decimal_nil, value_append, zeros, value_replicate_zero, List.length_replicate, add_zero]
  push_cast
  rfl

/-- Digits with a point between them. -/
theorem tidy_within (h : ∀ c ∈ whole ++ fraction, isDigit c) (hwhole : whole ≠ [])
    (hhead : (whole ++ fraction).head? ≠ some '0') (hfraction : fraction ≠ [])
    (hlast : (whole ++ fraction).getLast? ≠ some '0') : Tidy whole fraction := by
  obtain ⟨hw, hf⟩ := List.forall_mem_append.mp h
  rw [List.head?_append_of_ne_nil _ hwhole] at hhead
  rw [List.getLast?_append_of_ne_nil _ hfraction] at hlast
  exact ⟨plain_of_head_ne ⟨hwhole, hw⟩ hhead, hf, hlast⟩

/-- Digits with zeros before them, and the point before those. -/
theorem tidy_before (h : Digits ds) (hlast : ds.getLast? ≠ some '0') (j : ℕ) : Tidy ['0'] (zeros j ++ ds) ∧
    decimal ['0'] (zeros j ++ ds) = value ds / 10 ^ (j + ds.length) := by
  refine ⟨⟨plain_zero, List.forall_mem_append.mpr ⟨isDigit_zeros j, h.2⟩, ?_⟩, ?_⟩
  · rwa [List.getLast?_append_of_ne_nil _ h.1]
  · have hzeros : value (['0'] ++ (zeros j ++ ds)) = value ds := by
      rw [← List.append_assoc, value_append, ← List.replicate_one, zeros, List.replicate_append_replicate,
        value_replicate_zero, zero_mul, zero_add]
    rw [decimal, hzeros, List.length_append, zeros, List.length_replicate]

/-- The digits of a number with a point somewhere, behind or before them or between them. -/
theorem placePoint_tidy (hn : n % 10 ≠ 0) (k : ℤ) : ∃ whole fraction, Tidy whole fraction ∧
    placePoint false (Decimal.digits n) ((Decimal.digits n).length + k) = positional whole fraction ∧
    decimal whole fraction = n * 10 ^ k := by
  have hplain := digits_plain n
  have hvalue := value_digits n
  have hlast := getLast?_ne_zero (by rwa [hvalue])
  have hhead := hplain.head_ne (by omega)
  generalize Decimal.digits n = ds at *
  rw [← hvalue]
  obtain hk | hk := le_or_gt 0 k
  · obtain ⟨j, rfl⟩ := Int.eq_ofNat_of_zero_le hk
    obtain ⟨htidy, hdecimal⟩ := tidy_after hplain.all hhead j
    exact ⟨_, _, htidy, by rw [positional_nil, placePoint_after], hdecimal.trans (by rw [zpow_natCast])⟩
  have hpow {j : ℕ} (hj : k = -j) : (value ds : ℚ) * 10 ^ k = value ds / 10 ^ j := by
    rw [hj, zpow_neg, zpow_natCast, div_eq_mul_inv]
  obtain hlt | hge := lt_or_ge (-k) ds.length
  · obtain ⟨whole, fraction, rfl, hlength⟩ : ∃ whole fraction, ds = whole ++ fraction ∧ k = -fraction.length :=
      ⟨ds.take (ds.length + k).toNat, ds.drop (ds.length + k).toNat, (List.take_append_drop _ _).symm, by
        rw [List.length_drop]
        omega⟩
    rw [List.length_append] at hlt
    have hwhole : whole ≠ [] := List.ne_nil_of_length_pos (by omega)
    have hfraction : fraction ≠ [] := List.ne_nil_of_length_pos (by omega)
    have htidy := tidy_within hplain.all.2 hwhole hhead hfraction hlast
    refine ⟨whole, fraction, htidy, ?_, by rw [decimal, hpow hlength]⟩
    rw [← placePoint_within hwhole hfraction, List.length_append, hlength]
    congr 1
    push_cast
    ring
  · obtain ⟨j, hj⟩ := Int.eq_ofNat_of_zero_le (sub_nonneg.mpr hge)
    obtain ⟨htidy, hdecimal⟩ := tidy_before hplain.all hlast j
    refine ⟨_, _, htidy, ?_, hdecimal.trans (hpow (by omega)).symm⟩
    rw [← placePoint_before hplain.all.1]
    congr 1
    omega

theorem pow_two_le_pow_ten : 2 ^ 1076 ≤ 10 ^ 331 := by
  calc 2 ^ 1076 ≤ 2 ^ (33 * 33) := pow_le_pow_right₀ one_le_two (by decide)
    _ = (2 ^ 33) ^ 33 := pow_mul 2 33 33
    _ ≤ (10 ^ 10) ^ 33 := Nat.pow_le_pow_left (by decide) 33
    _ = 10 ^ (10 * 33) := (pow_mul 10 10 33).symm
    _ ≤ 10 ^ 331 := pow_le_pow_right₀ (by decide) (by decide)

theorem pow_le_of_zpow_le {c : ℕ} (h : (2 : ℚ) ^ (-c : ℤ) ≤ n / 10 ^ k) : 10 ^ k ≤ n * 2 ^ c := by
  rw [zpow_neg, ← one_div, div_le_div_iff₀ (zpow_pos two_pos _) (by positivity), one_mul, zpow_natCast] at h
  exact_mod_cast h

/-- A decimal that is not far below all doubles has few places before its first digit. -/
theorem places_le (h : (2 : ℚ) ^ (-1075 : ℤ) ≤ n / 10 ^ k) : k ≤ 330 + n.log2 := by
  by_contra! hlt
  have hlog : n < 2 ^ (n.log2 + 1) := Nat.lt_log2_self
  have htwo : 2 ^ n.log2 ≤ 10 ^ n.log2 := Nat.pow_le_pow_left (by decide) _
  have hsmaller : 10 ^ k < 10 ^ k := by
    calc 10 ^ k ≤ n * 2 ^ 1075 := pow_le_of_zpow_le h
      _ < 2 ^ (n.log2 + 1) * 2 ^ 1075 := mul_lt_mul_of_pos_right hlog (pow_pos two_pos _)
      _ = 2 ^ 1076 * 2 ^ n.log2 := by
        rw [← pow_add, ← pow_add]
        congr 1
        omega
      _ ≤ 10 ^ 331 * 10 ^ n.log2 := Nat.mul_le_mul pow_two_le_pow_ten htwo
      _ = 10 ^ (331 + n.log2) := (pow_add 10 331 _).symm
      _ ≤ 10 ^ k := pow_le_pow_right₀ (by decide) (by omega)
  exact lt_irrefl _ hsmaller

/-- Decimals that are not far below all doubles are read by rounding their value. -/
theorem toFloat_eq_nearest (h : decimal whole fraction = 0 ∨ 2 ^ (-1075 : ℤ) ≤ decimal whole fraction)
    (negative : Bool) : (⟨whole, fraction, 0⟩ : Numeral).toFloat negative =
      Binary64.nearest negative (value (whole ++ fraction)) (10 ^ fraction.length) := by
  rw [Numeral.toFloat, nearest]
  dsimp only
  rw [decimal] at h
  generalize value (whole ++ fraction) = n at *
  generalize fraction.length = k at *
  split
  · next hzero => rw [hzero, Binary64.nearest, if_pos rfl]
  · next hpos =>
    have hk := places_le (h.resolve_left (div_ne_zero (mod_cast hpos) (by positivity)))
    rw [if_neg (by omega), if_neg (by omega), Nat.pow_eq, Nat.pow_eq]
    simp

end Reckoner.Decimal
