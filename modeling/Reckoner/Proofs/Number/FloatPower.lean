import Reckoner.Number.Rounding
import Reckoner.Proofs.Binary64.Whole

/-! Powers of ten by repeated squaring in doubles: exact as far as they have 53 bits, and near to the power up to the
greatest power of ten among the doubles. -/
namespace Reckoner.Number
open Binary64 Decimal

variable {a found x y : Float} {i j n : ℕ} {v w : ℚ}

/-- What products keep is kept by repeated squaring, as long as the powers stay within a limit. -/
theorem floatPowNat_induction (P : ℕ → Float → Prop) (limit : ℕ)
    (hmul : ∀ i j x y, 1 ≤ j → i + j ≤ limit → P i x → P j y → P (i + j) (x * y)) (hn : 0 < n) (hj : 1 ≤ j)
    (hlimit : i + j * n ≤ limit) (hfound : P i found) (ha : P j a) : P (i + j * n) (floatPowNat a n found) := by
  induction n using Nat.strong_induction_on generalizing a found i j with
  | _ n ih =>
    rw [floatPowNat]
    have hsplit : i + j * n = i + j * (n % 2) + (j + j) * (n / 2) := by
      conv_lhs => rw [← Nat.div_add_mod n 2]
      ring
    have hfound' : P (i + j * (n % 2)) (if n % 2 = 1 then found * a else found) := by
      obtain heven | hodd := Nat.mod_two_eq_zero_or_one n
      · rwa [heven, if_neg (by decide), Nat.mul_zero, Nat.add_zero]
      · rw [hodd, if_pos rfl, Nat.mul_one]
        refine hmul i j _ _ hj ?_ hfound ha
        exact (Nat.add_le_add_left (Nat.le_mul_of_pos_right j hn) i).trans hlimit
    split
    · next hhalf =>
      rw [hsplit, hhalf, Nat.mul_zero, Nat.add_zero]
      exact hfound'
    · next hhalf =>
      rw [hsplit] at hlimit ⊢
      have hhalf : 0 < n / 2 := Nat.pos_of_ne_zero hhalf
      have hdouble : j + j ≤ limit := by
        have := Nat.le_mul_of_pos_right (j + j) hhalf
        omega
      exact ih (n / 2) (by omega) hhalf (by omega) hlimit hfound' (hmul j j a a hj hdouble ha ha)

theorem one_hasValue : HasValue 1.0 false 1 := by
  have h : view 1.0 = .finite false (2 ^ 52) (-52) := by decide +kernel
  have hvalue : magnitude (2 ^ 52) (-52) = 1 := magnitude_pow 52 (-52)
  exact hvalue ▸ .of_view h

theorem ten_hasValue : HasValue 10.0 false 10 := by
  have h : view 10.0 = .finite false (5 * 2 ^ 50) (-49) := by decide +kernel
  have hvalue : magnitude (5 * 2 ^ 50) (-49) = 10 := by
    rw [magnitude, zpow_neg]
    norm_num
  exact hvalue ▸ .of_view h

theorem ten_pow_le_greatest_of_bound {k : ℕ} (hbound : 3 * 10 ^ k ≤ 2 * ((2 ^ 53 - 1) * 2 ^ 971)) (h : n ≤ k) :
    (10 : ℚ) ^ n * (3 / 2) ≤ greatest := by
  have hgreatest : greatest = ((2 ^ 53 - 1) * 2 ^ 971 : ℕ) := magnitude_natCast (2 ^ 53 - 1) 971
  have hpow := (Nat.mul_le_mul_left 3 (Nat.pow_le_pow_right (by decide : 0 < 10) h)).trans hbound
  generalize (2 ^ 53 - 1) * 2 ^ 971 = bound at *
  have hcast : (3 * 10 ^ n : ℚ) ≤ 2 * bound := mod_cast hpow
  rw [hgreatest]
  linarith

/-- The greatest power of ten among the doubles leaves room above it. -/
theorem ten_pow_le_greatest (h : n ≤ 308) : (10 : ℚ) ^ n * (3 / 2) ≤ greatest :=
  ten_pow_le_greatest_of_bound (by decide +kernel) h

/-- Powers of ten with a power of five of 53 bits are doubles. -/
theorem roundsTo_ten_pow (h : n ≤ 22) : RoundsTo (10 ^ n) (10 ^ n) := by
  have hvalue : magnitude (5 ^ n) n = 10 ^ n := by
    rw [magnitude, zpow_natCast, Nat.cast_pow, Nat.cast_ofNat, ← mul_pow]
    norm_num
  have hbits : 5 ^ n ≤ 2 ^ 53 := (Nat.pow_le_pow_right (by decide) h).trans (by decide)
  rw [← hvalue]
  exact .self hbits ((by decide : leastExponent ≤ 0).trans (Int.natCast_nonneg n))

theorem ten_pow_exact_mul (h : i + j ≤ 22) (hx : HasValue x false (10 ^ i)) (hy : HasValue y false (10 ^ j)) :
    HasValue (x * y) false (10 ^ (i + j)) := by
  refine hx.mul_right hy ?_ ?_ <;> rw [← pow_add]
  · exact roundsTo_ten_pow h
  · exact (le_mul_of_one_le_right (by positivity) (by norm_num)).trans (ten_pow_le_greatest (h.trans (by decide)))

theorem floatPowNat_ten_exact (hn : 0 < n) (h : n ≤ 22) : HasValue (floatPowNat 10.0 n 1.0) false (10 ^ n) := by
  have hone : HasValue 1.0 false (10 ^ 0) := by rw [pow_zero]; exact one_hasValue
  have hten : HasValue 10.0 false (10 ^ 1) := by rw [pow_one]; exact ten_hasValue
  have hpower := floatPowNat_induction (fun i x => HasValue x false (10 ^ i)) 22
    (fun _ _ _ _ _ => ten_pow_exact_mul) hn le_rfl (by omega : 0 + 1 * n ≤ 22) hone hten
  rwa [Nat.zero_add, Nat.one_mul] at hpower

/-- A double that stands for a power of ten up to one rounding for each factor after the first. -/
def NearPower (i : ℕ) (x : Float) : Prop := ∃ v, HasValue x false v ∧
  10 ^ i * (1 - 2 ^ (-53 : ℤ)) ^ (i - 1) ≤ v ∧ v ≤ 10 ^ i * (1 + 2 ^ (-53 : ℤ)) ^ (i - 1)

theorem one_sub_pow_ge (h : n ≤ 308) : 1 - 2 ^ (-44 : ℤ) ≤ (1 - 2 ^ (-53 : ℤ) : ℚ) ^ n := by
  have hbernoulli := one_add_mul_le_pow (show (-2 : ℚ) ≤ -2 ^ (-53 : ℤ) by norm_num) n
  have hn : (n : ℚ) ≤ 308 := mod_cast h
  rw [← sub_eq_add_neg] at hbernoulli
  refine le_trans ?_ hbernoulli
  norm_num
  linarith

theorem one_add_pow_le (h : n ≤ 308) : (1 + 2 ^ (-53 : ℤ) : ℚ) ^ n ≤ 1 + 2 ^ (-44 : ℤ) := by
  have hn : (n : ℚ) ≤ 308 := mod_cast h
  have hbernoulli := one_add_mul_le_pow (show (-2 : ℚ) ≤ -2 ^ (-53 : ℤ) by norm_num) n
  have hproduct : (1 + 2 ^ (-53 : ℤ) : ℚ) ^ n * (1 + -2 ^ (-53 : ℤ)) ^ n ≤ 1 := by
    rw [← mul_pow]
    exact pow_le_one₀ (by norm_num) (by norm_num)
  have hpos : (0 : ℚ) < (1 + 2 ^ (-53 : ℤ)) ^ n := by positivity
  generalize (1 + 2 ^ (-53 : ℤ) : ℚ) ^ n = a at *
  have hle : a * (1 - 308 * 2 ^ (-53 : ℤ)) ≤ 1 := by
    refine le_trans (mul_le_mul_of_nonneg_left (le_trans ?_ hbernoulli) hpos.le) hproduct
    norm_num
    linarith
  norm_num at hle ⊢
  linarith

/-- A rounded product of two numbers within some bounds is within the bounds of the product, one step wider. -/
theorem exists_rounded_product {p : ℚ} (hp : 1 ≤ p) (hgreatest : p * (3 / 2) ≤ greatest) (hn : n ≤ 308)
    (hlow : p * (1 - 2 ^ (-53 : ℤ)) ^ n ≤ v) (hhigh : v ≤ p * (1 + 2 ^ (-53 : ℤ)) ^ n) :
    v ≤ greatest ∧ ∃ u, RoundsTo v u ∧ p * (1 - 2 ^ (-53 : ℤ)) ^ (n + 1) ≤ u ∧
      u ≤ p * (1 + 2 ^ (-53 : ℤ)) ^ (n + 1) := by
  have hpos : 0 < p := one_pos.trans_le hp
  have hvlow := (mul_le_mul_of_nonneg_left (one_sub_pow_ge hn) hpos.le).trans hlow
  have hvhigh := hhigh.trans (mul_le_mul_of_nonneg_left (one_add_pow_le hn) hpos.le)
  have hquarter : 1 / 4 ≤ v := by
    norm_num at hvlow
    linarith
  obtain ⟨u, hu⟩ := RoundsTo.exists_of_nonneg (by linarith : 0 ≤ v)
  obtain ⟨hcloselow, hclosehigh⟩ := abs_le.mp (hu.close_of_quarter_le hquarter)
  refine ⟨?_, u, hu, ?_, ?_⟩
  · norm_num at hvhigh
    linarith
  · rw [pow_succ, ← mul_assoc]
    have := mul_le_mul_of_nonneg_right hlow (by norm_num : (0 : ℚ) ≤ 1 - 2 ^ (-53 : ℤ))
    linarith
  · rw [pow_succ, ← mul_assoc]
    have := mul_le_mul_of_nonneg_right hhigh (by norm_num : (0 : ℚ) ≤ 1 + 2 ^ (-53 : ℤ))
    linarith

/-- Before the first factor there is nothing to round. -/
theorem NearPower.mul (hj : 1 ≤ j) (h : i + j ≤ 308) (hx : NearPower i x) (hy : NearPower j y) :
    NearPower (i + j) (x * y) := by
  obtain ⟨v, hv, hvlow, hvhigh⟩ := hx
  obtain ⟨w, hw, hwlow, hwhigh⟩ := hy
  obtain ⟨j, rfl⟩ := Nat.exists_eq_add_of_le' hj
  cases i with
  | zero =>
    have hone : v = 1 := le_antisymm (by simpa using hvhigh) (by simpa using hvlow)
    have hproduct := hv.mul_right hw (u := w) (by rw [hone, one_mul]; exact hw.roundsTo)
      (by rw [hone, one_mul]; exact hw.le_greatest)
    rw [Nat.zero_add]
    exact ⟨w, hproduct, hwlow, hwhigh⟩
  | succ i =>
    rw [Nat.add_sub_cancel] at *
    have hsplit (a : ℚ) : (10 : ℚ) ^ (i + 1 + (j + 1)) * a ^ (i + j) =
        10 ^ (i + 1) * a ^ i * (10 ^ (j + 1) * a ^ j) := by
      rw [pow_add 10 (i + 1), pow_add a]
      ring
    have hlow : 10 ^ (i + 1 + (j + 1)) * (1 - 2 ^ (-53 : ℤ)) ^ (i + j) ≤ v * w := by
      rw [hsplit]
      exact mul_le_mul hvlow hwlow (by norm_num) hv.nonneg
    have hhigh : v * w ≤ 10 ^ (i + 1 + (j + 1)) * (1 + 2 ^ (-53 : ℤ)) ^ (i + j) := by
      rw [hsplit]
      exact mul_le_mul hvhigh hwhigh hw.nonneg (by positivity)
    obtain ⟨hle, u, hu, hulow, huhigh⟩ := exists_rounded_product (one_le_pow₀ (by norm_num))
      (ten_pow_le_greatest h) (by omega) hlow hhigh
    have hpred : i + 1 + (j + 1) - 1 = i + j + 1 := by omega
    exact ⟨u, hv.mul_right hw hu hle, by rwa [hpred], by rwa [hpred]⟩

theorem floatPowNat_ten_near (hn : 0 < n) (h : n ≤ 308) :
    ∃ v, HasValue (floatPowNat 10.0 n 1.0) false v ∧ |v - 10 ^ n| ≤ 10 ^ n * 2 ^ (-44 : ℤ) := by
  have hone : NearPower 0 1.0 := ⟨1, one_hasValue, by norm_num, by norm_num⟩
  have hten : NearPower 1 10.0 := ⟨10, ten_hasValue, by norm_num, by norm_num⟩
  have hpower := floatPowNat_induction NearPower 308 (fun _ _ _ _ => NearPower.mul) hn le_rfl
    (by omega : 0 + 1 * n ≤ 308) hone hten
  rw [Nat.zero_add, Nat.one_mul] at hpower
  obtain ⟨v, hv, hlow, hhigh⟩ := hpower
  have hpos : (0 : ℚ) < 10 ^ n := by positivity
  have hlow' := (mul_le_mul_of_nonneg_left (one_sub_pow_ge ((Nat.sub_le n 1).trans h)) hpos.le).trans hlow
  have hhigh' := hhigh.trans (mul_le_mul_of_nonneg_left (one_add_pow_le ((Nat.sub_le n 1).trans h)) hpos.le)
  exact ⟨v, hv, abs_le.mpr ⟨by linarith, by linarith⟩⟩

/-- The power of ten that is found is exact up to the last one that can be. -/
theorem floatPowNat_ten (hn : 0 < n) (h : n ≤ 308) : ∃ v, HasValue (floatPowNat 10.0 n 1.0) false v ∧
    |v - 10 ^ n| ≤ 10 ^ n * 2 ^ (-44 : ℤ) ∧ (n ≤ 22 → v = 10 ^ n) := by
  by_cases hexact : n ≤ 22
  · refine ⟨10 ^ n, floatPowNat_ten_exact hn hexact, ?_, fun _ => rfl⟩
    rw [sub_self, abs_zero]
    positivity
  · obtain ⟨v, hv, hclose⟩ := floatPowNat_ten_near hn h
    exact ⟨v, hv, hclose, fun hle => absurd hle hexact⟩

end Reckoner.Number
