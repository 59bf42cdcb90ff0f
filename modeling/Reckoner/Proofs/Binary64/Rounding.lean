import Reckoner.Binary64.Nearest
import Mathlib

/-! Quotients rounded to whole numbers and to 53 significant bits, as rational numbers. Rounding is
determined by the quotient and keeps the order. -/
namespace Reckoner.Binary64

/-- The number `significand · 2 ^ exponent`. -/
def magnitude (significand : ℕ) (exponent : ℤ) : ℚ := significand * 2 ^ exponent

theorem magnitude_pow (k : ℕ) (e : ℤ) : magnitude (2 ^ k) e = 2 ^ (e + k) := by
  rw [magnitude, Nat.cast_pow, Nat.cast_ofNat, ← zpow_natCast, ← zpow_add₀ two_ne_zero, add_comm]

theorem magnitude_nonneg (m : ℕ) (e : ℤ) : 0 ≤ magnitude m e := by
  unfold magnitude
  positivity

theorem magnitude_mono {m m' : ℕ} (h : m ≤ m') (e : ℤ) : magnitude m e ≤ magnitude m' e :=
  mul_le_mul_of_nonneg_right (mod_cast h) (zpow_pos two_pos e).le

theorem lt_of_zpow_lt {a b : ℤ} (h : (2 : ℚ) ^ a < 2 ^ b) : a < b :=
  (zpow_lt_zpow_iff_right₀ one_lt_two).mp h

/-- Numbers of 53 bits keep the order of their exponents. -/
theorem magnitude_le_of_lt {m m' : ℕ} {e e' : ℤ} (he : e < e') (hm : m ≤ 2 ^ 53) (hm' : 2 ^ 52 ≤ m') :
    magnitude m e ≤ magnitude m' e' := by
  calc magnitude m e ≤ magnitude (2 ^ 53) e := magnitude_mono hm e
    _ = 2 ^ (e + (53 : ℕ)) := magnitude_pow 53 e
    _ ≤ 2 ^ (e' + (52 : ℕ)) := zpow_le_zpow_right₀ one_le_two (by omega)
    _ = magnitude (2 ^ 52) e' := (magnitude_pow 52 e').symm
    _ ≤ magnitude m' e' := magnitude_mono hm' e'

/-- A whole number next to a quotient; one halfway between two of them goes to the even one. -/
structure IsNearest (q : ℚ) (k : ℕ) : Prop where
  close : |q - k| ≤ 1 / 2
  even : |q - k| = 1 / 2 → k % 2 = 0

variable {q q' : ℚ} {k k' num den num' den' m : ℕ} {least e s : ℤ}

namespace IsNearest

theorem of_lt (h : |q - k| < 1 / 2) : IsNearest q k := ⟨h.le, fun h' => absurd h' h.ne⟩

theorem natCast (k : ℕ) : IsNearest k k := of_lt (by norm_num)

theorem le (h : IsNearest q k) (h' : IsNearest q' k') (hq : q ≤ q') : k ≤ k' := by
  by_contra! hlt
  have hsucc : (k' : ℚ) + 1 ≤ k := mod_cast hlt
  obtain ⟨hlow, -⟩ := abs_le.mp h.close
  obtain ⟨-, hhigh⟩ := abs_le.mp h'.close
  -- both quotients lie halfway between two neighbours, which cannot both be even
  have hk : (k : ℚ) = k' + 1 := by linarith
  have heven := h.even (by rw [abs_eq (by norm_num)]; right; linarith)
  have heven' := h'.even (by rw [abs_eq (by norm_num)]; left; linarith)
  have : k = k' + 1 := mod_cast hk
  omega

theorem unique (h : IsNearest q k) (h' : IsNearest q k') : k = k' :=
  Nat.le_antisymm (h.le h' le_rfl) (h'.le h le_rfl)

theorem natCast_le {n : ℕ} (h : IsNearest q k) (hn : (n : ℚ) ≤ q) : n ≤ k := (natCast n).le h hn

theorem le_natCast {n : ℕ} (h : IsNearest q k) (hn : q ≤ n) : k ≤ n := h.le (natCast n) hn

theorem closest (h : IsNearest q k) (n : ℕ) : |q - k| ≤ |q - n| := by
  obtain rfl | hne := eq_or_ne n k
  · rfl
  · have hapart : (1 : ℚ) ≤ |(n : ℚ) - k| := by
      have : (1 : ℤ) ≤ |(n : ℤ) - k| := Int.one_le_abs (by omega)
      exact_mod_cast this
    have htriangle : |(n : ℚ) - k| ≤ |q - n| + |q - k| := by
      have := abs_sub_le (n : ℚ) q k
      rwa [abs_sub_comm (n : ℚ) q] at this
    linarith [h.close]

end IsNearest

theorem isNearest_down {fraction : ℚ} (hnonneg : 0 ≤ fraction) (hle : fraction ≤ 1 / 2)
    (heven : fraction = 1 / 2 → k % 2 = 0) : IsNearest (k + fraction) k := by
  have hdist : |(k + fraction - k : ℚ)| = fraction := by rw [add_sub_cancel_left, abs_of_nonneg hnonneg]
  exact ⟨hdist.trans_le hle, fun h => heven (hdist.symm.trans h)⟩

theorem isNearest_up {fraction : ℚ} (hle : fraction ≤ 1) (hge : 1 / 2 ≤ fraction)
    (heven : fraction = 1 / 2 → (k + 1) % 2 = 0) : IsNearest (k + fraction) (k + 1) := by
  have hdist : |(k + fraction - (k + 1 : ℕ) : ℚ)| = 1 - fraction := by
    rw [abs_sub_comm, Nat.cast_add_one, add_sub_add_left_eq_sub, abs_of_nonneg (by linarith)]
  exact ⟨by linarith, fun h => heven (by linarith)⟩

theorem isNearest_roundDiv (num : ℕ) (hden : 0 < den) : IsNearest (num / den) (roundDiv num den) := by
  have hd : (0 : ℚ) < den := mod_cast hden
  have hsplit : (num / den : ℚ) = (num / den : ℕ) + (num % den : ℕ) / den := by
    have h : (num : ℚ) = den * (num / den : ℕ) + (num % den : ℕ) := mod_cast (Nat.div_add_mod num den).symm
    field_simp
    linarith
  have hlt : ((num % den : ℕ) / den : ℚ) < 1 := by
    rw [div_lt_one hd]
    exact_mod_cast Nat.mod_lt num hden
  have hhalf : ((num % den : ℕ) / den : ℚ) = 1 / 2 ↔ 2 * (num % den) = den := by
    rw [div_eq_div_iff hd.ne' two_ne_zero, one_mul, mul_comm]
    exact_mod_cast Iff.rfl
  have hbelow : ((num % den : ℕ) / den : ℚ) ≤ 1 / 2 ↔ 2 * (num % den) ≤ den := by
    rw [div_le_div_iff₀ hd two_pos, one_mul, mul_comm]
    exact_mod_cast Iff.rfl
  rw [hsplit, roundDiv]
  split
  · next hup =>
    refine isNearest_up hlt.le ?_ fun h => ?_
    · by_contra! h
      have := hbelow.mp h.le
      exact h.ne (hhalf.mpr (by omega))
    · have := hhalf.mp h
      omega
  · next hdown =>
    refine isNearest_down (by positivity) (hbelow.mpr (by omega)) fun h => ?_
    have := hhalf.mp h
    omega

theorem unscale_pos (s : ℤ) (h : 0 < den) : 0 < (unscale num den s).2 :=
  Nat.mul_pos h (Nat.pow_pos two_pos)

theorem unscale_div (num den : ℕ) (s : ℤ) :
    ((unscale num den s).1 / (unscale num den s).2 : ℚ) = num / den / 2 ^ s := by
  have hpow : (2 : ℚ) ^ (-s).toNat / 2 ^ s.toNat = (2 ^ s)⁻¹ := by
    rw [← zpow_natCast, ← zpow_natCast, ← zpow_sub₀ two_ne_zero, ← zpow_neg]
    congr 1
    omega
  simp only [unscale, Nat.pow_eq]
  push_cast
  rw [mul_div_mul_comm, hpow, div_eq_mul_inv (num / den : ℚ)]

theorem unscale_le_iff (hden : 0 < den) :
    (unscale num den s).2 ≤ (unscale num den s).1 ↔ (2 : ℚ) ^ s ≤ num / den := by
  have hpos : (0 : ℚ) < (unscale num den s).2 := mod_cast unscale_pos s hden
  have hdiv := unscale_div num den s
  rw [← one_le_div (zpow_pos (two_pos (α := ℚ)) s), ← hdiv, one_le_div hpos]
  norm_cast

theorem floorLog_spec (hnum : 0 < num) (hden : 0 < den) :
    (2 : ℚ) ^ floorLog num den ≤ num / den ∧ (num / den : ℚ) < 2 ^ (floorLog num den + 1) := by
  have hlog {n : ℕ} (hn : 0 < n) : (2 : ℚ) ^ (n.log2 : ℤ) ≤ n ∧ (n : ℚ) < 2 ^ ((n.log2 : ℤ) + 1) := by
    constructor
    · exact_mod_cast Nat.log2_self_le hn.ne'
    · exact_mod_cast Nat.lt_log2_self
  obtain ⟨hnlow, hnhigh⟩ := hlog hnum
  obtain ⟨hdlow, hdhigh⟩ := hlog hden
  have hd : (0 : ℚ) < den := mod_cast hden
  have hlow : (2 : ℚ) ^ ((num.log2 : ℤ) - den.log2 - 1) ≤ num / den := by
    rw [le_div_iff₀ hd]
    calc (2 : ℚ) ^ ((num.log2 : ℤ) - den.log2 - 1) * den
        ≤ 2 ^ ((num.log2 : ℤ) - den.log2 - 1) * 2 ^ ((den.log2 : ℤ) + 1) := by gcongr
      _ = 2 ^ (num.log2 : ℤ) := by rw [← zpow_add₀ two_ne_zero]; congr 1; ring
      _ ≤ num := hnlow
  have hhigh : (num / den : ℚ) < 2 ^ ((num.log2 : ℤ) - den.log2 + 1) := by
    rw [div_lt_iff₀ hd]
    calc (num : ℚ) < 2 ^ ((num.log2 : ℤ) + 1) := hnhigh
      _ = 2 ^ ((num.log2 : ℤ) - den.log2 + 1) * 2 ^ (den.log2 : ℤ) := by
        rw [← zpow_add₀ two_ne_zero]; congr 1; ring
      _ ≤ 2 ^ ((num.log2 : ℤ) - den.log2 + 1) * den := by gcongr
  simp only [floorLog, unscale_le_iff hden]
  split
  · next h => exact ⟨h, hhigh⟩
  · next h => exact ⟨hlow, by simpa using not_le.mp h⟩

/-- A quotient rounded to 53 significant bits, down to some least place. -/
structure Rounds (least : ℤ) (q : ℚ) (m : ℕ) (e : ℤ) : Prop where
  nearest : IsNearest (q / 2 ^ e) m
  least_le : least ≤ e
  lt : q < 2 ^ (e + 53)
  normal : least < e → (2 : ℚ) ^ (e + 52) ≤ q

theorem significand_rounds (least : ℤ) (hnum : 0 < num) (hden : 0 < den) :
    Rounds least (num / den) (significand least num den).1 (significand least num den).2 := by
  obtain ⟨hlow, hhigh⟩ := floorLog_spec hnum hden
  refine ⟨?_, le_max_left _ _, hhigh.trans_le ?_, fun h => le_trans ?_ hlow⟩
  · rw [← unscale_div]
    exact isNearest_roundDiv _ (unscale_pos _ hden)
  · apply zpow_le_zpow_right₀ one_le_two
    simp only [significand]
    omega
  · apply zpow_le_zpow_right₀ one_le_two
    simp only [significand] at h ⊢
    omega

namespace Rounds

theorem le_pow (h : Rounds least q m e) : m ≤ 2 ^ 53 := by
  apply h.nearest.le_natCast
  rw [div_le_iff₀ (zpow_pos two_pos e), ← magnitude, magnitude_pow]
  exact h.lt.le

theorem pow_le (h : Rounds least q m e) (hlt : least < e) : 2 ^ 52 ≤ m := by
  apply h.nearest.natCast_le
  rw [le_div_iff₀ (zpow_pos two_pos e), ← magnitude, magnitude_pow]
  exact h.normal hlt

theorem bounds (h : Rounds least q m e) : (m - 1 / 2) * 2 ^ e ≤ q ∧ q ≤ (m + 1 / 2) * 2 ^ e := by
  have hpos : (0 : ℚ) < 2 ^ e := zpow_pos two_pos e
  obtain ⟨hlow, hhigh⟩ := abs_le.mp h.nearest.close
  exact ⟨(le_div_iff₀ hpos).mp (by linarith), (div_le_iff₀ hpos).mp (by linarith)⟩

/-- An exponent above the least one is not greater than that of a greater quotient. -/
theorem exponent_mono {e' : ℤ} {m' : ℕ} (h : Rounds least q m e) (h' : Rounds least q' m' e') (hq : q ≤ q') :
    e ≤ e' := by
  by_contra! hlt
  have := lt_of_zpow_lt ((h.normal (h'.least_le.trans_lt hlt)).trans_lt (hq.trans_lt h'.lt))
  omega

/-- Rounding keeps the order. -/
theorem mono {e' : ℤ} {m' : ℕ} (h : Rounds least q m e) (h' : Rounds least q' m' e') (hq : q ≤ q') :
    magnitude m e ≤ magnitude m' e' := by
  obtain hlt | rfl := (h.exponent_mono h' hq).lt_or_eq
  · exact magnitude_le_of_lt hlt h.le_pow (h'.pow_le (h.least_le.trans_lt hlt))
  · exact magnitude_mono (h.nearest.le h'.nearest (by gcongr)) e

theorem unique {e' : ℤ} {m' : ℕ} (h : Rounds least q m e) (h' : Rounds least q m' e') : m = m' ∧ e = e' := by
  obtain rfl := le_antisymm (h.exponent_mono h' le_rfl) (h'.exponent_mono h le_rfl)
  exact ⟨h.nearest.unique h'.nearest, rfl⟩

/-- No number of 53 bits, down to the least place, is closer to a quotient than what it rounds to. -/
theorem closest {e' : ℤ} {m' : ℕ} (h : Rounds least q m e) (hm' : m' ≤ 2 ^ 53) (he' : least ≤ e') :
    |q - magnitude m e| ≤ |q - magnitude m' e'| := by
  have hpos : (0 : ℚ) < 2 ^ e := zpow_pos two_pos e
  have hscale (n : ℕ) : |q - n * 2 ^ e| = |q / 2 ^ e - n| * 2 ^ e := by
    rw [← abs_of_pos hpos, ← abs_mul, abs_of_pos hpos, sub_mul, div_mul_cancel₀ q hpos.ne']
  have hgrid (n : ℕ) : |q - magnitude m e| ≤ |q - n * 2 ^ e| := by
    rw [magnitude, hscale, hscale]
    exact mul_le_mul_of_nonneg_right (h.nearest.closest n) hpos.le
  obtain hle | hlt := le_or_gt e e'
  · have hmultiple : magnitude m' e' = (m' * 2 ^ (e' - e).toNat : ℕ) * 2 ^ e := by
      rw [magnitude, Nat.cast_mul, Nat.cast_pow, Nat.cast_ofNat, mul_assoc, ← zpow_natCast,
        ← zpow_add₀ two_ne_zero]
      congr 2
      omega
    rw [hmultiple]
    exact hgrid _
  · -- the numbers with smaller exponents lie below the least one with this exponent
    have hbelow : magnitude m' e' ≤ magnitude (2 ^ 52) e := magnitude_le_of_lt hlt hm' le_rfl
    have hnormal : magnitude (2 ^ 52) e ≤ q := (magnitude_pow 52 e).trans_le (h.normal (he'.trans_lt hlt))
    calc |q - magnitude m e| ≤ |q - magnitude (2 ^ 52) e| := hgrid _
      _ ≤ |q - magnitude m' e'| := by
        rw [abs_of_nonneg (by linarith), abs_of_nonneg (by linarith)]
        linarith

end Rounds

theorem significand_eq_iff (least : ℤ) (hnum : 0 < num) (hden : 0 < den) :
    significand least num den = (m, e) ↔ Rounds least (num / den) m e := by
  have h := significand_rounds least hnum hden
  constructor
  · intro heq
    rwa [heq] at h
  · intro h'
    obtain ⟨hm, he⟩ := h.unique h'
    exact Prod.ext hm he

end Reckoner.Binary64
