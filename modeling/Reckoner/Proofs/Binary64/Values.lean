import Reckoner.Proofs.Binary64.Error

/-! Doubles as numbers with a sign. Products, quotients and the doubles next to quotients stand for what the exact
numbers round to. -/
namespace Reckoner.Binary64

variable {x y : Float} {negative negative' : Bool} {q r v w u : ℚ} {m n num den : ℕ} {e : ℤ}

/-- What a number that is not negative becomes as a double. -/
def RoundsTo (q v : ℚ) : Prop := ∃ m e, Rounds leastExponent q m e ∧ magnitude m e = v

/-- A finite double stands for a number of some sign. -/
def HasValue (x : Float) (negative : Bool) (v : ℚ) : Prop :=
  ∃ m e, Canonical m e ∧ magnitude m e = v ∧ x = pack negative m e

theorem exists_natCast_div (hq : 0 ≤ q) : ∃ num den : ℕ, 0 < den ∧ (num / den : ℚ) = q := by
  obtain ⟨n, hn⟩ := Int.eq_ofNat_of_zero_le (Rat.num_nonneg.mpr hq)
  have hsplit := Rat.num_div_den q
  rw [hn] at hsplit
  exact ⟨n, q.den, q.den_pos, hsplit⟩

theorem exists_isNearest (hq : 0 ≤ q) : ∃ n, IsNearest q n := by
  obtain ⟨num, den, hden, rfl⟩ := exists_natCast_div hq
  exact ⟨_, isNearest_roundDiv num hden⟩

theorem exists_rounds (hq : 0 ≤ q) : ∃ m e, Rounds leastExponent q m e := by
  obtain ⟨num, den, hden, rfl⟩ := exists_natCast_div hq
  obtain rfl | hnum := Nat.eq_zero_or_pos num
  · rw [Nat.cast_zero, zero_div]
    exact ⟨0, leastExponent, rounds_zero⟩
  · exact ⟨_, _, significand_rounds leastExponent hnum hden⟩

namespace RoundsTo

theorem exists_of_nonneg (hq : 0 ≤ q) : ∃ v, RoundsTo q v := by
  obtain ⟨m, e, h⟩ := exists_rounds hq
  exact ⟨_, m, e, h, rfl⟩

theorem nonneg (h : RoundsTo q v) : 0 ≤ v := by
  obtain ⟨m, e, -, rfl⟩ := h
  exact magnitude_nonneg m e

theorem mono (h : RoundsTo q v) (h' : RoundsTo r w) (hqr : q ≤ r) : v ≤ w := by
  obtain ⟨m, e, h, rfl⟩ := h
  obtain ⟨m', e', h', rfl⟩ := h'
  exact h.mono h' hqr

theorem unique (h : RoundsTo q v) (h' : RoundsTo q w) : v = w :=
  le_antisymm (h.mono h' le_rfl) (h'.mono h le_rfl)

theorem close (h : RoundsTo q v) (hq : 2 ^ (-1022 : ℤ) ≤ q) : |q - v| ≤ q * 2 ^ (-53 : ℤ) := by
  obtain ⟨m, e, h, rfl⟩ := h
  exact h.close hq

/-- From a quarter on no place is lost at the least exponent. -/
theorem close_of_quarter_le (h : RoundsTo q v) (hq : 1 / 4 ≤ q) : |q - v| ≤ q * 2 ^ (-53 : ℤ) := by
  apply h.close
  calc (2 : ℚ) ^ (-1022 : ℤ) ≤ 2 ^ (-2 : ℤ) := zpow_le_zpow_right₀ one_le_two (by decide)
    _ = 1 / 4 := by norm_num
    _ ≤ q := hq

/-- Numbers of 53 bits are their own doubles. -/
theorem self (hm : m ≤ 2 ^ 53) (he : leastExponent ≤ e) : RoundsTo (magnitude m e) (magnitude m e) := by
  obtain ⟨m', e', h⟩ := exists_rounds (magnitude_nonneg m e)
  exact ⟨m', e', h, h.eq_of_magnitude m e rfl hm he⟩

theorem natCast (hn : n ≤ 2 ^ 53) : RoundsTo n n := by
  have h := self (e := 0) hn (by decide)
  rwa [magnitude, zpow_zero, mul_one] at h

end RoundsTo

theorem isFinite_pack_iff (h : Rounds leastExponent q m e) (negative : Bool) :
    (pack negative m e).isFinite = true ↔ magnitude m e < 2 ^ (1024 : ℤ) := by
  rw [h.magnitude_lt_iff, pack, isFinite_ofBits_iff negative (Nat.min_le_right _ _), min_lt_iff,
    or_iff_left (lt_irrefl _)]
  rfl

theorem natCast_le_greatest (hn : n ≤ 2 ^ 53) : (n : ℚ) ≤ greatest := by
  calc (n : ℚ) ≤ 2 ^ (53 : ℤ) := by exact_mod_cast hn
    _ ≤ 2 ^ ((971 : ℤ) + (52 : ℕ)) := zpow_le_zpow_right₀ one_le_two (by decide)
    _ = magnitude (2 ^ 52) 971 := (magnitude_pow 52 971).symm
    _ ≤ greatest := magnitude_mono (by decide) 971

namespace HasValue

theorem of_view (h : view x = .finite negative m e) : HasValue x negative (magnitude m e) :=
  ⟨m, e, canonical_of_view h, rfl, eq_pack_of_view h⟩

theorem nonneg (h : HasValue x negative v) : 0 ≤ v := by
  obtain ⟨m, e, -, rfl, -⟩ := h
  exact magnitude_nonneg m e

theorem le_greatest (h : HasValue x negative v) : v ≤ greatest := by
  obtain ⟨m, e, hc, rfl, -⟩ := h
  exact hc.magnitude_le

theorem roundsTo (h : HasValue x negative v) : RoundsTo v v := by
  obtain ⟨m, e, hc, rfl, -⟩ := h
  exact .self hc.lt.le hc.least_le

theorem of_rounds (h : Rounds leastExponent q m e) (hq : q ≤ greatest) (negative : Bool) :
    HasValue (pack negative m e) negative (magnitude m e) := by
  obtain hc | ⟨rfl, hc⟩ := h.canonical_or_carry hq
  · exact ⟨m, e, hc, rfl, rfl⟩
  · exact ⟨2 ^ 52, e + 1, hc, (magnitude_carry e).symm, pack_carry negative h.least_le⟩

theorem mul (hx : HasValue x negative v) (hy : HasValue y negative' w) (h : RoundsTo (v * w) u)
    (hle : v * w ≤ greatest) : HasValue (x * y) (negative != negative') u := by
  obtain ⟨m, e, hc, rfl, rfl⟩ := hx
  obtain ⟨m', e', hc', rfl, rfl⟩ := hy
  obtain ⟨k, f, h, rfl⟩ := h
  rw [pack_mul_pack hc hc' h]
  exact of_rounds h hle _

/-- A factor that is not negative leaves the sign. -/
theorem mul_right (hx : HasValue x negative v) (hy : HasValue y false w) (h : RoundsTo (v * w) u)
    (hle : v * w ≤ greatest) : HasValue (x * y) negative u :=
  Bool.bne_false negative ▸ hx.mul hy h hle

theorem div (hx : HasValue x negative v) (hy : HasValue y negative' w) (hw : 0 < w) (h : RoundsTo (v / w) u)
    (hle : v / w ≤ greatest) : HasValue (x / y) (negative != negative') u := by
  obtain ⟨m, e, hc, rfl, rfl⟩ := hx
  obtain ⟨m', e', hc', rfl, rfl⟩ := hy
  obtain ⟨k, f, h, rfl⟩ := h
  have hm' : 0 < m' := by
    rw [magnitude] at hw
    exact_mod_cast (mul_pos_iff_of_pos_right (zpow_pos two_pos _)).mp hw
  rw [pack_div_pack hc hc' hm' h]
  exact of_rounds h hle _

theorem div_right (hx : HasValue x negative v) (hy : HasValue y false w) (hw : 0 < w) (h : RoundsTo (v / w) u)
    (hle : v / w ≤ greatest) : HasValue (x / y) negative u :=
  Bool.bne_false negative ▸ hx.div hy hw h hle

theorem nearest (hden : 0 < den) (h : RoundsTo (num / den) v) (hle : num / den ≤ greatest) (negative : Bool) :
    HasValue (Binary64.nearest negative num den) negative v := by
  obtain ⟨m, e, h, rfl⟩ := h
  obtain rfl | hnum := Nat.eq_zero_or_pos num
  · rw [Nat.cast_zero, zero_div] at h
    obtain ⟨rfl, rfl⟩ := rounds_zero.unique h
    exact ⟨0, leastExponent, ⟨by decide, le_rfl, by decide, fun h => absurd h (lt_irrefl _)⟩, rfl, rfl⟩
  · rw [nearest_eq_pack negative hnum hden h]
    exact of_rounds h hle negative

theorem ofNat (hn : n ≤ 2 ^ 53) : HasValue (Binary64.ofNat n) false n :=
  nearest Nat.one_pos (by rw [Nat.cast_one, div_one]; exact .natCast hn)
    (by rw [Nat.cast_one, div_one]; exact natCast_le_greatest hn) false

end HasValue

end Reckoner.Binary64
