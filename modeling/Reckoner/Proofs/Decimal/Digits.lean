import Reckoner.Decimal.Digits
import Reckoner.Proofs.Decimal.Numeral
import Mathlib

/-! Runs of digits and their values. Without a zero in front, the digits of a number are the only ones with
its value. -/
namespace Reckoner.Decimal

variable {ds es : List Char} {c : Char} {n k : ℕ}

theorem isDigit_iff : isDigit c ↔ '0'.toNat ≤ c.toNat ∧ c.toNat ≤ '9'.toNat := by
  simp only [isDigit, Bool.and_eq_true, decide_eq_true_eq]
  exact Iff.rfl

theorem isDigit_digitChar (h : n < 10) : isDigit n.digitChar := by
  revert n
  decide

theorem toNat_digitChar (h : n < 10) : n.digitChar.toNat - '0'.toNat = n := by
  revert n
  decide

theorem value_nil : value [] = 0 := rfl

theorem value_snoc (ds : List Char) (c : Char) : value (ds ++ [c]) = 10 * value ds + (c.toNat - '0'.toNat) := by
  rw [value, List.foldl_append]
  rfl

theorem value_append (ds es : List Char) : value (ds ++ es) = value ds * 10 ^ es.length + value es := by
  induction es using List.reverseRecOn with
  | nil => simp [value_nil]
  | append_singleton es c ih =>
    rw [← List.append_assoc, value_snoc, value_snoc, ih, List.length_append, List.length_singleton, pow_succ]
    ring

theorem value_cons (c : Char) (ds : List Char) :
    value (c :: ds) = (c.toNat - '0'.toNat) * 10 ^ ds.length + value ds := by
  rw [← List.singleton_append, value_append, ← List.nil_append [c], value_snoc, value_nil, Nat.mul_zero,
    Nat.zero_add]

theorem value_lt (h : ∀ c ∈ ds, isDigit c) : value ds < 10 ^ ds.length := by
  induction ds using List.reverseRecOn with
  | nil => decide
  | append_singleton ds c ih =>
    obtain ⟨hds, hc⟩ := List.forall_mem_append.mp h
    have hdigit : c.toNat ≤ '9'.toNat := (isDigit_iff.mp (hc c (List.mem_singleton_self c))).2
    have hnine : '9'.toNat = '0'.toNat + 9 := rfl
    have := ih hds
    rw [value_snoc, List.length_append, List.length_singleton, pow_succ]
    omega

theorem value_replicate_zero (k : ℕ) : value (List.replicate k '0') = 0 := by
  induction k with
  | zero => rfl
  | succ k ih => rw [List.replicate_succ', value_snoc, ih, Nat.sub_self]

/-- Runs of digits of one length are told apart by their values. -/
theorem eq_of_value_eq (hds : ∀ c ∈ ds, isDigit c) (hes : ∀ c ∈ es, isDigit c) (hlength : ds.length = es.length)
    (h : value ds = value es) : ds = es := by
  induction ds generalizing es with
  | nil => exact (List.length_eq_zero_iff.mp hlength.symm).symm
  | cons c ds ih =>
    cases es with
    | nil => cases hlength
    | cons d es =>
      obtain ⟨hc, hds⟩ := List.forall_mem_cons.mp hds
      obtain ⟨hd, hes⟩ := List.forall_mem_cons.mp hes
      have hlength := Nat.succ.inj hlength
      have hltd := value_lt hds
      have hlte := value_lt hes
      rw [value_cons, value_cons, hlength] at h
      rw [hlength] at hltd
      obtain ⟨hc0, -⟩ := isDigit_iff.mp hc
      obtain ⟨hd0, -⟩ := isDigit_iff.mp hd
      have hpos : 0 < 10 ^ es.length := Nat.pow_pos (by decide)
      have hfirst := congrArg (· / 10 ^ es.length) h
      simp only [Nat.mul_add_div hpos, mul_comm _ (10 ^ es.length), Nat.div_eq_of_lt hltd,
        Nat.div_eq_of_lt hlte] at hfirst
      have hsame : c.toNat = d.toNat := by omega
      rw [hsame] at h
      rw [Char.toNat_inj.mp hsame, ih hds hes hlength (by omega)]

theorem length_block (k n : ℕ) : (block k n).length = 2 ^ k := by
  induction k generalizing n with
  | zero => rfl
  | succ k ih => rw [block, List.length_append, ih, ih, pow_succ, mul_two]

theorem isDigit_of_mem_block (k n : ℕ) : ∀ c ∈ block k n, isDigit c := by
  induction k generalizing n with
  | zero => exact List.forall_mem_singleton.mpr (isDigit_digitChar (Nat.mod_lt n (by decide)))
  | succ k ih => exact List.forall_mem_append.mpr ⟨ih _, ih _⟩

theorem value_block (k n : ℕ) : value (block k n) = n % 10 ^ 2 ^ k := by
  induction k generalizing n with
  | zero =>
    rw [block, ← List.nil_append [_], value_snoc, value_nil, toNat_digitChar (Nat.mod_lt n (by decide))]
    simp
  | succ k ih =>
    rw [block, value_append, ih, ih, length_block, Nat.pow_eq, Nat.pow_eq, Nat.mod_mod, pow_succ 2, mul_two,
      pow_add, Nat.mod_mul, mul_comm (10 ^ 2 ^ k), add_comm]

/-- The block from which digits are taken is wide enough. -/
theorem lt_pow_blockSize (n : ℕ) : n < 10 ^ 2 ^ ((n.log2 / 3).log2 + 1) := by
  calc n < 2 ^ (n.log2 + 1) := Nat.lt_log2_self
    _ ≤ 2 ^ (3 * (n.log2 / 3 + 1)) := Nat.pow_le_pow_right two_pos (by omega)
    _ = 8 ^ (n.log2 / 3 + 1) := by rw [pow_mul]; rfl
    _ ≤ 10 ^ (n.log2 / 3 + 1) := Nat.pow_le_pow_left (by decide) _
    _ ≤ 10 ^ 2 ^ ((n.log2 / 3).log2 + 1) := Nat.pow_le_pow_right (by decide) Nat.lt_log2_self

/-- Digits without a zero in front, but for a zero alone. -/
structure Plain (ds : List Char) : Prop where
  all : Digits ds
  head : ds.head? = some '0' → ds = ['0']

theorem value_dropWhile_zero (ds : List Char) : value (ds.dropWhile (· == '0')) = value ds := by
  induction ds with
  | nil => rfl
  | cons c ds ih =>
    by_cases hc : c = '0'
    · rw [hc, List.dropWhile_cons_of_pos rfl, ih, value_cons]
      simp
    · rw [List.dropWhile_cons_of_neg (by simpa using hc)]

theorem digits_plain (n : ℕ) : Plain (digits n) := by
  unfold digits
  split
  · exact ⟨⟨by simp, by simp [isDigit]⟩, fun _ => rfl⟩
  · next hne =>
    refine ⟨⟨hne, fun c hc => ?_⟩, fun hhead => ?_⟩
    · exact isDigit_of_mem_block _ n c ((List.dropWhile_suffix _).subset hc)
    · have := List.head?_dropWhile_not (· == '0') (block ((n.log2 / 3).log2 + 1) n)
      simp [hhead] at this

@[simp] theorem value_digits (n : ℕ) : value (digits n) = n := by
  have hblock : value ((block ((n.log2 / 3).log2 + 1) n).dropWhile (· == '0')) = n := by
    rw [value_dropWhile_zero, value_block, Nat.mod_eq_of_lt (lt_pow_blockSize n)]
  unfold digits
  split
  · next heq =>
    rw [heq] at hblock
    exact hblock
  · exact hblock

namespace Plain

theorem eq_zero_or_pow_le (h : Plain ds) : ds = ['0'] ∨ 10 ^ (ds.length - 1) ≤ value ds := by
  cases ds with
  | nil => exact absurd rfl h.all.1
  | cons c ds =>
    by_cases hc : c = '0'
    · exact .inl (h.head (congrArg some hc))
    · obtain ⟨hdigit, -⟩ := isDigit_iff.mp (h.all.2 c List.mem_cons_self)
      have hne : c.toNat ≠ '0'.toNat := fun h => hc (Char.toNat_inj.mp h)
      rw [value_cons, List.length_cons, Nat.add_sub_cancel]
      exact .inr (Nat.le_add_right_of_le (Nat.le_mul_of_pos_left _ (by omega)))

theorem length_le_of_lt (h : Plain ds) (hk : 0 < k) (hlt : value ds < 10 ^ k) : ds.length ≤ k := by
  obtain rfl | hle := h.eq_zero_or_pow_le
  · exact hk
  · have := (Nat.pow_lt_pow_iff_right (by decide)).mp (hle.trans_lt hlt)
    omega

theorem value_pos (h : Plain ds) (hne : ds ≠ ['0']) : 0 < value ds :=
  lt_of_lt_of_le (Nat.pow_pos (by decide)) (h.eq_zero_or_pow_le.resolve_left hne)

theorem length_pos (h : Plain ds) : 0 < ds.length := List.length_pos_iff.mpr h.all.1

/-- Digits without a zero in front are those of their value. -/
theorem digits_value (h : Plain ds) : digits (value ds) = ds := by
  have h' := digits_plain (value ds)
  have hvalue := value_digits (value ds)
  have hle := h'.length_le_of_lt h.length_pos (by rw [hvalue]; exact value_lt h.all.2)
  have hge := h.length_le_of_lt h'.length_pos (by
    have := value_lt h'.all.2
    rwa [hvalue] at this)
  exact eq_of_value_eq h'.all.2 h.all.2 (Nat.le_antisymm hle hge) hvalue

end Plain

theorem length_digits_le (hk : 0 < k) (h : n < 10 ^ k) : (digits n).length ≤ k :=
  (digits_plain n).length_le_of_lt hk (by rwa [value_digits])

end Reckoner.Decimal
