import Reckoner.Proofs.Binary64.Order
import Reckoner.Proofs.Display
import Reckoner.Proofs.Number.DecimalWidth
import Reckoner.Proofs.Number.Width

/-! Integers are shown by all of their digits, up to a limit that is met exactly: the estimate in doubles is not
above the limit for any integer within it, and the digits of all others are counted. -/
namespace Reckoner.Display
open Decimal Binary64 Number

variable {n : ℤ} {k : ℕ}

/-- The bits of integers up to the limit. -/
theorem bitLength_le_of_lt (h : n.natAbs < 10 ^ maxIntDigits) : bitLength n ≤ 14285 :=
  bitLength_le_iff.mpr (h.trans_le (by decide +kernel))

/-- The limit of the estimate, a digit above that of the integers. -/
theorem estimateLimit_hasValue : HasValue (Binary64.ofNat maxIntDigits + 1.0) false (4301 : ℕ) := by
  have hsum : Binary64.ofNat maxIntDigits + 1.0 = Binary64.ofNat 4301 := by decide +kernel
  rw [hsum]
  exact .ofNat (by decide)

/-- Rounding, of the logarithm and of the product, does not make up for the digit between the limits. -/
theorem estimate_within {bits : ℕ} (hbits : bits ≤ 14285) :
    ¬ Binary64.ofNat maxIntDigits + 1.0 < Binary64.ofNat bits * log10Two := by
  have hnonneg : (0 : ℚ) ≤ bits * log10TwoValue := by
    unfold log10TwoValue
    positivity
  have hle : bits * log10TwoValue ≤ (4301 : ℕ) := by
    have hcast : (bits : ℚ) ≤ 14285 := mod_cast hbits
    unfold log10TwoValue
    push_cast
    linarith
  obtain ⟨u, hu⟩ := RoundsTo.exists_of_nonneg hnonneg
  have hproduct := (HasValue.ofNat (hbits.trans (by decide))).mul_right log10Two_hasValue hu
    (hle.trans (natCast_le_greatest (by decide)))
  rw [estimateLimit_hasValue.lt_iff hproduct, not_lt]
  exact hu.mono (.natCast (by decide)) hle

theorem clearlyTooWide_eq_false (h : n.natAbs < 10 ^ maxIntDigits) : clearlyTooWide n = false :=
  decide_eq_false (estimate_within (bitLength_le_of_lt h))

/-- The digits of a number are as many as its size needs. -/
theorem length_digits_le_iff (hk : 0 < k) (n : ℕ) : (digits n).length ≤ k ↔ n < 10 ^ k := by
  refine ⟨fun h => ?_, length_digits_le hk⟩
  calc n = value (digits n) := (value_digits n).symm
    _ < 10 ^ (digits n).length := value_lt (digits_plain n).all.2
    _ ≤ 10 ^ k := Nat.pow_le_pow_right (by decide) h

theorem integer_of_lt (h : n.natAbs < 10 ^ maxIntDigits) : integer n = .ok (intText n) := by
  have hdigits := (length_digits_le_iff (by decide) _).mpr h
  rw [integer, clearlyTooWide_eq_false h, if_neg Bool.false_ne_true, if_neg (not_lt.mpr hdigits)]

theorem lt_length_digits (h : 10 ^ maxIntDigits ≤ n.natAbs) : maxIntDigits < (digits n.natAbs).length :=
  not_le.mp fun hle => not_lt.mpr h ((length_digits_le_iff (by decide) _).mp hle)

theorem integer_of_le (h : 10 ^ maxIntDigits ≤ n.natAbs) :
    integer n = .error (.overflow (.displayDigits maxIntDigits)) := by
  rw [integer, if_pos (lt_length_digits h), ite_self]

/-- The text of an integer is read as the integer. -/
theorem readInt?_intText (n : ℤ) : readInt? (intText n) = some n := by
  have hdigits := (digits_plain n.natAbs).all
  have hvalue := value_digits n.natAbs
  rw [intText]
  generalize digits n.natAbs = ds at *
  split
  · next hneg =>
    have hall : ds.all isDigit = true := List.all_eq_true.mpr hdigits.2
    have habs : -(n.natAbs : ℤ) = n := by omega
    simpa [readInt?, hdigits.1, hall, hvalue] using habs
  · next hpos =>
    rw [readInt?_digits hdigits, hvalue]
    congr 1
    omega

/-- Integers below the limit are shown by their digits, with a minus sign if they are negative, and all others are
refused: the estimate refuses none that has few enough digits, and what it lets pass has its digits counted. -/
theorem integers_shown_up_to_limit (n : ℤ) :
    (n.natAbs < 10 ^ maxIntDigits → clearlyTooWide n = false ∧ ∃ ds shown, Plain ds ∧ value ds = n.natAbs ∧
      shown = String.ofList (sign (n < 0) ++ ds) ∧ readInt? shown = some n ∧ number (.int n) = .ok shown) ∧
    (10 ^ maxIntDigits ≤ n.natAbs → maxIntDigits < (digits n.natAbs).length ∧
      number (.int n) = .error (.overflow (.displayDigits maxIntDigits))) := by
  constructor
  · intro h
    refine ⟨clearlyTooWide_eq_false h, digits n.natAbs, intText n, digits_plain _, value_digits _, ?_,
      readInt?_intText n, integer_of_lt h⟩
    rw [intText_eq_written, written, positional_nil]
  · intro h
    exact ⟨lt_length_digits h, integer_of_le h⟩

/-- The negative integers on both sides of the limit. -/
theorem negative_limit_met :
    (∃ shown, number (.int (1 - Int.pow 10 4300)) = .ok shown ∧ readInt? shown = some (1 - Int.pow 10 4300)) ∧
      number (.int (-Int.pow 10 4300)) = .error (.overflow (.displayDigits 4300)) := by
  have hbelow : (1 - Int.pow 10 4300).natAbs < 10 ^ maxIntDigits := by decide +kernel
  have hat : 10 ^ maxIntDigits ≤ (-Int.pow 10 4300).natAbs := by decide +kernel
  obtain ⟨-, ds, shown, -, -, -, hread, hshown⟩ := (integers_shown_up_to_limit _).1 hbelow
  exact ⟨⟨shown, hshown, hread⟩, ((integers_shown_up_to_limit _).2 hat).2⟩

end Reckoner.Display
