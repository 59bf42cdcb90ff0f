import Reckoner.Keypad
import Reckoner.Proofs.Decimal.Written
import Reckoner.Proofs.Display.Integers

/-! The texts of hundredths are spliced from others: the exponent comes from the scientific text, and the digits from
that one or from the plain text. What comes out is laid out by the decisions of a record, like other texts. -/
namespace Reckoner.Keypad
open Decimal Binary64 Display

variable {ds whole fraction written : List Char} {m : ℕ} {e k : ℤ} {x : Float} {negative : Bool} {l : Layout}
  {d : Scientific}

theorem e_not_mem_positional (hds : Digits ds) (negative : Bool) :
    'e' ∉ sign negative ++ Decimal.positional (ds.take 1) (ds.drop 1) := by
  have hdigits : 'e' ∉ ds := fun he => absurd (hds.2 'e' he) (by decide)
  have htake : 'e' ∉ ds.take 1 := fun he => hdigits (List.mem_of_mem_take he)
  have hdrop : 'e' ∉ ds.tail := fun he => hdigits (List.mem_of_mem_tail he)
  have hsign : 'e' ∉ sign negative := by cases negative <;> decide
  rw [Decimal.positional]
  split <;> simp [hsign, htake, hdrop]

/-- An exponent without a sign for the positive ones is read back. -/
theorem readInt?_exponent (k : ℤ) :
    readInt? (String.ofList (scientific.exponentSign k ++ scientific.exponentDigits k)) = some k := by
  have hlength := (digits_plain k.natAbs).length_pos
  have hdigits : scientific.exponentDigits k = digits k.natAbs := by
    have hwidth : scientific.exponentWidth - (digits k.natAbs).length = 0 := Nat.sub_eq_zero_of_le hlength
    rw [Layout.exponentDigits, hwidth]
    rfl
  have htext : String.ofList (scientific.exponentSign k ++ scientific.exponentDigits k) = intText k := by
    rw [hdigits, Layout.exponentSign, intText]
    split <;> rfl
  rw [htext, readInt?_intText]

theorem splitExponent_eq (hno : 'e' ∉ written) (h : readInt? (String.ofList ds) = some k) :
    splitExponent (written ++ 'e' :: ds) = (written, k) := by
  have hbefore : ∀ c ∈ written, decide (c ≠ 'e') = true := fun c hc => decide_eq_true fun he => hno (he ▸ hc)
  have hdrop : (written ++ 'e' :: ds).dropWhile (· ≠ 'e') = 'e' :: ds := by
    rw [List.dropWhile_append_of_pos hbefore]
    rfl
  have htake : (written ++ 'e' :: ds).takeWhile (· ≠ 'e') = written := by
    rw [List.takeWhile_append_of_pos hbefore]
    exact List.append_nil written
  rw [splitExponent, hdrop]
  dsimp only
  rw [htake, h]
  rfl

/-- The scientific text of a double splits at its exponent. -/
theorem splitExponent_text (hview : view x = .finite negative m e) (hm : 0 < m) :
    splitExponent (scientific.text x).toList =
      (sign negative ++ Decimal.positional ((digits (shortest .greater m e).digits).take 1)
        ((digits (shortest .greater m e).digits).drop 1), Layout.leading (shortest .greater m e)) := by
  rw [scientific.text_eq hview, String.toList_ofList, Layout.unsigned, if_neg hm.ne',
    scientific.magnitude_exponential rfl, Layout.exponential_eq, ← List.append_assoc]
  exact splitExponent_eq (e_not_mem_positional (digits_plain _).all negative) (readInt?_exponent _)

theorem layout_positional_iff (k : ℤ) : layout.positional k = true ↔ -4 ≤ k ∧ k < 16 := by
  simp [layout]

theorem point_mem_iff (htidy : Tidy whole fraction) (negative : Bool) :
    '.' ∈ sign negative ++ Decimal.positional whole fraction ↔ fraction ≠ [] := by
  have hwhole : '.' ∉ whole := fun hp => absurd (htidy.plain.all.2 '.' hp) (by decide)
  have hsign : '.' ∉ sign negative := by cases negative <;> decide
  rw [Decimal.positional]
  split
  · simp [*]
  · simp [*]

/-- A point behind the plain text of a whole number makes it the text with a point. -/
theorem pointed_eq (htidy : Tidy whole fraction) (negative : Bool) :
    (if '.' ∈ sign negative ++ Decimal.positional whole fraction then
      String.ofList (sign negative ++ Decimal.positional whole fraction)
    else String.ofList (sign negative ++ Decimal.positional whole fraction) ++ ".0") =
      String.ofList (sign negative ++ pointedText true whole fraction) := by
  simp only [point_mem_iff htidy]
  rw [pointedText]
  split
  · next hne => rw [positional_pointed whole hne]
  · next hnil =>
    have hzero : ".0" = String.ofList ['.', '0'] := rfl
    rw [not_not] at hnil
    subst hnil
    rw [if_pos rfl, positional_nil, hzero, ← String.ofList_append, List.append_assoc]
    rfl

theorem plain_eq_layout (hlast : d.digits % 10 ≠ 0) (h : layout.positional (Layout.leading d) = true)
    (negative : Bool) :
    (if '.' ∈ sign negative ++ Layout.plain.magnitude d then String.ofList (sign negative ++ Layout.plain.magnitude d)
    else String.ofList (sign negative ++ Layout.plain.magnitude d) ++ ".0") =
      String.ofList (sign negative ++ layout.magnitude d) := by
  obtain ⟨whole, fraction, htidy, htext, -⟩ := placePoint_tidy hlast d.exponent
  have hplace : Layout.leading d + 1 = (digits d.digits).length + d.exponent := by
    rw [Layout.leading]
    ring
  have hlayout : layout.magnitude d = pointedText true whole fraction := by
    rw [← placePoint_pointZero (digits_plain _).all htidy htext true, ← hplace]
    exact if_pos h
  rw [magnitude_plain, htext, hlayout]
  exact pointed_eq htidy negative

theorem exponential_eq_layout (h : layout.positional (Layout.leading d) = false) (negative : Bool) :
    sign negative ++ Decimal.positional ((digits d.digits).take 1) ((digits d.digits).drop 1) ++
        'e' :: (if Layout.leading d < 0 then '-' else '+') ::
          zeros (2 - (digits (Layout.leading d).natAbs).length) ++ digits (Layout.leading d).natAbs =
      sign negative ++ layout.magnitude d := by
  rw [layout.magnitude_exponential h, Layout.exponential_eq, Layout.exponentSign, Layout.exponentDigits]
  split <;> simp [layout]

/-- The spliced text is laid out with a point or an exponent of at least two digits. -/
theorem text_eq_layout (x : Float) : text x = layout.text x := by
  unfold text
  split
  · next hview => rw [Layout.text, hview]; rfl
  · next negative hview =>
    rw [Layout.text, hview]
    cases negative <;> rfl
  · next negative e hview =>
    rw [layout.text_eq hview]
    cases negative <;> rfl
  · next negative m e hne hview =>
    have hm : 0 < m := Nat.pos_of_ne_zero hne
    have hplace := layout_positional_iff (Layout.leading (shortest .greater m e))
    have htext : layout.text x = String.ofList (sign negative ++ layout.magnitude (shortest .greater m e)) := by
      rw [layout.text_eq hview, Layout.unsigned, if_neg hm.ne']
      rfl
    have hplain : Layout.plain.text x =
        String.ofList (sign negative ++ Layout.plain.magnitude (shortest .greater m e)) := by
      rw [Layout.plain.text_eq hview, Layout.unsigned, if_neg hm.ne']
      rfl
    rw [splitExponent_text hview hm, htext, hplain]
    dsimp only
    rw [String.toList_ofList]
    split
    · next h => exact plain_eq_layout (shortest_identifies .greater hm e).last (hplace.mpr h) negative
    · next h => rw [exponential_eq_layout (Bool.eq_false_iff.mpr (mt hplace.mp h)) negative]

end Reckoner.Keypad
