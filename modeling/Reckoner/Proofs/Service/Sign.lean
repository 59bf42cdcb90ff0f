import Reckoner.Proofs.Binary64.Operations
import Reckoner.Proofs.Decimal.FewDigits
import Reckoner.Proofs.Service.Keypad

/-! The opposite of a double is shown as its text with the sign toggled. Where only the sign makes the text
too long, its few digits are those that are shown anyway. -/
namespace Reckoner.Display
open Decimal Binary64

variable {whole fraction : List Char} {m count : ℕ} {e : ℤ} {negative : Bool} {x : Float} {d : String}

/-- A decimal of few digits is the text of the double next to it. -/
theorem plain_text_of_few_digits (htidy : Tidy whole fraction) (hfew : (whole ++ fraction).length ≤ 15)
    (hc : Canonical m e) (hm : 0 < m) (h : (Interval.around m e).Contains (decimal whole fraction))
    (negative : Bool) : Layout.plain.text (pack negative m e) = written negative whole fraction := by
  have hgrid : decimal whole fraction = value (whole ++ fraction) * 10 ^ (-fraction.length : ℤ) := by
    rw [decimal, zpow_neg, zpow_natCast, div_eq_mul_inv]
  have hlt : value (whole ++ fraction) < 10 ^ 15 :=
    (value_lt (List.forall_mem_append.mpr ⟨htidy.plain.all.2, htidy.digits⟩)).trans_le
      (Nat.pow_le_pow_right (by decide) hfew)
  rw [List.length_append] at hfew
  rw [hgrid] at h
  have hsame := shortest_of_sparse hm h (sparse_of_few_digits hc hm h hlt (by omega)) Layout.plain.tie
  obtain ⟨whole', fraction', htidy', htext, hvalue⟩ := placePoint_tidy
    (shortest_identifies Layout.plain.tie hm e).last (shortest Layout.plain.tie m e).exponent
  obtain ⟨rfl, rfl⟩ := htidy.unique htidy' (hgrid.trans (hsame.symm.trans hvalue.symm))
  rw [text_of_view (view_pack negative hc), if_neg hm.ne', magnitude_plain, htext, written]

/-- The double next to a count of decimal places that has few digits is shown with these. -/
theorem nearest_text_of_few_digits (htidy : Tidy whole fraction) (hfew : (whole ++ fraction).length ≤ 15)
    (hvalue : decimal whole fraction = count / 10 ^ Display.places) (hcount : 0 < count)
    (hgreatest : (count : ℚ) / (10 ^ Display.places : ℕ) ≤ greatest) (negative : Bool) :
    Layout.plain.text (Binary64.nearest negative count (10 ^ Display.places)) =
      written negative whole fraction := by
  have hcast : ((10 ^ Display.places : ℕ) : ℚ) = 10 ^ Display.places := by push_cast; rfl
  have hleast : (2 : ℚ) ^ leastExponent ≤ count / (10 ^ Display.places : ℕ) := by
    rw [hcast]
    exact (zpow_le_zpow_right₀ one_le_two (by decide)).trans (zpow_le_count hcount)
  obtain ⟨m, e, hc, hm, hcontains, hnearest⟩ := exists_contains hcount (by decide) hleast hgreatest
  rw [hcast, ← hvalue] at hcontains
  rw [hnearest]
  exact plain_text_of_few_digits htidy hfew hc hm hcontains negative

theorem length_le_positional (whole fraction : List Char) :
    (whole ++ fraction).length ≤ (positional whole fraction).length := by
  unfold positional
  split
  · next h => rw [h]
  · rw [List.length_append, List.length_append, List.length_cons]
    omega

theorem length_sign_le (negative : Bool) : (sign negative).length ≤ 1 := by
  cases negative <;> decide

/-- Both signs are shown before the same digits. -/
theorem finite_written (h : Canonical m e) : ∃ whole fraction, Tidy whole fraction ∧
    ∀ negative, finite negative m e = written negative whole fraction := by
  have hgreatest := toPlaces_le_greatest h Display.places
  obtain ⟨whole, fraction, k, htidy, hfixed, hvalue⟩ :=
    fixedDigits_tidy (toPlaces m e Display.places) (by decide : 0 < Display.places)
  have hshown (negative : Bool) : finite negative m e =
      if (sign negative ++ positional whole fraction).length ≤ maxFixedLength then written negative whole fraction
      else Layout.plain.text (Binary64.nearest negative (toPlaces m e Display.places) (10 ^ Display.places)) := by
    have htrim := trim_written htidy negative k
    rw [← hfixed, ← sign_append] at htrim
    simp only [finite, htrim]
    rfl
  obtain hlong | hshort := lt_or_ge maxFixedLength (positional whole fraction).length
  · -- the text is too long with either sign
    obtain ⟨m', e', hclosest, hnearest⟩ := exists_closest _ (by decide : 0 < 10 ^ Display.places) hgreatest
    obtain ⟨whole', fraction', hreads, htext⟩ := plain_text hclosest.canonical
    refine ⟨whole', fraction', hreads.tidy, fun negative => ?_⟩
    rw [hshown, if_neg (by rw [List.length_append]; omega), hnearest, htext]
  · refine ⟨whole, fraction, htidy, fun negative => ?_⟩
    rw [hshown]
    split
    · rfl
    · next hlong =>
      rw [List.length_append] at hlong
      have hsign := length_sign_le negative
      have hcount : 0 < toPlaces m e Display.places := by
        by_contra! hzero
        rw [Nat.le_zero.mp hzero, Nat.cast_zero, zero_div, ← Nat.cast_zero, ← value_digits 0, ← decimal_nil] at hvalue
        obtain ⟨rfl, rfl⟩ := htidy.unique (digits_plain 0).tidy hvalue
        have hone : (positional (digits 0) []).length = 1 := rfl
        have hmax : maxFixedLength = 15 := rfl
        omega
      exact nearest_text_of_few_digits htidy ((length_le_positional _ _).trans hshort) hvalue hcount hgreatest negative

theorem written_true (whole fraction : List Char) :
    written true whole fraction = "-" ++ written false whole fraction := by
  rw [written, written, sign, if_pos rfl, String.ofList_append]
  rfl

theorem toggleSign_written (h : Tidy whole fraction) (negative : Bool) :
    Keypad.toggleSign (written negative whole fraction) = written (!negative) whole fraction := by
  cases negative with
  | true => exact Keypad.toggleSign_of_signed String.toList_ofList
  | false =>
    have hhead : (written false whole fraction).toList.head? ≠ some '-' := by
      rw [written, String.toList_ofList]
      exact h.plain.all.head_ne_minus
    rw [Keypad.toggleSign_of_plain hhead, written, String.toList_ofList]
    rfl

/-- The opposite of a double is shown with the sign toggled, and so the opposite of a positive one with a minus
sign in front. -/
theorem opposite_shown_toggled (h : view x = .finite negative m e) : ∃ d, float x = .ok d ∧
    float (-x) = .ok (Keypad.toggleSign d) ∧ (negative = false → float (-x) = .ok ("-" ++ d)) := by
  obtain ⟨whole, fraction, htidy, hwritten⟩ := finite_written (canonical_of_view h)
  have hopposite : float (-x) = .ok (written (!negative) whole fraction) := by
    rw [float_of_view (view_neg h), hwritten]
  refine ⟨written negative whole fraction, by rw [float_of_view h, hwritten], ?_, ?_⟩
  · rw [toggleSign_written htidy, hopposite]
  · rintro rfl
    rw [hopposite, Bool.not_false, written_true]

/-- A text of fifteen characters, that is shown in its shortest form with a sign. -/
theorem fifteen_characters_toggled :
    let x := pack false 6871887438009204 (-36)
    view x = .finite false 6871887438009204 (-36) ∧ ∃ d, float x = .ok d ∧
      float (-x) = .ok (Keypad.toggleSign d) ∧ (false = false → float (-x) = .ok ("-" ++ d)) := by
  intro x
  have hview : view x = .finite false 6871887438009204 (-36) :=
    view_pack false ⟨by decide, by decide, by decide, fun _ => by decide⟩
  exact ⟨hview, opposite_shown_toggled hview⟩

example : finite true 6871887438009204 (-36) = "-99999.123456789" := by decide +kernel

end Reckoner.Display
