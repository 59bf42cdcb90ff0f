import Reckoner.Message
import Reckoner.Proofs.Calculation.Outcome
import Reckoner.Proofs.Display

/-! A display tells by itself whether the calculation has failed. -/
namespace Reckoner
open Decimal Display

variable {d shown : String} {c : Char} {limits : Limits} {text : String} {failure : Diagnostic}

namespace Diagnostic

theorem isFixedDisplay_iff : isFixedDisplay shown ↔
    shown = evaluationDisplay ∨ shown = malformedDisplay ∨ shown = divisionByZeroDisplay := by
  simp only [isFixedDisplay, Bool.or_eq_true, decide_eq_true_eq, or_assoc]

/-- An answer takes for failures what is a fixed display. -/
theorem success_eq_false_iff : (EvaluateResponse.ofResult shown).success = false ↔ isFixedDisplay shown := by
  rw [isFixedDisplay_iff, EvaluateResponse.ofResult, Bool.not_eq_false', List.contains_iff_mem]
  simp only [EvaluateResponse.failures, List.mem_cons, List.not_mem_nil, or_false]

/-- Whether a display begins as that of a rejected name. -/
def BeginsUseOf (shown : String) : Prop := "Use of ".toList <+: shown.toList

theorem display_nameNotAllowed (name : String) (span : Span) :
    (nameNotAllowed name span).display = "Use of " ++ name ++ " not allowed" := rfl

theorem isFixedDisplay_display_iff : isFixedDisplay failure.display ↔ failure.kind ≠ .nameNotAllowed := by
  rw [isFixedDisplay_iff]
  cases failure with
  | nameNotAllowed name span =>
    have hne {fixed : String} (h : fixed.toList.head? ≠ some 'U') :
        (nameNotAllowed name span).display ≠ fixed := by
      rintro rfl
      exact h (by simp [display_nameNotAllowed])
    simp only [kind, ne_eq, not_true_eq_false, iff_false, not_or]
    exact ⟨hne (by decide), hne (by decide), hne (by decide)⟩
  | malformed _ _ _ => simp [display, kind]
  | disallowed _ _ => simp [display, kind]
  | divisionByZero => simp [display, kind]
  | evaluation _ _ => simp [display, kind]

theorem beginsUseOf_display_iff : BeginsUseOf failure.display ↔ failure.kind = .nameNotAllowed := by
  cases failure with
  | nameNotAllowed name span =>
    refine iff_of_true ⟨(name ++ " not allowed").toList, ?_⟩ rfl
    rw [display_nameNotAllowed, String.append_assoc]
    exact String.toList_append.symm
  | malformed _ _ _ => exact iff_of_false (by simp [BeginsUseOf, display, malformedDisplay]) Kind.noConfusion
  | disallowed _ _ => exact iff_of_false (by simp [BeginsUseOf, display, malformedDisplay]) Kind.noConfusion
  | divisionByZero =>
    exact iff_of_false (by simp [BeginsUseOf, display, divisionByZeroDisplay]) Kind.noConfusion
  | evaluation _ _ => exact iff_of_false (by simp [BeginsUseOf, display, evaluationDisplay]) Kind.noConfusion

end Diagnostic

namespace Display

/-- The characters with which displays of values begin. -/
def Begins (c : Char) : Prop := c = 'I' ∨ c = '-' ∨ isDigit c

instance : DecidablePred Begins := fun c => inferInstanceAs (Decidable (c = 'I' ∨ c = '-' ∨ isDigit c))

theorem Shown.exists_head (h : Shown d) : ∃ c, d.toList.head? = some c ∧ Begins c := by
  cases h with
  | infinity => exact ⟨'I', rfl, .inl rfl⟩
  | @number negative whole fraction h =>
    obtain ⟨c, cs, hwhole, hc⟩ := h.plain.all.exists_cons
    rw [written, String.toList_ofList]
    cases negative with
    | true => exact ⟨'-', rfl, .inr (.inl rfl)⟩
    | false => exact ⟨c, by rw [positional, hwhole]; rfl, .inr (.inr hc)⟩

theorem Shown.head_ne (h : Shown d) (hc : ¬ Begins c) : d.toList.head? ≠ some c := by
  obtain ⟨c', hc', hbegins⟩ := h.exists_head
  rw [hc', ne_eq, Option.some_inj]
  rintro rfl
  exact hc hbegins

theorem Shown.isFixedDisplay_eq_false (h : Shown d) : Diagnostic.isFixedDisplay d = false := by
  rw [← Bool.not_eq_true, Diagnostic.isFixedDisplay_iff]
  rintro (rfl | rfl | rfl)
  · exact h.head_ne (c := 'E') (by decide) (by decide)
  · exact h.head_ne (c := 'S') (by decide) (by decide)
  · exact h.head_ne (c := 'C') (by decide) (by decide)

theorem Shown.not_beginsUseOf (h : Shown d) : ¬ Diagnostic.BeginsUseOf d := by
  rintro ⟨cs, hd⟩
  exact h.head_ne (c := 'U') (by decide) (by rw [← hd, List.head?_append]; rfl)

end Display

namespace Calculation

theorem shown_of_calculate (h : calculate limits text = .ok d) : Shown d := by
  have h := calculate_eq_ok_iff.mp h
  split at h
  · subst h
    exact Shown.number false plain_zero.tidy
  · obtain ⟨v, -, hd⟩ := h
    exact number_shown hd

theorem display_of_error (h : calculate limits text = .error failure) :
    display limits text = failure.display := by
  rw [display, h]

theorem display_of_ok (h : calculate limits text = .ok d) : display limits text = d := by
  rw [display, h]

/-- What holds of no shown value holds of the display when there is a failure with it. -/
theorem display_iff {p : String → Prop} (hp : ∀ d, Shown d → ¬ p d) : p (display limits text) ↔
    ∃ failure, calculate limits text = .error failure ∧ p failure.display := by
  cases h : calculate limits text with
  | ok d =>
    rw [display_of_ok h]
    exact iff_of_false (hp d (shown_of_calculate h)) fun ⟨_, herror, _⟩ => nomatch herror
  | error failure =>
    rw [display_of_error h]
    constructor
    · exact fun hshown => ⟨failure, rfl, hshown⟩
    · rintro ⟨_, herror, hshown⟩
      cases herror
      exact hshown

/-- Values are shown as infinity or as a tidy decimal, and so the display alone tells whether there is a
value, a rejected name or another failure. -/
theorem displays_tell_failures (limits : Limits) (text : String) :
    (∀ d, calculate limits text = .ok d → Shown d) ∧
    (Diagnostic.isFixedDisplay (display limits text) ↔
      ∃ failure, calculate limits text = .error failure ∧ failure.kind ≠ .nameNotAllowed) ∧
    (Diagnostic.isFixedDisplay (display limits text) ↔
      (EvaluateResponse.ofResult (display limits text)).success = false) ∧
    (Diagnostic.BeginsUseOf (display limits text) ↔
      ∃ failure, calculate limits text = .error failure ∧ failure.kind = .nameNotAllowed) := by
  refine ⟨fun d => shown_of_calculate, ?_, Diagnostic.success_eq_false_iff.symm, ?_⟩
  · rw [display_iff fun d hd hfixed => absurd hfixed (Bool.eq_false_iff.mp hd.isFixedDisplay_eq_false)]
    exact exists_congr fun failure => and_congr_right fun _ => Diagnostic.isFixedDisplay_display_iff
  · rw [display_iff fun d hd => hd.not_beginsUseOf]
    exact exists_congr fun failure => and_congr_right fun _ => Diagnostic.beginsUseOf_display_iff

/-- A product with a glyph is shown as a number, a division by zero is answered as failed. -/
theorem product_shown_division_failed : Shown "6" ∧
    (EvaluateResponse.ofResult (display .standard "1/0")).success = false := by
  refine ⟨(displays_tell_failures .standard "2×3").1 "6" (by decide +kernel), ?_⟩
  obtain ⟨-, hfailed, hanswer, -⟩ := displays_tell_failures .standard "1/0"
  exact hanswer.mp (hfailed.mpr ⟨.divisionByZero, by cbv, by decide⟩)

end Calculation
end Reckoner
