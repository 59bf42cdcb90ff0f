import Reckoner.Proofs.Calculation.Displays
import Reckoner.Proofs.Service.Splicing
import Reckoner.Service

/-! Keys that are pressed one after the other. No display begins with two minus signs, so the sign of what is
shown can be toggled, and toggled back. -/
namespace Reckoner
open Decimal

variable {cs ds : List Char} {shown start : String} {limits : Limits} {key : Option String} {l : Layout} {negative : Bool}

/-- Two minus signs stand in front. -/
def DoublySigned (shown : String) : Prop := ['-', '-'] <+: shown.toList

instance (shown : String) : Decidable (DoublySigned shown) :=
  inferInstanceAs (Decidable (['-', '-'] <+: shown.toList))

theorem doublySigned_ofList : DoublySigned (String.ofList cs) ↔ ∃ rest, cs = '-' :: '-' :: rest := by
  rw [DoublySigned, String.toList_ofList]
  exact exists_congr fun rest => eq_comm

theorem not_doublySigned_of_head (h : shown.toList.head? ≠ some '-') : ¬ DoublySigned shown := by
  rintro ⟨rest, hrest⟩
  rw [← hrest] at h
  exact h rfl

/-- One sign does not make two. -/
theorem not_doublySigned_sign (h : cs.head? ≠ some '-') (negative : Bool) :
    ¬ DoublySigned (String.ofList (Display.sign negative ++ cs)) := by
  rw [doublySigned_ofList]
  rintro ⟨rest, hrest⟩
  cases negative with
  | false =>
    rw [Display.sign, if_neg Bool.false_ne_true, List.nil_append] at hrest
    exact h (by rw [hrest, List.head?_cons])
  | true =>
    obtain ⟨-, rfl⟩ := List.cons.inj hrest
    exact h rfl

namespace Decimal

theorem Digits.head_ne_minus (h : Digits ds) : (ds ++ cs).head? ≠ some '-' := by
  obtain ⟨c, rest, rfl, hc⟩ := h.exists_cons
  rw [List.cons_append, List.head?_cons, ne_eq, Option.some_inj]
  rintro rfl
  exact absurd hc (by decide)

/-- A number is written with a digit in front, wherever its point stands. -/
theorem placePoint_head (h : Digits ds) (pointZero : Bool) (whole : ℤ) :
    (placePoint pointZero ds whole).head? ≠ some '-' := by
  unfold placePoint
  dsimp only
  split
  · rw [List.append_assoc]
    exact h.head_ne_minus
  · split
    · have htake : Digits (ds.take whole.toNat) :=
        ⟨by simp [h.1]; omega, fun c hc => h.2 c (List.mem_of_mem_take hc)⟩
      exact htake.head_ne_minus
    · simp

theorem Layout.exponential_head (h : Digits ds) (l : Layout) (exponent : ℤ) :
    (l.exponential ds exponent).head? ≠ some '-' := by
  have htake : Digits (ds.take 1) := ⟨by simp [h.1], fun c hc => h.2 c (List.mem_of_mem_take hc)⟩
  simp only [Layout.exponential, List.append_assoc]
  exact htake.head_ne_minus

theorem Layout.text_not_doublySigned (hnan : l.nan.toList.head? ≠ some '-')
    (hinfinity : l.infinity.toList.head? ≠ some '-') (x : Float) : ¬ DoublySigned (l.text x) := by
  unfold Layout.text
  dsimp only
  split
  · exact not_doublySigned_of_head hnan
  · rw [Display.sign_append]
    exact not_doublySigned_sign hinfinity _
  · rw [Display.sign_append]
    exact not_doublySigned_sign (placePoint_head plain_zero.all _ _) _
  · rw [Display.sign_append]
    refine not_doublySigned_sign ?_ _
    unfold Layout.magnitude
    dsimp only
    split
    · exact placePoint_head (digits_plain _).all _ _
    · exact Layout.exponential_head (digits_plain _).all _ _

end Decimal

namespace Display

theorem Shown.not_doublySigned (h : Shown shown) : ¬ DoublySigned shown := by
  cases h with
  | infinity => decide
  | number negative h => exact not_doublySigned_sign h.plain.all.head_ne_minus negative

end Display

theorem Diagnostic.display_not_doublySigned (failure : Diagnostic) : ¬ DoublySigned failure.display := by
  apply not_doublySigned_of_head
  cases failure with
  | nameNotAllowed name span => simp [display_nameNotAllowed]
  | malformed _ _ _ | disallowed _ _ => simp [display, malformedDisplay]
  | divisionByZero => simp [display, divisionByZeroDisplay]
  | evaluation _ _ => simp [display, evaluationDisplay]

theorem Calculation.display_not_doublySigned (limits : Limits) (text : String) :
    ¬ DoublySigned (display limits text) := by
  cases h : calculate limits text with
  | ok d =>
    rw [display_of_ok h]
    exact (shown_of_calculate h).not_doublySigned
  | error failure =>
    rw [display_of_error h]
    exact failure.display_not_doublySigned

namespace Keypad

theorem percentage_not_doublySigned (shown : String) : ¬ DoublySigned (percentage shown) := by
  unfold percentage
  split
  · rw [text_eq_layout]
    exact Layout.text_not_doublySigned (by simp [layout]) (by simp [layout]) _
  · decide

theorem toggleSign_of_plain (h : shown.toList.head? ≠ some '-') :
    toggleSign shown = String.ofList ('-' :: shown.toList) := by
  unfold toggleSign
  split
  · next heq => rw [heq] at h; exact absurd rfl h
  · rfl

theorem toggleSign_of_signed (h : shown.toList = '-' :: cs) : toggleSign shown = String.ofList cs := by
  rw [toggleSign, h]
  rfl

/-- What is left of a text with one sign has none. -/
theorem head_of_not_doublySigned (h : ¬ DoublySigned shown) (hcs : shown.toList = '-' :: cs) :
    cs.head? ≠ some '-' := by
  intro hhead
  obtain ⟨rest, rfl⟩ := List.head?_eq_some_iff.mp hhead
  exact h ⟨rest, hcs.symm⟩

theorem toggleSign_not_doublySigned (h : ¬ DoublySigned shown) : ¬ DoublySigned (toggleSign shown) := by
  by_cases hhead : shown.toList.head? = some '-'
  · obtain ⟨cs, hcs⟩ := List.head?_eq_some_iff.mp hhead
    rw [toggleSign_of_signed hcs]
    exact not_doublySigned_sign (head_of_not_doublySigned h hcs) false
  · rw [toggleSign_of_plain hhead]
    exact not_doublySigned_sign hhead true

theorem toggleSign_toggleSign (h : ¬ DoublySigned shown) : toggleSign (toggleSign shown) = shown := by
  by_cases hhead : shown.toList.head? = some '-'
  · obtain ⟨cs, hcs⟩ := List.head?_eq_some_iff.mp hhead
    have hplain := head_of_not_doublySigned h hcs
    rw [toggleSign_of_signed hcs, toggleSign_of_plain (by rwa [String.toList_ofList]), String.toList_ofList, ← hcs,
      String.ofList_toList]
  · rw [toggleSign_of_plain hhead, toggleSign_of_signed String.toList_ofList, String.ofList_toList]

example : toggleSign (toggleSign "--5") = "5" := by decide

end Keypad

namespace Action

theorem ofName?_name (action : Action) : ofName? action.name = some action := by
  cases action <;> rfl

theorem name_of_ofName? {name : String} {action : Action} (h : ofName? name = some action) : name = action.name := by
  have hfound := List.find?_some h
  exact (of_decide_eq_true hfound).symm

end Action

namespace Service

/-- The answer to a key that is pressed while a text is shown. -/
def press (limits : Limits) (shown : String) (key : Option String) : ActionResponse :=
  answerAction limits ⟨key, shown, shown⟩

/-- The answers to keys, each pressed while the display of the answer before it is shown. -/
def pressAll (limits : Limits) : String → List (Option String) → List ActionResponse
  | _, [] => []
  | shown, key :: keys => press limits shown key :: pressAll limits (press limits shown key).display keys

/-- The text that is shown after some keys. -/
def shownAfter (limits : Limits) (start : String) (keys : List (Option String)) : String :=
  keys.foldl (fun shown key => (press limits shown key).display) start

/-- What is answered to a key: what is shown from now on, or nothing if the key is none of the keypad. -/
structure Responds (key : Option String) (r : ActionResponse) : Prop where
  known : (∃ action : Action, key = some action.name) → r.success = true ∧ r.result = r.display
  unknown : (∀ action : Action, key ≠ some action.name) → r.success = false ∧ r.display = ""

theorem press_responds (limits : Limits) (shown : String) (key : Option String) :
    Responds key (press limits shown key) := by
  cases haction : key.bind Action.ofName? with
  | some action =>
    obtain ⟨name, rfl, hname⟩ := Option.bind_eq_some_iff.mp haction
    have hresponse : press limits shown (some name) = .shown (perform limits ⟨some name, shown, shown⟩ action) := by
      rw [press, answerAction, haction]
    rw [hresponse]
    exact ⟨fun _ => ⟨rfl, rfl⟩, fun hne => absurd (congrArg some (Action.name_of_ofName? hname)) (hne action)⟩
  | none =>
    have hresponse : press limits shown key = .failed invalidAction := by
      rw [press, answerAction, haction]
    rw [hresponse]
    refine ⟨?_, fun _ => ⟨rfl, rfl⟩⟩
    rintro ⟨action, rfl⟩
    rw [Option.bind_some, action.ofName?_name] at haction
    cases haction

theorem press_not_doublySigned (h : ¬ DoublySigned shown) (key : Option String) :
    ¬ DoublySigned (press limits shown key).display := by
  unfold press answerAction
  split
  · next action _ =>
    cases action with
    | calculate => exact Calculation.display_not_doublySigned limits shown
    | percentage => exact Keypad.percentage_not_doublySigned shown
    | toggleSign => exact Keypad.toggleSign_not_doublySigned h
    | clear => exact (by decide : ¬ DoublySigned Keypad.clear)
  · exact (by decide : ¬ DoublySigned "")

theorem pressAll_responds (limits : Limits) (start : String) (keys : List (Option String)) :
    List.Forall₂ Responds keys (pressAll limits start keys) := by
  induction keys generalizing start with
  | nil => exact .nil
  | cons key keys ih => exact .cons (press_responds limits start key) (ih _)

theorem shownAfter_not_doublySigned (limits : Limits) (h : ¬ DoublySigned start) (keys : List (Option String)) :
    ¬ DoublySigned (shownAfter limits start keys) := by
  induction keys generalizing start with
  | nil => exact h
  | cons key keys ih => exact ih (press_not_doublySigned h key)

theorem shownAfter_append (limits : Limits) (start : String) (keys more : List (Option String)) :
    shownAfter limits start (keys ++ more) = shownAfter limits (shownAfter limits start keys) more :=
  List.foldl_append

/-- From a display without two signs in front no keys lead to one with them, so the sign can always be toggled
and toggled back, and every key is answered by what is shown from then on. -/
theorem keys_leave_sign_toggleable (h : ¬ DoublySigned start) (limits : Limits) (keys : List (Option String)) :
    ¬ DoublySigned (shownAfter limits start keys) ∧
    shownAfter limits start (keys ++ [some "toggle_sign", some "toggle_sign"]) = shownAfter limits start keys ∧
    List.Forall₂ Responds keys (pressAll limits start keys) := by
  have hkeys := shownAfter_not_doublySigned limits h keys
  refine ⟨hkeys, ?_, pressAll_responds limits start keys⟩
  rw [shownAfter_append]
  exact Keypad.toggleSign_toggleSign hkeys

/-- An infinity is divided and toggled, its text is then taken for a name, and the last key is none. -/
theorem infinity_sign_toggleable :
    let keys := [some "percentage", some "toggle_sign", some "calculate", none]
    ¬ DoublySigned "-Infinity" ∧ ¬ DoublySigned (shownAfter .standard "-Infinity" keys) ∧
      shownAfter .standard "-Infinity" (keys ++ [some "toggle_sign", some "toggle_sign"]) =
        shownAfter .standard "-Infinity" keys ∧
      List.Forall₂ Responds keys (pressAll .standard "-Infinity" keys) := by
  intro keys
  have hstart : ¬ DoublySigned "-Infinity" := by decide
  exact ⟨hstart, keys_leave_sign_toggleable hstart .standard keys⟩

end Service
end Reckoner
