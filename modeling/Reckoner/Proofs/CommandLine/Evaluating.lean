import Reckoner.Proofs.Calculation.Displays
import Reckoner.Proofs.CommandLine.Arguments
import Reckoner.Proofs.CommandLine.Serving
import Reckoner.Proofs.Wire.Values

/-! The evaluating command shows what the endpoints answer, whatever limits its options set, and its status
tells whether there is a value. -/
namespace Reckoner
open Service

variable {limits : Limits} {text : String} {failure : Diagnostic}

theorem Diagnostic.kind_eq_nameNotAllowed_iff :
    failure.kind = .nameNotAllowed ↔ ∃ name span, failure = .nameNotAllowed name span := by
  cases failure <;> simp [kind]

namespace Calculation

/-- An answer succeeds where there is a value or a rejected name. -/
theorem success_answerEvaluate_iff : (answerEvaluate limits ⟨text⟩).success ↔
    ∀ failure, calculate limits text = .error failure → failure.kind = .nameNotAllowed := by
  have hshown (d : String) (hd : Display.Shown d) : ¬ Diagnostic.isFixedDisplay d :=
    Bool.eq_false_iff.mp hd.isFixedDisplay_eq_false
  have hfailed := (@Diagnostic.success_eq_false_iff (display limits text)).trans (display_iff hshown)
  rw [answerEvaluate, ← Bool.not_eq_false, hfailed]
  simp only [Diagnostic.isFixedDisplay_display_iff, not_exists, not_and, not_not]

end Calculation

namespace CommandLine
section
variable [S : Serialization]

/-- What an expression leaves behind on the command line is what the endpoints answer to it, and the status
is that of the calculation. -/
structure Agrees (limits : Limits) (expression : String) (json : Bool) (o : Outcome) : Prop where
  output : o.output = (if json then answer limits .evaluate (Wire.write (EvaluateRequest.mk expression))
    else (answerEvaluate limits ⟨expression⟩).result) ++ "\n"
  /-- The key for calculating shows the same, whatever the value before. -/
  action (current : String) : answerAction limits ⟨some "calculate", expression, current⟩ =
    ⟨true, (answerEvaluate limits ⟨expression⟩).result, (answerEvaluate limits ⟨expression⟩).result⟩
  status : o.status = 0 ∧ (∃ d, Calculation.calculate limits expression = .ok d) ∨
    o.status = 1 ∧ ∃ failure, Calculation.calculate limits expression = .error failure
  /-- Only a rejected name fails with a successful answer. -/
  rejected : o.status = 1 ∧ (answerEvaluate limits ⟨expression⟩).success ↔
    ∃ name span, Calculation.calculate limits expression = .error (.nameNotAllowed name span)
  succeeded : o.status = 0 → (answerEvaluate limits ⟨expression⟩).success

/-- What is shown for a display. -/
def answered (json : Bool) (display : String) : String :=
  if json then Wire.write (EvaluateResponse.ofResult display) else display

/-- No display is lost on its way into an answer. -/
theorem shown_eq (h : S.Lawful) (json : Bool) (display : String) : shown json display = .ok (answered json display) := by
  cases json with
  | false => rfl
  | true =>
    have htext := Wire.text_eq h h.lossless_evaluateResponse (EvaluateResponse.ofResult display)
    have hwrite : answered true display = (Wire.codec.encode (EvaluateResponse.ofResult display)).write := by
      rw [answered, if_pos rfl, Wire.write, htext]
    rw [hwrite]
    exact htext

/-- The display that is made out of the outcome is the one that is calculated. -/
theorem evaluate_output (h : S.Lawful) (limits : Limits) (threshold : Option Journal.Level) (expression : String)
    (json : Bool) : (evaluate limits threshold expression json).output =
      line (answered json (Calculation.display limits expression)) := by
  unfold evaluate Calculation.display
  cases Calculation.calculate limits expression with
  | ok d =>
    dsimp only
    rw [shown_eq h]
  | error failure =>
    dsimp only
    rw [shown_eq h]

theorem evaluate_of_ok (h : S.Lawful) {d : String} (hd : Calculation.calculate limits text = .ok d)
    (threshold : Option Journal.Level) (json : Bool) : (evaluate limits threshold text json).status = 0 := by
  unfold evaluate
  rw [hd]
  dsimp only
  rw [shown_eq h]

theorem evaluate_of_error (h : S.Lawful) (hfailure : Calculation.calculate limits text = .error failure)
    (threshold : Option Journal.Level) (json : Bool) : (evaluate limits threshold text json).status = 1 := by
  unfold evaluate
  rw [hfailure]
  dsimp only
  rw [shown_eq h]

/-- The evaluating endpoint gives the same for the request with the text. -/
theorem answered_eq (h : S.Lawful) (limits : Limits) (expression : String) (json : Bool) :
    answered json (Calculation.display limits expression) =
      if json then answer limits .evaluate (Wire.write (EvaluateRequest.mk expression))
      else (answerEvaluate limits ⟨expression⟩).result := by
  cases json with
  | false => rfl
  | true =>
    obtain ⟨sent, hsent, hread⟩ := Wire.lossless_of_codec h h.lossless_evaluateRequest (EvaluateRequest.mk expression)
    have hwrite : Wire.write (EvaluateRequest.mk expression) = sent := by rw [Wire.write, hsent]
    rw [if_pos rfl, answer_evaluate, hwrite, hread]
    rfl

theorem evaluate_agrees (h : S.Lawful) (limits : Limits) (threshold : Option Journal.Level) (expression : String)
    (json : Bool) : Agrees limits expression json (evaluate limits threshold expression json) := by
  have houtput := evaluate_output h limits threshold expression json
  rw [answered_eq h, line] at houtput
  have hsuccess := @Calculation.success_answerEvaluate_iff limits expression
  have haction (current : String) : answerAction limits ⟨some "calculate", expression, current⟩ =
      ⟨true, (answerEvaluate limits ⟨expression⟩).result, (answerEvaluate limits ⟨expression⟩).result⟩ := rfl
  cases hcalculated : Calculation.calculate limits expression with
  | ok d =>
    have hstatus := evaluate_of_ok h hcalculated threshold json
    refine ⟨houtput, haction, .inl ⟨hstatus, d, hcalculated⟩, ?_, fun _ => hsuccess.mpr ?_⟩
    · simp [hstatus, hcalculated]
    · simp [hcalculated]
  | error failure =>
    have hstatus := evaluate_of_error h hcalculated threshold json
    refine ⟨houtput, haction, .inr ⟨hstatus, failure, hcalculated⟩, ?_, ?_⟩
    · simp [hstatus, hsuccess, hcalculated, Diagnostic.kind_eq_nameNotAllowed_iff]
    · simp [hstatus]

end

/-- Every text reaches the evaluation under all limits that have options, and wherever a command line
evaluates a text, however it is understood, it shows what the endpoints answer to it under the same limits. -/
theorem evaluating_agrees_with_endpoints [S : Serialization] (h : S.Lawful) (expression : String) (json : Bool)
    (input : List UInt8) :
    (∀ length depth gas, ∃ arguments, Invocation.ofArguments arguments =
      .ok ⟨⟨length, depth, gas⟩, some .warn, .eval expression json⟩) ∧
    ∀ (parse : List String → Except Outcome Invocation) arguments options threshold,
      parse arguments = .ok ⟨options, threshold, .eval expression json⟩ →
        Agrees options.limits expression json (runWith parse arguments input) := by
  constructor
  · intro length depth gas
    exact ⟨_, ofArguments_evaluating length gas depth json expression⟩
  · intro parse arguments options threshold hparse
    rw [runWith, hparse]
    exact evaluate_agrees h options.limits threshold expression json

/-- A rejected name ends with the status of a failure, and is answered as a success. -/
theorem rejected_name_agrees :
    let arguments := ["eval", "--max-depth=8", "os(1)", "--json"]
    let options : LimitOptions := { LimitOptions.standard with maxDepth := 8 }
    Serialization.standard.Lawful ∧
      Invocation.parse arguments = .ok ⟨options, some .warn, .eval "os(1)" true⟩ ∧
      Agrees options.limits "os(1)" true (run arguments []) ∧ (run arguments []).status = 1 ∧
      (answerEvaluate options.limits ⟨"os(1)"⟩).success := by
  intro arguments options
  have h : Invocation.parse arguments = .ok ⟨options, some .warn, .eval "os(1)" true⟩ := by decide +kernel
  have hagrees : Agrees options.limits "os(1)" true (run arguments []) :=
    (evaluating_agrees_with_endpoints Serialization.standard_lawful "os(1)" true []).2 Invocation.parse arguments options
      (some .warn) h
  have hname : ∃ name span, Calculation.calculate options.limits "os(1)" = .error (.nameNotAllowed name span) :=
    ⟨"os", ⟨0, 2⟩, by decide +kernel⟩
  exact ⟨Serialization.standard_lawful, h, hagrees, hagrees.rejected.mpr hname⟩

end CommandLine
end Reckoner
