import Reckoner.Calculation
import Reckoner.Keypad
import Reckoner.Wire.Message

/-! The two endpoints of a calculator service. Every request is answered from its own body. -/
namespace Reckoner.Service

/-- The text that an action leaves on the display. -/
def perform (limits : Limits) (request : ActionRequest) : Action → String
  | .calculate => Calculation.display limits request.expression
  | .percentage => Keypad.percentage request.currentValue
  | .toggleSign => Keypad.toggleSign request.currentValue
  | .clear => Keypad.clear

/-- Failed evaluations are shown like results; only an unknown action fails. -/
def answerAction (limits : Limits) (request : ActionRequest) : ActionResponse :=
  match request.action.bind Action.ofName? with
  | some action => .shown (perform limits request action)
  | none => .failed invalidAction

def answerEvaluate (limits : Limits) (request : EvaluateRequest) : EvaluateResponse :=
  .ofResult (Calculation.display limits request.expression)

inductive Endpoint where
  | action
  | evaluate
  deriving Repr, DecidableEq

namespace Endpoint

def all : List Endpoint := [.action, .evaluate]

def name : Endpoint → String
  | .action => "action"
  | .evaluate => "evaluate"

def ofName? (name : String) : Option Endpoint := all.find? fun e => e.name = name

end Endpoint

/-- The answer to a raw body. -/
def answer [Serialization] (limits : Limits) (endpoint : Endpoint) (body : String) : String :=
  match endpoint with
  | .action =>
    match Wire.read? body with
    | some request => Wire.write (answerAction limits request)
    | none => Wire.write (ActionResponse.failed invalidRequest)
  | .evaluate =>
    match Wire.read? body with
    | some request => Wire.write (answerEvaluate limits request)
    | none => Wire.write (EvaluateResponse.failed invalidRequest)

end Reckoner.Service
