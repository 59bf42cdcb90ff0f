import Reckoner.Diagnostic

/-! What is asked of a calculator service, and what it answers. -/
namespace Reckoner

/-- A key was pressed while an expression and a current value were shown. -/
structure ActionRequest where
  action : Option String
  expression : String
  currentValue : String
  deriving Repr, DecidableEq

structure ActionResponse where
  success : Bool
  result : String
  display : String
  deriving Repr, DecidableEq

structure EvaluateRequest where
  expression : String
  deriving Repr, DecidableEq

structure EvaluateResponse where
  success : Bool
  result : String
  deriving Repr, DecidableEq

namespace ActionResponse

/-- The result is what the display shows from now on. -/
def shown (result : String) : ActionResponse := ⟨true, result, result⟩

def failed (reason : String) : ActionResponse := ⟨false, reason, ""⟩

end ActionResponse

namespace EvaluateResponse

/-- The displays that an answer takes for failures. -/
def failures : List String :=
  [Diagnostic.evaluationDisplay, Diagnostic.malformedDisplay, Diagnostic.divisionByZeroDisplay]

/-- The answer with a display; a rejected name does not count as failed. -/
def ofResult (result : String) : EvaluateResponse := ⟨!failures.contains result, result⟩

def failed (reason : String) : EvaluateResponse := ⟨false, reason⟩

end EvaluateResponse

/-- The answer to an action that is none of the keys. -/
def invalidAction : String := "Invalid action"

/-- The answer to a body that is no request. -/
def invalidRequest : String := "Invalid request"

end Reckoner
