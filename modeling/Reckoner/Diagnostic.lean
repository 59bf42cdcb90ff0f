import Reckoner.Span

/-! Failures of a calculation: what went wrong, under which code, and where in the text. -/
namespace Reckoner
namespace Diagnostic

inductive Kind where
  | malformed
  | disallowedConstruct
  | nameNotAllowed
  | divisionByZero
  | evaluation
  deriving Repr, DecidableEq

def Kind.all : List Kind :=
  [.malformed, .disallowedConstruct, .nameNotAllowed, .divisionByZero, .evaluation]

def Kind.tag : Kind → String
  | .malformed => "syntax"
  | .disallowedConstruct => "disallowed_construct"
  | .nameNotAllowed => "name_not_allowed"
  | .divisionByZero => "division_by_zero"
  | .evaluation => "evaluation"

def Kind.text : Kind → String
  | .malformed => "syntax"
  | .disallowedConstruct => "disallowed construct"
  | .nameNotAllowed => "name not allowed"
  | .divisionByZero => "division by zero"
  | .evaluation => "evaluation"

structure Code where
  number : UInt16
  deriving Repr, DecidableEq

namespace Code

def unexpectedToken : Code := ⟨100⟩
def unclosedParen : Code := ⟨101⟩
def unexpectedCharacter : Code := ⟨102⟩
def invalidNumber : Code := ⟨103⟩
def unexpectedEnd : Code := ⟨104⟩
def disallowedConstruct : Code := ⟨110⟩
def nestingLimitExceeded : Code := ⟨120⟩
def inputTooLong : Code := ⟨121⟩
def nameNotAllowed : Code := ⟨200⟩
def divisionByZero : Code := ⟨300⟩
def domain : Code := ⟨400⟩
def overflow : Code := ⟨401⟩
def typeMismatch : Code := ⟨402⟩
def wrongArgCount : Code := ⟨403⟩
def gasExhausted : Code := ⟨404⟩

/-- Hundreds of codes belong to one kind, except that 110 stands apart among the malformed ones. -/
def kind (c : Code) : Kind :=
  if c.number = 110 then .disallowedConstruct
  else if 100 ≤ c.number ∧ c.number ≤ 199 then .malformed
  else if 200 ≤ c.number ∧ c.number ≤ 299 then .nameNotAllowed
  else if 300 ≤ c.number ∧ c.number ≤ 399 then .divisionByZero
  else .evaluation

def text (c : Code) : String := s!"E{c.number.toNat}"

end Code
end Diagnostic

inductive Diagnostic where
  /-- The text is no expression, or breaks a limit on its shape. -/
  | malformed (code : Diagnostic.Code) (message : String) (span : Span)
  /-- The text is well formed in a wider language than that of arithmetic. -/
  | disallowed (construct : String) (span : Span)
  | nameNotAllowed (name : String) (span : Span)
  | divisionByZero
  | evaluation (code : Diagnostic.Code) (message : String)
  deriving Repr, DecidableEq

namespace Diagnostic

def code : Diagnostic → Code
  | .malformed code _ _ => code
  | .disallowed _ _ => .disallowedConstruct
  | .nameNotAllowed _ _ => .nameNotAllowed
  | .divisionByZero => .divisionByZero
  | .evaluation code _ => code

def kind : Diagnostic → Kind
  | .malformed _ _ _ => .malformed
  | .disallowed _ _ => .disallowedConstruct
  | .nameNotAllowed _ _ => .nameNotAllowed
  | .divisionByZero => .divisionByZero
  | .evaluation _ _ => .evaluation

def span? : Diagnostic → Option Span
  | .malformed _ _ span => some span
  | .disallowed _ span => some span
  | .nameNotAllowed _ span => some span
  | .divisionByZero => none
  | .evaluation _ _ => none

/-- The detailed text, for records of what happened. -/
def text : Diagnostic → String
  | .malformed code message span => s!"{code.text}: {message} ({span.text})"
  | .disallowed construct span => s!"{construct} is not allowed ({span.text})"
  | .nameNotAllowed name _ => s!"Use of {name} not allowed"
  | .divisionByZero => "Cannot divide by zero"
  | .evaluation code message => s!"{code.text}: {message}"

def malformedDisplay : String := "Syntax Error"
def divisionByZeroDisplay : String := "Cannot divide by zero"
def evaluationDisplay : String := "Error"

/-- What a calculator shows for the failure. -/
def display : Diagnostic → String
  | .malformed _ _ _ => malformedDisplay
  | .disallowed _ _ => malformedDisplay
  | .nameNotAllowed name _ => s!"Use of {name} not allowed"
  | .divisionByZero => divisionByZeroDisplay
  | .evaluation _ _ => evaluationDisplay

/-- Whether a display is one of the three fixed texts of failures; a rejected name is not among them. -/
def isFixedDisplay (shown : String) : Bool :=
  shown = evaluationDisplay || shown = malformedDisplay || shown = divisionByZeroDisplay

end Diagnostic
end Reckoner
