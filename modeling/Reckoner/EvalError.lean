import Reckoner.Diagnostic
import Reckoner.Decimal.Layout

/-! Failures after parsing, by cause, and the diagnostics that report them. -/
namespace Reckoner
namespace EvalError

/-- Arguments or results outside a function's domain. -/
inductive Domain where
  | undefinedAt (function : String) (x : Float)
  | notPositive (function : String)
  | fractionalPower
  | nanToInteger
  | notANumber
  deriving Repr

/-- Results that their representation cannot hold. -/
inductive Overflow where
  | integerToFloat
  | integerWidth (maxBits : UInt64)
  | floatPower
  | infinityToInteger
  | rounding
  | displayDigits (limit : Nat)
  deriving Repr

/-- Names and arguments used as something they are not. -/
inductive Mismatch where
  | functionAsValue (name : String)
  | notCallable (name : String)
  | digitCount
  deriving Repr

def Domain.message : Domain → String
  | .undefinedAt function x => s!"{function}({Decimal.Layout.plain.text x}) is undefined"
  | .notPositive function => s!"{function}() requires a positive argument"
  | .fractionalPower => "negative number cannot be raised to a fractional power"
  | .nanToInteger => "cannot convert NaN to integer"
  | .notANumber => "result is not a number"

def Overflow.message : Overflow → String
  | .integerToFloat => "int too large to convert to float"
  | .integerWidth maxBits => s!"integer result exceeds {maxBits.toNat} bits"
  | .floatPower => "float power result too large"
  | .infinityToInteger => "cannot convert infinity to integer"
  | .rounding => "rounded value too large"
  | .displayDigits limit => s!"integer exceeds the display limit of {limit} digits"

def Mismatch.message : Mismatch → String
  | .functionAsValue name => s!"function '{name}' used as a value"
  | .notCallable name => s!"'{name}' is not callable"
  | .digitCount => "round() digit count must be an integer"

end EvalError

inductive EvalError where
  | divisionByZero
  | domain (cause : EvalError.Domain)
  | overflow (cause : EvalError.Overflow)
  | typeMismatch (cause : EvalError.Mismatch)
  | wrongArgCount (function : String) (least most got : Nat)
  | nameNotAllowed (name : String) (span : Span)
  | gasExhausted
  deriving Repr

namespace EvalError

def message : EvalError → String
  | .divisionByZero => "division by zero"
  | .domain cause => s!"math domain error: {cause.message}"
  | .overflow cause => s!"numeric overflow: {cause.message}"
  | .typeMismatch cause => s!"type mismatch: {cause.message}"
  | .wrongArgCount function least most got =>
    let expected := if least = most then s!"{least}" else s!"{least} to {most}"
    s!"{function}() takes {expected} argument(s), got {got}"
  | .nameNotAllowed name _ => s!"use of {name} not allowed"
  | .gasExhausted => "evaluation step limit exceeded"

def diagnostic (e : EvalError) : Diagnostic :=
  match e with
  | .divisionByZero => .divisionByZero
  | .nameNotAllowed name span => .nameNotAllowed name span
  | .domain _ => .evaluation .domain e.message
  | .overflow _ => .evaluation .overflow e.message
  | .typeMismatch _ => .evaluation .typeMismatch e.message
  | .wrongArgCount _ _ _ _ => .evaluation .wrongArgCount e.message
  | .gasExhausted => .evaluation .gasExhausted e.message

end EvalError
end Reckoner
