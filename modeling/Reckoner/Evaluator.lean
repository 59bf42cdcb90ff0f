import Reckoner.Whitelist
import Reckoner.Number.Arithmetic
import Reckoner.Limits

/-! The value of an expression. Every node costs one unit of gas before anything else happens; the count
survives errors, so that one meter serves several expressions. -/
namespace Reckoner

/-- A computation that counts gas and may fail. -/
abbrev Metered (α : Type) := ExceptT EvalError (StateM Nat) α

namespace Evaluator

/-- Counts one unit, also past the limit. -/
def tick (limits : Limits) : Metered Unit := do
  modify (· + 1)
  if limits.gasLimit.toNat < (← get) then throw .gasExhausted

def nameValue (name : String) (span : Span) : Except EvalError Number :=
  match Whitelist.lookup name with
  | some (.constant x) => .ok (.float x)
  | some (.function f) => .error (.typeMismatch (.functionAsValue f.name))
  | none => .error (.nameNotAllowed name span)

def callee (name : String) (span : Span) : Except EvalError Function :=
  match Whitelist.lookup name with
  | some (.function f) => .ok f
  | some (.constant _) => .error (.typeMismatch (.notCallable name))
  | none => .error (.nameNotAllowed name span)

def applySign : Sign → Number → Number
  | .negative, x => x.neg
  | .positive, x => x

mutual

/-- Operands and arguments are evaluated from left to right, a called name is resolved first. -/
def eval (limits : Limits) : Expr → Metered Number
  | .int n _ => do
    tick limits
    return .int n
  | .float x _ => do
    tick limits
    return .float x
  | .name text span => do
    tick limits
    liftM (nameValue text span)
  | .call name span args _ => do
    tick limits
    let f ← liftM (callee name span)
    let values ← evalAll limits args
    liftM (f.call values)
  | .binary op left right _ => do
    tick limits
    let lhs ← eval limits left
    let rhs ← eval limits right
    liftM (Number.binary op lhs rhs limits.maxIntBits)
  | .signed sign operand _ => do
    tick limits
    let x ← eval limits operand
    return applySign sign x
  | .paren inner _ => do
    tick limits
    eval limits inner

def evalAll (limits : Limits) : List Expr → Metered (List Number)
  | [] => return []
  | e :: es => do
    let x ← eval limits e
    let xs ← evalAll limits es
    return x :: xs

end

/-- The outcome for an expression on a meter that shows `gas`, and what the meter shows after it. -/
def run (limits : Limits) (gas : Nat) (e : Expr) : Except EvalError Number × Nat :=
  (eval limits e).run gas

end Evaluator
end Reckoner
