import Reckoner.Function
import Reckoner.Expr.Names

/-! The names that an expression may use, and what they stand for. -/
namespace Reckoner

inductive Binding where
  | constant (value : Float)
  | function (f : Function)
  deriving Repr

namespace Whitelist

def pi : Float := 3.141592653589793

def e : Float := 2.718281828459045

/-- Every name that an expression may use. -/
def names : List String :=
  ["sin", "cos", "tan", "sqrt", "log", "ln", "pi", "e", "rad", "deg", "abs", "round", "floor", "ceil"]

def lookup (name : String) : Option Binding :=
  if name = "pi" then some (.constant pi)
  else if name = "e" then some (.constant e)
  else (Function.ofName? name).map .function

def allows (name : String) : Bool := (lookup name).isSome

/-- The identifiers of an expression that stand for nothing, in the order of the text. -/
def rejected (e : Expr) : List Identifier := e.identifiers.filter fun i => !allows i.name

/-- An expression may be evaluated if every identifier in it stands for something. -/
def validate (e : Expr) : Except Diagnostic Unit :=
  match rejected e with
  | [] => .ok ()
  | first :: _ => .error (.nameNotAllowed first.name first.span)

end Whitelist
end Reckoner
