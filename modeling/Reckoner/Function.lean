import Reckoner.Number.Rounding

/-! The functions of the calculator. -/
namespace Reckoner

inductive Function where
  | sin
  | cos
  | tan
  | sqrt
  /-- The logarithm to base ten. -/
  | log
  /-- The natural logarithm, or the logarithm to the base given as second argument. -/
  | ln
  | rad
  | deg
  | abs
  /-- Rounding to the nearest whole number, or to a number of places. -/
  | round
  | floor
  | ceil
  deriving Repr, DecidableEq

namespace Function

def name : Function → String
  | .sin => "sin"
  | .cos => "cos"
  | .tan => "tan"
  | .sqrt => "sqrt"
  | .log => "log"
  | .ln => "ln"
  | .rad => "rad"
  | .deg => "deg"
  | .abs => "abs"
  | .round => "round"
  | .floor => "floor"
  | .ceil => "ceil"

def ofName? : String → Option Function
  | "sin" => some .sin
  | "cos" => some .cos
  | "tan" => some .tan
  | "sqrt" => some .sqrt
  | "log" => some .log
  | "ln" => some .ln
  | "rad" => some .rad
  | "deg" => some .deg
  | "abs" => some .abs
  | "round" => some .round
  | "floor" => some .floor
  | "ceil" => some .ceil
  | _ => none

theorem name_of_ofName? {name : String} {f : Function} (h : ofName? name = some f) : f.name = name := by
  unfold ofName? at h
  split at h <;> cases h <;> rfl

def leastArgs (_ : Function) : Nat := 1

def mostArgs : Function → Nat
  | .ln | .round => 2
  | _ => 1

/-- A function of doubles; a NaN that its argument does not explain is an error of domain. -/
def onFloat (f : Function) (g : Float → Float) (x : Number) : Except EvalError Number := do
  let x ← x.toFloat
  let y := g x
  if y.isNaN && !x.isNaN then throw (.domain (.undefinedAt f.name x))
  return .float y

/-- The argument of a logarithm. -/
def positive (f : Function) (x : Number) : Except EvalError Float := do
  let x ← x.toFloat
  if x ≤ 0.0 then throw (.domain (.notPositive f.name))
  return x

def degree : Float := 0.017453292519943295

def radian : Float := 57.29577951308232

def natLog (x : Number) : Option Number → Except EvalError Number
  | none => do
    let x ← positive .ln x
    return .float x.log
  | some base => do
    let x ← positive .ln x
    let base ← positive .ln base
    if base.log == 0.0 then throw .divisionByZero
    return .float (x.log / base.log)

def magnitude : Number → Number
  | .int n => .int n.natAbs
  | .float x => .float x.abs

def rounded (x : Number) : Option Number → Except EvalError Number
  | none => x.toWhole .halfEven
  | some (.int places) => x.round places
  | some (.float _) => .error (.typeMismatch .digitCount)

/-- The value of a function at a first argument and perhaps a second one. -/
def value (f : Function) (x : Number) (second : Option Number) : Except EvalError Number :=
  match f with
  | .sin => onFloat f Float.sin x
  | .cos => onFloat f Float.cos x
  | .tan => onFloat f Float.tan x
  | .sqrt => onFloat f Float.sqrt x
  | .rad => onFloat f (· * degree) x
  | .deg => onFloat f (· * radian) x
  | .log => do
    let x ← positive f x
    return .float x.log10
  | .ln => natLog x second
  | .abs => .ok (magnitude x)
  | .floor => x.toWhole .floor
  | .ceil => x.toWhole .ceiling
  | .round => rounded x second

/-- The value of a call, once the number of arguments is right. -/
def call (f : Function) (args : List Number) : Except EvalError Number :=
  match args with
  | [] => .error (.wrongArgCount f.name f.leastArgs f.mostArgs 0)
  | x :: rest =>
    if args.length ≤ f.mostArgs then f.value x rest.head?
    else .error (.wrongArgCount f.name f.leastArgs f.mostArgs args.length)

end Function
end Reckoner
