import Reckoner.Journal

/-! Options of a command line: their names, where they may stand, and their values. -/
namespace Reckoner.CommandLine

/-- The places where options stand: before the command, or after one of the two commands. -/
inductive Place where
  | front
  | eval
  | serve
  deriving Repr, DecidableEq

inductive Flag where
  | maxLength
  | maxDepth
  | gasLimit
  | logLevel
  | endpoint
  | json
  | help
  deriving Repr, DecidableEq

namespace Flag

def name : Flag → String
  | .maxLength => "max-length"
  | .maxDepth => "max-depth"
  | .gasLimit => "gas-limit"
  | .logLevel => "log-level"
  | .endpoint => "endpoint"
  | .json => "json"
  | .help => "help"

/-- The options that may stand at every place. -/
def everywhere : List Flag := [.maxLength, .maxDepth, .gasLimit, .logLevel, .help]

def all : Place → List Flag
  | .front => everywhere
  | .eval => .json :: everywhere
  | .serve => .endpoint :: everywhere

def ofName? (place : Place) (name : String) : Option Flag := (all place).find? fun f => f.name = name

end Flag

/-- The limits that have options. -/
structure LimitOptions where
  maxLength : UInt64
  maxDepth : UInt32
  gasLimit : UInt64
  deriving Repr, DecidableEq

namespace LimitOptions

def standard : LimitOptions :=
  ⟨Limits.standard.maxInputLength, Limits.standard.maxDepth, Limits.standard.gasLimit⟩

/-- The width of integers has no option. -/
def limits (o : LimitOptions) : Limits :=
  { Limits.standard with maxInputLength := o.maxLength, maxDepth := o.maxDepth, gasLimit := o.gasLimit }

end LimitOptions

/-- An option with its value. -/
inductive Setting where
  | maxLength (n : UInt64)
  | maxDepth (n : UInt32)
  | gasLimit (n : UInt64)
  | logLevel (threshold : Option Journal.Level)
  | endpoint (e : Service.Endpoint)
  | json
  deriving Repr, DecidableEq

namespace Setting

def flag : Setting → Flag
  | .maxLength _ => .maxLength
  | .maxDepth _ => .maxDepth
  | .gasLimit _ => .gasLimit
  | .logLevel _ => .logLevel
  | .endpoint _ => .endpoint
  | .json => .json

/-- The natural number below a bound that a text stands for; zero may have a minus sign. -/
def natBelow? (bound : Nat) (text : String) : Option Nat :=
  (Decimal.readInt? text).bind fun n => if 0 ≤ n ∧ n < bound then some n.toNat else none

/-- A number without a minus sign. -/
def word64? (text : String) : Option UInt64 :=
  if text.toList.head? = some '-' then none else (natBelow? UInt64.size text).map Nat.toUInt64

/-- A threshold by the name of its level, or the word for none at all. -/
def threshold? (text : String) : Option (Option Journal.Level) :=
  if text = "off" then some none else (Journal.Level.ofName? text).map some

/-- The setting of an option that takes a value. -/
def ofValue? (text : String) : Flag → Option Setting
  | .maxLength => (word64? text).map .maxLength
  | .maxDepth => (natBelow? UInt32.size text).map fun n => .maxDepth n.toUInt32
  | .gasLimit => (word64? text).map .gasLimit
  | .logLevel => (threshold? text).map .logLevel
  | .endpoint => (Service.Endpoint.ofName? text).map .endpoint
  | .json => none
  | .help => none

/-- The limits that settings make, the last one of each option. -/
def limits (settings : List Setting) : LimitOptions :=
  settings.foldl (fun l s =>
    match s with
    | .maxLength n => { l with maxLength := n }
    | .maxDepth n => { l with maxDepth := n }
    | .gasLimit n => { l with gasLimit := n }
    | _ => l) .standard

def threshold (settings : List Setting) : Option Journal.Level :=
  settings.foldl (fun t s =>
    match s with
    | .logLevel u => u
    | _ => t) (some .warn)

def chosenEndpoint (settings : List Setting) : Service.Endpoint :=
  settings.foldl (fun e s =>
    match s with
    | .endpoint f => f
    | _ => e) .evaluate

end Setting

/-- Why a command line cannot be run. -/
inductive Misuse where
  | missingCommand
  | missingExpression
  | missingValue (flag : Flag)
  | invalidValue (flag : Flag) (value : String)
  | needlessValue (flag : Flag) (value : String)
  | repeated (flag : Flag)
  | unexpected (argument : String)
  deriving Repr, DecidableEq

/-- Texts of this parser's own. -/
def Misuse.text : Misuse → String
  | .missingCommand => "a command is required"
  | .missingExpression => "an expression is required"
  | .missingValue flag => s!"a value is required for '--{flag.name}'"
  | .invalidValue flag value => s!"invalid value '{value}' for '--{flag.name}'"
  | .needlessValue flag value => s!"unexpected value '{value}' for '--{flag.name}'"
  | .repeated flag => s!"the argument '--{flag.name}' cannot be used multiple times"
  | .unexpected argument => s!"unexpected argument '{argument}'"

end Reckoner.CommandLine
