import Reckoner.CommandLine.Options

/-! What a command line asks for. Arguments are read from left to right, and the first fault or call for
help is the answer. A value that stands apart from its option is looked at only when the next option or
operand comes, or when the arguments end. -/
namespace Reckoner.CommandLine

/-- What an argument looks like. -/
inductive Shape where
  | long (name : String) (value : Option String)
  | short (first : Char) (others : List Char)
  | plain
  deriving Repr, DecidableEq

/-- A single minus sign is plain. -/
def Shape.ofArgument (argument : String) : Shape :=
  match argument.toList with
  | '-' :: '-' :: body =>
    let name := String.ofList (body.takeWhile (· ≠ '='))
    match body.dropWhile (· ≠ '=') with
    | [] => .long name none
    | _ :: value => .long name (some (String.ofList value))
  | '-' :: c :: others => .short c others
  | _ => .plain

inductive Command where
  | eval (expression : String) (json : Bool)
  | serve (endpoint : Service.Endpoint)
  deriving Repr, DecidableEq

/-- Why nothing is computed. -/
inductive Stop where
  | help
  | misuse (m : Misuse)
  deriving Repr, DecidableEq

/-- What the arguments of one place have told so far. -/
structure Progress where
  /-- The settings, each option at most once. -/
  settings : List Setting := []
  /-- The last option, if its value stands apart, and that value as soon as it is there. -/
  apart : Option (Flag × Option String) := none
  expression : Option String := none
  deriving Repr, DecidableEq

namespace Progress

def set (p : Progress) (s : Setting) : Except Stop Progress :=
  if p.settings.any fun t => t.flag = s.flag then .error (.misuse (.repeated s.flag))
  else .ok { p with settings := p.settings ++ [s] }

def setValue (p : Progress) (flag : Flag) (value : String) : Except Stop Progress :=
  match Setting.ofValue? value flag with
  | some s => p.set s
  | none => .error (.misuse (.invalidValue flag value))

/-- No value is left apart. -/
def settle (p : Progress) : Except Stop Progress :=
  match p.apart with
  | none => .ok p
  | some (flag, none) => .error (.misuse (.missingValue flag))
  | some (flag, some value) => { p with apart := none }.setValue flag value

/-- The option whose value is to come. -/
def awaiting (p : Progress) : Option Flag :=
  match p.apart with
  | some (flag, none) => some flag
  | _ => none

/-- An option, with the value attached to it if there is one. -/
def takeFlag (p : Progress) (flag : Flag) (value : Option String) : Except Stop Progress :=
  match flag, value with
  | .help, none => do
    let _ ← p.settle
    throw .help
  | .json, none => do (← p.settle).set .json
  | .help, some v => .error (.misuse (.needlessValue .help v))
  | .json, some v => .error (.misuse (.needlessValue .json v))
  | flag, none => do return { ← p.settle with apart := some (flag, none) }
  | flag, some v => do (← p.settle).setValue flag v

/-- An argument that is neither option nor value: only one is expected, the expression. -/
def takeOperand (place : Place) (p : Progress) (argument : String) : Except Stop Progress := do
  let p ← p.settle
  if place = .eval ∧ p.expression = none then return { p with expression := some argument }
  else throw (.misuse (.unexpected argument))

def takePlain (place : Place) (p : Progress) (argument : String) : Except Stop Progress :=
  match p.awaiting with
  | some flag => .ok { p with apart := some (flag, some argument) }
  | none => takeOperand place p argument

/-- Whether an unknown option is a plain argument: an expression may start with a minus sign. -/
def expectsExpression (place : Place) (p : Progress) : Bool := place = .eval && p.expression.isNone

/-- One argument. Of the short options there is only that for help. -/
def take (place : Place) (p : Progress) (argument : String) : Except Stop Progress :=
  match Shape.ofArgument argument with
  | .plain => takePlain place p argument
  | .long name value =>
    match Flag.ofName? place name with
    | some flag => p.takeFlag flag value
    | none =>
      if expectsExpression place p then takePlain place p argument
      else .error (.misuse (.unexpected argument))
  | .short first others =>
    if expectsExpression place p ∧ (first :: others).any (· ≠ 'h') then takePlain place p argument
    else if first = 'h' then p.takeFlag .help none
    else .error (.misuse (.unexpected argument))

/-- The argument after which all others are operands. -/
def separator : String := "--"

/-- All arguments after the command. -/
def takeAll (place : Place) : Progress → List String → Except Stop Progress
  | p, [] => p.settle
  | p, argument :: rest =>
    if argument = separator then do (← rest.foldlM (takeOperand place) p).settle
    else do takeAll place (← p.take place argument) rest

def command (place : Place) (p : Progress) : Except Stop Command :=
  match place, p.expression with
  | .eval, some expression => .ok (.eval expression (p.settings.any fun s => s = .json))
  | .eval, none => .error (.misuse .missingExpression)
  | .serve, _ => .ok (.serve (Setting.chosenEndpoint p.settings))
  | .front, _ => .error (.misuse .missingCommand)

end Progress

structure Invocation where
  limits : LimitOptions
  threshold : Option Journal.Level
  command : Command
  deriving Repr, DecidableEq

namespace Invocation

def place? : String → Option Place
  | "eval" => some .eval
  | "serve" => some .serve
  | _ => none

def helpCommand : String := "help"

def isTopic (argument : String) : Bool := (place? argument).isSome || argument = helpCommand

/-- Help is asked for in general, for one of the commands, or for help itself. -/
def help : List String → Stop
  | [] => .help
  | topic :: rest =>
    if isTopic topic then rest.head?.elim .help fun extra => .misuse (.unexpected extra)
    else .misuse (.unexpected topic)

/-- Of two settings of one option, that after the command counts. -/
def ofProgress (place : Place) (front after : Progress) : Except Stop Invocation := do
  let settings := front.settings ++ after.settings
  return ⟨Setting.limits settings, Setting.threshold settings, ← after.command place⟩

/-- The arguments before the command, and the command. -/
def ofFront : Progress → List String → Except Stop Invocation
  | _, [] => .error (.misuse .missingCommand)
  | p, argument :: rest =>
    if p.awaiting.isNone ∧ argument = helpCommand then .error (help rest)
    else
      match if p.awaiting.isNone then place? argument else none with
      | some place => do
        let after ← Progress.takeAll place {} rest
        ofProgress place (← p.settle) after
      | none =>
        if argument = Progress.separator then .error (.misuse .missingCommand)
        else do ofFront (← p.take .front argument) rest

def ofArguments (arguments : List String) : Except Stop Invocation := ofFront {} arguments

end Invocation
end Reckoner.CommandLine
