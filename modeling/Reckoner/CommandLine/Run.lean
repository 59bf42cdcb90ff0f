import Reckoner.CommandLine.Invocation
import Reckoner.Text.Lines

/-! What a run of the program leaves behind: its status, its output and its diagnostics. -/
namespace Reckoner.CommandLine

structure Outcome where
  status : Nat
  output : String
  diagnostics : List String
  deriving Repr, DecidableEq

/-- The reason why there is no value, in full. -/
def failureRecord (failure : Diagnostic) : Journal.Record := ⟨.info, "calc", failure.text⟩

/-- The display of an expression, alone or as the answer of the evaluating endpoint. -/
def shown [Serialization] (json : Bool) (display : String) : Except String String :=
  if json then Wire.text (EvaluateResponse.ofResult display) else .ok display

def line (text : String) : String := text ++ "\n"

/-- An expression is evaluated and its display is written, also if it is that of a failure. -/
def evaluate [Serialization] (limits : Limits) (threshold : Option Journal.Level) (expression : String)
    (json : Bool) : Outcome :=
  let (display, status, records) := match Calculation.calculate limits expression with
    | .ok display => (display, 0, [])
    | .error failure => (failure.display, 1, [failureRecord failure])
  let diagnostics :=
    (Journal.visible threshold (Journal.ofCalculation limits expression ++ records)).map Journal.Record.line
  match shown json display with
  | .ok text => ⟨status, line text, diagnostics⟩
  | .error reason => ⟨1, "", diagnostics ++ [s!"Error: {reason}"]⟩

/-- A line that cannot be read, by its number. -/
def unreadable (number : Nat) : List String :=
  [s!"Error: read request line {number}", "", "Caused by:", "    stream did not contain valid UTF-8"]

def isBlank (text : String) : Bool := text.toList.all Text.isSpace

/-- Each line that is not blank is a request, answered by a line. The service ends with the lines, or
at a line that is no text; `first` is the number of the first line. -/
def serve [Serialization] (limits : Limits) (threshold : Option Journal.Level) (endpoint : Service.Endpoint) (first : Nat)
    (lines : List (List UInt8)) : Outcome :=
  let (texts, broken) := Text.ofLines lines
  let requests := texts.filter fun text => !isBlank text
  let records := requests.flatMap (Journal.ofAnswer limits endpoint)
  { status := if broken then 1 else 0
    output := String.join (requests.map fun body => line (Service.answer limits endpoint body))
    diagnostics := (Journal.visible threshold records).map Journal.Record.line ++
      if broken then unreadable (first + texts.length) else [] }

/-- A text of this parser's own. -/
def usage : String :=
  "Usage: calc [OPTIONS] eval <EXPRESSION> [--json]\n" ++
  "       calc [OPTIONS] serve [--endpoint <action|evaluate>]\n" ++
  "\n" ++
  "Options:\n" ++
  "  --max-length <N>     longest accepted expression, in characters\n" ++
  "  --max-depth <N>      deepest accepted nesting of parentheses, signs and powers\n" ++
  "  --gas-limit <N>      evaluation steps allowed per expression\n" ++
  "  --log-level <LEVEL>  off, error, warn, info, debug or trace\n" ++
  "  -h, --help           print this text\n"

def Stop.outcome : Stop → Outcome
  | .help => ⟨0, usage, []⟩
  | .misuse m => ⟨2, "", [s!"error: {m.text}"]⟩

def Invocation.run [Serialization] (i : Invocation) (input : List UInt8) : Outcome :=
  match i.command with
  | .eval expression json => evaluate i.limits.limits i.threshold expression json
  | .serve endpoint => serve i.limits.limits i.threshold endpoint 1 (Text.lines input)

/-- What arguments ask for, or what they leave behind where they ask for nothing. -/
def Invocation.parse (arguments : List String) : Except Outcome Invocation :=
  (Invocation.ofArguments arguments).mapError Stop.outcome

/-- A run on the arguments after the program's name, as `parse` understands them, and on the bytes of the input. -/
def runWith [Serialization] (parse : List String → Except Outcome Invocation) (arguments : List String)
    (input : List UInt8) : Outcome :=
  match parse arguments with
  | .ok i => i.run input
  | .error outcome => outcome

def run [Serialization] : List String → List UInt8 → Outcome := runWith Invocation.parse

end Reckoner.CommandLine
