import Reckoner.Service
import Reckoner.Text.Quoted

/-! Records of what a calculator does, each with a level and the part of the program it comes from. -/
namespace Reckoner
namespace Journal

inductive Level where
  | error
  | warn
  | info
  | debug
  | trace
  deriving Repr, DecidableEq

namespace Level

def all : List Level := [.error, .warn, .info, .debug, .trace]

/-- Graver levels come first. -/
def rank : Level → Nat
  | .error => 1
  | .warn => 2
  | .info => 3
  | .debug => 4
  | .trace => 5

def name : Level → String
  | .error => "error"
  | .warn => "warn"
  | .info => "info"
  | .debug => "debug"
  | .trace => "trace"

def text (l : Level) : String := l.name.map Char.toUpper

def ofName? (name : String) : Option Level := all.find? fun l => l.name = name

end Level

structure Record where
  level : Level
  target : String
  text : String
  deriving Repr, DecidableEq

def Record.line (r : Record) : String := s!"[{r.level.text} {r.target}] {r.text}"

/-- The records at a level or a graver one; without a level there are none. -/
def visible (threshold : Option Level) (records : List Record) : List Record :=
  records.filter fun r => threshold.any fun l => r.level.rank ≤ l.rank

def evaluation (level : Level) (text : String) : Record := ⟨level, "calc_eval", text⟩

def service (level : Level) (text : String) : Record := ⟨level, "calc_service::api", text⟩

/-- Several names were rejected, of which the diagnostic tells only the first. -/
def rejectedNames (names : List String) : Record :=
  let list := String.intercalate ", " names
  ⟨.debug, "calc_eval::validate", s!"{names.length} names outside the whitelist: {list}"⟩

/-- The records of an evaluation: its gas if there is a value, or the names if several are rejected. -/
def ofEvaluation (limits : Limits) (source : String) : List Record :=
  match Calculation.read limits source with
  | .error _ => []
  | .ok e =>
    let names := (Whitelist.rejected e).map Identifier.name
    if 1 < names.length then [rejectedNames names]
    else
      match Calculation.result limits source with
      | .error _ => []
      | .ok result => [evaluation .trace s!"evaluated {Text.quoted source} in {result.gas} steps"]

def ofCalculation (limits : Limits) (text : String) : List Record :=
  let source := Glyph.normalize text
  if source.isEmpty then [] else ofEvaluation limits source

/-- The records of a calculation that is shown, with the failure if there is one. -/
def ofDisplay (limits : Limits) (text : String) : List Record :=
  ofCalculation limits text ++
    match Calculation.calculate limits text with
    | .ok _ => []
    | .error failure => [evaluation .debug s!"rejected {Text.quoted text}: {failure.text}"]

def ofAction (limits : Limits) (request : ActionRequest) : List Record :=
  match request.action.bind Action.ofName? with
  | none => [service .warn s!"invalid action {Text.quotedOption request.action}"]
  | some action =>
    service .debug s!"dispatching {action.name}" ::
      if action = .calculate then ofDisplay limits request.expression else []

def ofEvaluate (limits : Limits) (request : EvaluateRequest) : List Record :=
  service .debug s!"evaluating {Text.quoted request.expression}" :: ofDisplay limits request.expression

/-- The records of the answer to a raw body. -/
def ofAnswer [Serialization] (limits : Limits) (endpoint : Service.Endpoint) (body : String) : List Record :=
  match endpoint with
  | .action =>
    match Wire.read? body with
    | some request => ofAction limits request
    | none => [service .warn "rejected action request: "]
  | .evaluate =>
    match Wire.read? body with
    | some request => ofEvaluate limits request
    | none => [service .warn "rejected evaluate request: "]

end Journal
end Reckoner
