import Reckoner.Expr.Grammar

/-! The grammar as recursive descent, call by call: a machine with a position among the tokens, two counters of 32
bits, and the stack of the calls that wait for others. Its loops go on as long as they find operators or commas, even
where no token is left to pass. A state without a next one is final, or it is a fault: a counter that would leave its
bits, or a token that is looked for outside of the sequence. -/
namespace Reckoner

/-- The tokens of a run, and the limit of its nesting. -/
structure Descent where
  tokens : List Token
  maxDepth : UInt32

namespace Descent

/-- The operators that group to the left, by their strength. -/
inductive Strength where
  | sum
  | product
  deriving DecidableEq

inductive Routine where
  | expression
  | operands (strength : Strength)
  | unary
  | power
  | call
  | arguments
  | primary
  deriving DecidableEq

def Strength.op? : Strength → Lexeme → Option BinaryOp
  | .sum => Grammar.sumOp?
  | .product => Grammar.productOp?

/-- What reads the operands of an operator. -/
def Strength.operand : Strength → Routine
  | .sum => .operands .product
  | .product => .unary

/-- A call that waits for another one, with what it keeps until then. -/
inductive Frame where
  | expression
  | operand (strength : Strength) (left : Option (Expr × BinaryOp))
  | unsigned
  | signed (sign : Sign) (start : Span)
  | base
  | exponent (base : Expr) (op : BinaryOp)
  | uncalled
  | arguments (callee : String) (place : Span)
  /-- The arguments before this one, last first. -/
  | argument (found : List Expr)
  | paren (start : Span)

/-- The routine that a call is waited for with. -/
def Frame.awaited : Frame → Routine
  | .expression => .operands .sum
  | .operand strength _ => strength.operand
  | .unsigned => .power
  | .signed _ _ => .unary
  | .base => .call
  | .exponent _ _ => .unary
  | .uncalled => .primary
  | .arguments _ _ => .arguments
  | .argument _ => .expression
  | .paren _ => .expression

/-- Whether a call has gone a level further down. -/
def Frame.enters : Frame → Bool
  | .expression | .signed _ _ | .exponent _ _ => true
  | _ => false

/-- Whether a call has passed an opening parenthesis. -/
def Frame.opens : Frame → Bool
  | .arguments _ _ | .paren _ => true
  | _ => false

inductive Control where
  /-- A routine starts. -/
  | run (routine : Routine)
  /-- A routine is back with an expression, -/
  | done (e : Expr)
  /-- with arguments, -/
  | listed (es : List Expr)
  /-- or with a failure. -/
  | failed (reason : Diagnostic)

structure State where
  position : Nat
  /-- The levels that were entered and not left. -/
  depth : UInt32
  /-- The parentheses that were opened and not closed. -/
  opened : UInt32
  frames : List Frame
  control : Control

namespace State

def start : State := ⟨0, 0, 0, [], .run .expression⟩

/-- A call waits for another one. -/
def call (s : State) (f : Frame) : State := { s with frames := f :: s.frames, control := .run f.awaited }

def give (s : State) (e : Expr) : State := { s with control := .done e }

def giveAll (s : State) (es : List Expr) : State := { s with control := .listed es }

def fail (s : State) (reason : Diagnostic) : State := { s with control := .failed reason }

end State

/-- One more, as far as 32 bits reach. -/
def increment? (n : UInt32) : Option UInt32 := if n = 0xFFFFFFFF then none else some (n + 1)

/-- One less, where there is one: a count that would stop at zero is one count too many. -/
def decrement? (n : UInt32) : Option UInt32 := if n = 0 then none else some (n - 1)

variable (d : Descent) (s : State)

/-- The current token; past the last one it is the last one again, if there is any. -/
def token : Token := d.tokens[s.position]?.getD (d.tokens.getLast?.getD ⟨.endOfInput, .point 0⟩)

def lexeme : Lexeme := (d.token s).lexeme

def span : Span := (d.token s).span

/-- The lexeme after the current one, which is not repeated past the end. -/
def second : Lexeme := (d.tokens[s.position + 1]?.map Token.lexeme).getD .endOfInput

/-- Past the current token, unless all are passed. -/
def advance : State := if s.position < d.tokens.length then { s with position := s.position + 1 } else s

/-- The place of the token that was passed last. -/
def previous? : Option Span := if 0 < s.position then d.tokens[s.position - 1]?.map Token.span else some (.point 0)

/-- The failure at a token that the grammar does not admit. -/
def unexpected (context : String) : State :=
  s.fail (Grammar.unexpected context s.opened.toNat ⟨[], d.token s⟩)

/-- A call a level further down, if there is one. -/
def enter? (f : Frame) : Option State := do
  let depth ← increment? s.depth
  let below := { s with depth }
  if d.maxDepth < depth then
    return below.fail (.malformed .nestingLimitExceeded s!"maximum nesting depth is {d.maxDepth.toNat}" (d.span s))
  else return below.call f

/-- Back from a level. -/
def leave? : Option State := do
  let depth ← decrement? s.depth
  return { s with depth }

/-- A call behind an opening parenthesis. -/
def open? (f : Frame) : Option State := do
  let opened ← increment? s.opened
  return { s with opened }.call f

/-- Past a closing parenthesis, the place of which ends the expression. -/
def close? (make : Span → Expr) : Option State :=
  match d.lexeme s with
  | .rightParen => do
    let after := d.advance s
    let opened ← decrement? after.opened
    let last ← d.previous? after
    return { after with opened }.give (make last)
  | _ => some (d.unexpected s "expected ')'")

/-- What a routine does up to its first call or to its end. -/
def begin? : Routine → Option State
  | .expression => d.enter? s .expression
  | .operands strength => some (s.call (.operand strength none))
  | .unary =>
    match Grammar.sign? (d.lexeme s) with
    | none => some (s.call .unsigned)
    | some sign => d.enter? (d.advance s) (.signed sign (d.span s))
  | .power => some (s.call .base)
  | .call =>
    match d.lexeme s, d.second s with
    | .name callee, .leftParen => open? (d.advance (d.advance s)) (.arguments callee (d.span s))
    | _, _ => some (s.call .uncalled)
  | .arguments =>
    match d.lexeme s with
    | .rightParen => some (s.giveAll [])
    | _ => some (s.call (.argument []))
  | .primary =>
    match d.lexeme s with
    | .int n => some ((d.advance s).give (.int n (d.span s)))
    | .float x => some ((d.advance s).give (.float x (d.span s)))
    | .name text => some ((d.advance s).give (.name text (d.span s)))
    | .leftParen => open? (d.advance s) (.paren (d.span s))
    | .leftBracket => some (s.fail (.disallowed "list display" (d.span s)))
    | _ => some (d.unexpected s "expected an expression")

/-- An operand joined with what stands to its left. -/
def joined (e : Expr) : Option (Expr × BinaryOp) → Expr
  | none => e
  | some (left, op) => left.join op e

/-- How a call goes on with the expression that it has waited for. -/
def resume? (e : Expr) : Frame → Option State
  | .expression => (leave? s).map (·.give e)
  | .operand strength left =>
    match strength.op? (d.lexeme s) with
    | none => some (s.give (joined e left))
    | some op => some ((d.advance s).call (.operand strength (some (joined e left, op))))
  | .unsigned => some (s.give e)
  | .signed sign start => (leave? s).map (·.give (.signed sign e (start.merge e.span)))
  | .base =>
    match Grammar.powerOp? (d.lexeme s) with
    | none => some (s.give e)
    | some op => d.enter? (d.advance s) (.exponent e op)
  | .exponent base op => (leave? s).map (·.give (base.join op e))
  | .uncalled => some (s.give e)
  | .arguments _ _ => none
  | .argument found =>
    match d.lexeme s with
    | .equals => some (s.fail (.disallowed "keyword argument" (d.span s)))
    | .comma =>
      match d.lexeme (d.advance s) with
      | .rightParen => some ((d.advance s).giveAll (e :: found).reverse)
      | _ => some ((d.advance s).call (.argument (e :: found)))
    | _ => some (s.giveAll (e :: found).reverse)
  | .paren start =>
    match d.lexeme s with
    | .comma => some (s.fail (.disallowed "tuple" (d.span s)))
    | _ => d.close? s fun last => .paren e (start.merge last)

/-- A failure leaves the levels that its calls have entered. -/
def unwind? (f : Frame) : Option State := if f.enters then leave? s else some s

def step? : Option State :=
  match s.control, s.frames with
  | .run routine, _ => d.begin? s routine
  | .done e, f :: frames => d.resume? { s with frames } e f
  | .listed es, .arguments callee place :: frames =>
    d.close? { s with frames } fun last => .call callee place es (place.merge last)
  | .failed _, f :: frames => unwind? { s with frames } f
  | _, _ => none

/-- The result of a run, where no call is left. -/
def result? : Option (Except Diagnostic Expr) :=
  match s.control, s.frames with
  | .done e, [] =>
    match d.lexeme s with
    | .endOfInput => some (.ok e)
    | .comma => some (.error (.disallowed "tuple" (d.span s)))
    | .rightParen => some (.error (.malformed .unexpectedToken "unmatched ')'" (d.span s)))
    | _ => some (.error (Grammar.unexpected "expected an operator or end of input" s.opened.toNat ⟨[], d.token s⟩))
  | .failed reason, [] => some (.error reason)
  | _, _ => none

end Descent
end Reckoner
