import Reckoner.Token.Basic
import Reckoner.Expr.Basic
import Reckoner.Diagnostic

/-! Expressions of a token sequence. From the loosest to the tightest binding:
sums, products, signs, powers, calls, and the primaries (literals, names, parentheses). Nesting is
limited: each level of signs, exponents, parentheses and arguments is read by the rules of the level
above it, and the last level reads nothing. -/
namespace Reckoner

/-- The tokens not yet read; past their end the `final` one is seen over and over. -/
structure Cursor where
  ahead : List Token
  final : Token
  deriving Inhabited

namespace Cursor

/-- A sequence without tokens is at the end of input. -/
def ofTokens (tokens : List Token) : Cursor := ⟨tokens, tokens.getLast?.getD ⟨.endOfInput, .point 0⟩⟩

def token (c : Cursor) : Token := c.ahead.head?.getD c.final

def lexeme (c : Cursor) : Lexeme := c.token.lexeme

def span (c : Cursor) : Span := c.token.span

def next (c : Cursor) : Cursor := { c with ahead := c.ahead.tail }

/-- The lexeme after the current one, which is not repeated past the end. -/
def second (c : Cursor) : Lexeme := (c.ahead.tail.head?.map Token.lexeme).getD .endOfInput

end Cursor

namespace Grammar

/-- What a grammar rule reads at a cursor with a number of parentheses open before it. -/
abbrev Rule (α : Type) := Nat → Cursor → Except Diagnostic (α × Cursor)

/-- The construct that a lexeme which is no arithmetic belongs to. -/
def construct? : Lexeme → Option String
  | .reserved word => some s!"keyword '{word}'"
  | .equals => some "assignment"
  | .dot => some "attribute access"
  | .leftBracket | .rightBracket => some "subscript"
  | .leftBrace | .rightBrace => some "set or dict display"
  | .semicolon => some "statement separator"
  | .colon => some "annotation or slice"
  | _ => none

/-- The failure at a token that the grammar does not admit. -/
def unexpected (context : String) (opened : Nat) (c : Cursor) : Diagnostic :=
  match construct? c.lexeme with
  | some construct => .disallowed construct c.span
  | none =>
    match c.lexeme with
    | .endOfInput =>
      if 0 < opened then .malformed .unclosedParen s!"{context}, but the input ended with an open '('" c.span
      else .malformed .unexpectedEnd s!"{context}, got end of input" c.span
    | other => .malformed .unexpectedToken s!"{context}, got '{other.text}'" c.span

def sumOp? : Lexeme → Option BinaryOp
  | .plus => some .add
  | .minus => some .sub
  | _ => none

def productOp? : Lexeme → Option BinaryOp
  | .star => some .mul
  | .slash => some .div
  | .slashSlash => some .floorDiv
  | .percent => some .mod
  | _ => none

def powerOp? : Lexeme → Option BinaryOp
  | .starStar | .caret => some .pow
  | _ => none

def sign? : Lexeme → Option Sign
  | .minus => some .negative
  | .plus => some .positive
  | _ => none

/-- The closing parenthesis, and what follows it. -/
def closing : Rule Token := fun opened c =>
  match c.lexeme with
  | .rightParen => .ok (c.token, c.next)
  | _ => .error (unexpected "expected ')'" opened c)

/-- Operators and operands after a left operand, grouped to the left. -/
def chain (op? : Lexeme → Option BinaryOp) (operand : Rule Expr) (opened : Nat) (left : Expr)
    (c : Cursor) : Except Diagnostic (Expr × Cursor) :=
  match op? c.lexeme with
  | none => .ok (left, c)
  | some op =>
    match operand opened c.next with
    | .error e => .error e
    | .ok (right, rest) =>
      if rest.ahead.length < c.ahead.length then chain op? operand opened (left.join op right) rest
      else .ok (left.join op right, rest)
termination_by c.ahead.length

/-- Operands with operators of one strength between them. -/
def leftAssociative (op? : Lexeme → Option BinaryOp) (operand : Rule Expr) : Rule Expr := fun opened c => do
  let (first, rest) ← operand opened c
  chain op? operand opened first rest

def product (operand : Rule Expr) : Rule Expr := leftAssociative productOp? operand

def sum (operand : Rule Expr) : Rule Expr := leftAssociative sumOp? (product operand)

/-- The arguments before a closing parenthesis; a comma may follow the last one. -/
def arguments (item : Rule Expr) (opened : Nat) (c : Cursor) : Except Diagnostic (List Expr × Cursor) :=
  match c.lexeme with
  | .rightParen => .ok ([], c)
  | _ =>
    match item opened c with
    | .error e => .error e
    | .ok (first, rest) =>
      match rest.lexeme with
      | .equals => .error (.disallowed "keyword argument" rest.span)
      | .comma =>
        if rest.next.ahead.length < c.ahead.length then
          match arguments item opened rest.next with
          | .error e => .error e
          | .ok (others, after) => .ok (first :: others, after)
        else .ok ([first], rest.next)
      | _ => .ok ([first], rest)
termination_by c.ahead.length

/-- Literals, names and parentheses; `nested` reads one level further down. -/
def primary (nested : Rule Expr) : Rule Expr := fun opened c =>
  match c.lexeme with
  | .int n => .ok (.int n c.span, c.next)
  | .float x => .ok (.float x c.span, c.next)
  | .name text => .ok (.name text c.span, c.next)
  | .leftParen => do
    let (inner, rest) ← sum nested (opened + 1) c.next
    match rest.lexeme with
    | .comma => .error (.disallowed "tuple" rest.span)
    | _ =>
      let (close, after) ← closing (opened + 1) rest
      return (.paren inner (c.span.merge close.span), after)
  | .leftBracket => .error (.disallowed "list display" c.span)
  | _ => .error (unexpected "expected an expression" opened c)

/-- A name before an opening parenthesis is called; anything else is a primary. -/
def call (nested : Rule Expr) : Rule Expr := fun opened c =>
  match c.lexeme, c.second with
  | .name callee, .leftParen => do
    let (args, rest) ← arguments (sum nested) (opened + 1) c.next.next
    let (close, after) ← closing (opened + 1) rest
    return (.call callee c.span args (c.span.merge close.span), after)
  | _, _ => primary nested opened c

/-- The exponent is read a level further down, so powers group to the right. -/
def power (nested : Rule Expr) : Rule Expr := fun opened c => do
  let (base, rest) ← call nested opened c
  match powerOp? rest.lexeme with
  | none => return (base, rest)
  | some op =>
    let (exponent, after) ← nested opened rest.next
    return (base.join op exponent, after)

/-- A sign binds looser than a power on its right and tighter than a product. -/
def unary (nested : Rule Expr) : Rule Expr := fun opened c =>
  match sign? c.lexeme with
  | none => power nested opened c
  | some sign => do
    let (operand, rest) ← nested opened c.next
    return (.signed sign operand (c.span.merge operand.span), rest)

def tooDeep (maxDepth : Nat) : Rule Expr := fun _ c =>
  .error (.malformed .nestingLimitExceeded s!"maximum nesting depth is {maxDepth}" c.span)

/-- The operands of products with a number of levels left. -/
def level (maxDepth : Nat) : Nat → Rule Expr
  | 0, opened, c => tooDeep maxDepth opened c
  | levels + 1, opened, c => unary (fun o d => level maxDepth levels o d) opened c

end Grammar

/-- The expression that a whole token sequence stands for. -/
def Expr.ofTokens (maxDepth : UInt32) (tokens : List Token) : Except Diagnostic Expr := do
  let (e, rest) ← Grammar.sum (Grammar.level maxDepth.toNat maxDepth.toNat) 0 (Cursor.ofTokens tokens)
  match rest.lexeme with
  | .endOfInput => return e
  | .comma => throw (.disallowed "tuple" rest.span)
  | .rightParen => throw (.malformed .unexpectedToken "unmatched ')'" rest.span)
  | _ => throw (Grammar.unexpected "expected an operator or end of input" 0 rest)

end Reckoner
