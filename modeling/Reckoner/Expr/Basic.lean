import Reckoner.Span

/-! Expressions of calculator arithmetic; every node knows its place in the text. -/
namespace Reckoner

inductive BinaryOp where
  | add
  | sub
  | mul
  /-- True division, written `/`. -/
  | div
  /-- Division rounded down, written `//`. -/
  | floorDiv
  /-- The remainder of `//`, written `%`. -/
  | mod
  /-- The power, written `**` or `^`. -/
  | pow
  deriving Repr, DecidableEq

def BinaryOp.text : BinaryOp → String
  | .add => "+"
  | .sub => "-"
  | .mul => "*"
  | .div => "/"
  | .floorDiv => "//"
  | .mod => "%"
  | .pow => "**"

inductive Sign where
  | negative
  | positive
  deriving Repr, DecidableEq

def Sign.text : Sign → String
  | .negative => "-"
  | .positive => "+"

inductive Expr where
  | int (value : Int) (span : Span)
  | float (value : Float) (span : Span)
  | name (text : String) (span : Span)
  | call (callee : String) (calleeSpan : Span) (args : List Expr) (span : Span)
  | binary (op : BinaryOp) (left right : Expr) (span : Span)
  | signed (sign : Sign) (operand : Expr) (span : Span)
  | paren (inner : Expr) (span : Span)
  deriving Inhabited

namespace Expr

def span : Expr → Span
  | .int _ s => s
  | .float _ s => s
  | .name _ s => s
  | .call _ _ _ s => s
  | .binary _ _ _ s => s
  | .signed _ _ s => s
  | .paren _ s => s

/-- Two operands joined; the span reaches from the one to the other. -/
def join (left : Expr) (op : BinaryOp) (right : Expr) : Expr :=
  .binary op left right (left.span.merge right.span)

end Expr
end Reckoner
