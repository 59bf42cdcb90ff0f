import Reckoner.Expr.Basic

/-! The identifiers of an expression. -/
namespace Reckoner

structure Identifier where
  name : String
  span : Span
  deriving Repr, DecidableEq

namespace Expr

mutual

/-- The names in the order of the text, those of called functions included. -/
def identifiers : Expr → List Identifier
  | .int _ _ => []
  | .float _ _ => []
  | .name text span => [⟨text, span⟩]
  | .call callee span args _ => ⟨callee, span⟩ :: identifiersOfAll args
  | .binary _ left right _ => identifiers left ++ identifiers right
  | .signed _ operand _ => identifiers operand
  | .paren inner _ => identifiers inner

def identifiersOfAll : List Expr → List Identifier
  | [] => []
  | e :: es => identifiers e ++ identifiersOfAll es

end

end Expr
end Reckoner
