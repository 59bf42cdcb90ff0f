import Reckoner.Expr.Basic
import Mathlib.Tactic.Common

/-! How deep and how large expressions are. -/
namespace Reckoner.Expr

mutual

/-- The levels below the outermost one: signs, exponents, parentheses and arguments take one each. -/
def nesting : Expr → Nat
  | .int _ _ => 0
  | .float _ _ => 0
  | .name _ _ => 0
  | .call _ _ args _ => nestingOfAll args
  | .binary op left right _ =>
    max (nesting left) (if op = .pow then 1 + nesting right else nesting right)
  | .signed _ operand _ => 1 + nesting operand
  | .paren inner _ => 1 + nesting inner

def nestingOfAll : List Expr → Nat
  | [] => 0
  | e :: es => max (1 + nesting e) (nestingOfAll es)

end

mutual

/-- The nodes of the tree. -/
def nodes : Expr → Nat
  | .int _ _ => 1
  | .float _ _ => 1
  | .name _ _ => 1
  | .call _ _ args _ => 1 + nodesOfAll args
  | .binary _ left right _ => 1 + nodes left + nodes right
  | .signed _ operand _ => 1 + nodes operand
  | .paren inner _ => 1 + nodes inner

def nodesOfAll : List Expr → Nat
  | [] => 0
  | e :: es => nodes e + nodesOfAll es

end

/-- The levels that are entered to read an expression. -/
def depth (e : Expr) : Nat := 1 + e.nesting

@[simp] theorem nesting_join (l r : Expr) (op : BinaryOp) :
    (l.join op r).nesting = max l.nesting (if op = .pow then 1 + r.nesting else r.nesting) := by
  simp [join, nesting]

theorem nestingOfAll_le_iff (es : List Expr) (n : Nat) :
    nestingOfAll es ≤ n ↔ ∀ e ∈ es, e.nesting < n := by
  induction es with
  | nil => simp [nestingOfAll]
  | cons e es ih =>
    simp only [nestingOfAll, List.forall_mem_cons, ← ih]
    omega

theorem nodes_le_nodesOfAll {e : Expr} {es : List Expr} (h : e ∈ es) : e.nodes ≤ nodesOfAll es := by
  induction es with
  | nil => cases h
  | cons first es ih =>
    rw [nodesOfAll]
    obtain rfl | h := List.mem_cons.mp h
    · exact Nat.le_add_right _ _
    · exact Nat.le_trans (ih h) (Nat.le_add_left _ _)

end Reckoner.Expr
