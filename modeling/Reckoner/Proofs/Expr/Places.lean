import Reckoner.Proofs.Expr.Parts
import Reckoner.Proofs.Expr.Size
import Reckoner.Proofs.Token.Places

/-! The places of expressions: counted from another byte, and those directly inside an expression. -/
namespace Reckoner.Expr

variable {k : UInt32}

/-- The spans directly inside an expression in the order of the text, that of a callee included. -/
def childSpans : Expr → List Span
  | .int _ _ => []
  | .float _ _ => []
  | .name _ _ => []
  | .call _ calleeSpan args _ => calleeSpan :: args.map span
  | .binary _ left right _ => [left.span, right.span]
  | .signed _ operand _ => [operand.span]
  | .paren inner _ => [inner.span]

mutual

/-- The same expression with all its places counted from byte `k`. -/
def relativeTo (k : UInt32) : Expr → Expr
  | .int n span => .int n (span.relativeTo k)
  | .float x span => .float x (span.relativeTo k)
  | .name text span => .name text (span.relativeTo k)
  | .call callee calleeSpan args span =>
    .call callee (calleeSpan.relativeTo k) (relativeToAll k args) (span.relativeTo k)
  | .binary op left right span => .binary op (relativeTo k left) (relativeTo k right) (span.relativeTo k)
  | .signed sign operand span => .signed sign (relativeTo k operand) (span.relativeTo k)
  | .paren inner span => .paren (relativeTo k inner) (span.relativeTo k)

def relativeToAll (k : UInt32) : List Expr → List Expr
  | [] => []
  | e :: es => relativeTo k e :: relativeToAll k es

end

theorem relativeToAll_eq (k : UInt32) (es : List Expr) : relativeToAll k es = es.map (relativeTo k) := by
  induction es with
  | nil => rfl
  | cons e es ih => rw [relativeToAll, ih, List.map_cons]

@[simp] theorem span_relativeTo (k : UInt32) (e : Expr) : (e.relativeTo k).span = e.span.relativeTo k := by
  cases e <;> rfl

theorem join_relativeTo {l r : Expr} (hl : l.span.NotBefore k) (hr : r.span.NotBefore k) (op : BinaryOp) :
    (l.relativeTo k).join op (r.relativeTo k) = (l.join op r).relativeTo k := by
  simp only [join, relativeTo, span_relativeTo, Span.merge_relativeTo hl hr]

mutual

theorem nesting_relativeTo (k : UInt32) : ∀ e : Expr, (e.relativeTo k).nesting = e.nesting
  | .int _ _ | .float _ _ | .name _ _ => rfl
  | .call _ _ args _ => nestingOfAll_relativeToAll k args
  | .binary _ left right _ => by
    simp only [relativeTo, nesting, nesting_relativeTo k left, nesting_relativeTo k right]
  | .signed _ operand _ => by simp only [relativeTo, nesting, nesting_relativeTo k operand]
  | .paren inner _ => by simp only [relativeTo, nesting, nesting_relativeTo k inner]

theorem nestingOfAll_relativeToAll (k : UInt32) : ∀ es : List Expr,
    nestingOfAll (relativeToAll k es) = nestingOfAll es
  | [] => rfl
  | e :: es => by
    simp only [relativeToAll, nestingOfAll, nesting_relativeTo k e, nestingOfAll_relativeToAll k es]

end

variable {q : Expr}

mutual

/-- A part is no deeper than the whole. -/
theorem nesting_le_of_mem_parts : ∀ e : Expr, q ∈ e.parts → q.nesting ≤ e.nesting
  | .int _ _, h | .float _ _, h | .name _ _, h => by
    cases List.mem_singleton.mp h
    exact Nat.le_refl _
  | .call _ _ args _, h => by
    obtain rfl | h := List.mem_cons.mp h
    · exact Nat.le_refl _
    · exact nesting_le_of_mem_partsOfAll args h
  | .binary op left right _, h => by
    obtain rfl | h := List.mem_cons.mp h
    · exact Nat.le_refl _
    rw [nesting]
    obtain h | h := List.mem_append.mp h
    · exact le_max_of_le_left (nesting_le_of_mem_parts left h)
    · have := nesting_le_of_mem_parts right h
      split <;> omega
  | .signed _ operand _, h => by
    obtain rfl | h := List.mem_cons.mp h
    · exact Nat.le_refl _
    · exact Nat.le_add_left_of_le (nesting_le_of_mem_parts operand h)
  | .paren inner _, h => by
    obtain rfl | h := List.mem_cons.mp h
    · exact Nat.le_refl _
    · exact Nat.le_add_left_of_le (nesting_le_of_mem_parts inner h)

theorem nesting_le_of_mem_partsOfAll : ∀ es : List Expr, q ∈ partsOfAll es → q.nesting ≤ nestingOfAll es
  | [], h => by cases h
  | e :: es, h => by
    rw [nestingOfAll]
    obtain h | h := List.mem_append.mp h
    · have := nesting_le_of_mem_parts e h
      omega
    · exact le_max_of_le_right (nesting_le_of_mem_partsOfAll es h)

end

end Reckoner.Expr
