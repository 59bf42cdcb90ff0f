import Reckoner.Expr.Basic
import Reckoner.Function
import Mathlib.Tactic.Common

/-! The expressions in an expression. -/
namespace Reckoner.Expr

mutual

/-- An expression and all those in it. -/
def parts : Expr → List Expr
  | .int n span => [.int n span]
  | .float x span => [.float x span]
  | .name text span => [.name text span]
  | .call callee calleeSpan args span => .call callee calleeSpan args span :: partsOfAll args
  | .binary op left right span => .binary op left right span :: (parts left ++ parts right)
  | .signed sign operand span => .signed sign operand span :: parts operand
  | .paren inner span => .paren inner span :: parts inner

def partsOfAll : List Expr → List Expr
  | [] => []
  | e :: es => parts e ++ partsOfAll es

end

/-- Rounding to a given number of places. -/
def RoundsToPlaces : Expr → Prop
  | .call callee _ args _ => callee = Function.round.name ∧ args.length = 2
  | _ => False

/-- The value may be that of a rounding: signs, parentheses and functions hand on what they are given, operators
do not. -/
inductive PassesRounding : Expr → Prop
  | round {e} (h : e.RoundsToPlaces) : PassesRounding e
  | call {callee calleeSpan args span e} (he : e ∈ args) (h : PassesRounding e) :
      PassesRounding (.call callee calleeSpan args span)
  | signed {sign operand span} (h : PassesRounding operand) : PassesRounding (.signed sign operand span)
  | paren {inner span} (h : PassesRounding inner) : PassesRounding (.paren inner span)

theorem self_mem_parts (e : Expr) : e ∈ e.parts := by
  cases e <;> exact List.mem_cons_self

theorem partsOfAll_eq (es : List Expr) : partsOfAll es = es.flatMap parts := by
  induction es with
  | nil => rfl
  | cons e es ih => rw [partsOfAll, ih, List.flatMap_cons]

theorem mem_partsOfAll {es : List Expr} {e q : Expr} (he : e ∈ es) (hq : q ∈ e.parts) : q ∈ partsOfAll es := by
  rw [partsOfAll_eq]
  exact List.mem_flatMap.mpr ⟨e, he, hq⟩

theorem PassesRounding.exists_part {e : Expr} (h : e.PassesRounding) : ∃ q ∈ e.parts, q.RoundsToPlaces := by
  induction h with
  | @round e h => exact ⟨e, e.self_mem_parts, h⟩
  | call he _ ih =>
    obtain ⟨q, hq, hround⟩ := ih
    exact ⟨q, List.mem_cons_of_mem _ (mem_partsOfAll he hq), hround⟩
  | signed _ ih | paren _ ih =>
    obtain ⟨q, hq, hround⟩ := ih
    exact ⟨q, List.mem_cons_of_mem _ hq, hround⟩

variable {q : Expr}

mutual

/-- What is in a part is in the whole. -/
theorem parts_subset : ∀ e p, p ∈ parts e → q ∈ p.parts → q ∈ e.parts
  | .int _ _, p, h, hq | .float _ _, p, h, hq | .name _ _, p, h, hq => by
    cases List.mem_singleton.mp h
    exact hq
  | .call _ _ args _, p, h, hq => by
    obtain rfl | h := List.mem_cons.mp h
    · exact hq
    · exact List.mem_cons_of_mem _ (partsOfAll_subset args p h hq)
  | .binary _ left right _, p, h, hq => by
    obtain rfl | h := List.mem_cons.mp h
    · exact hq
    · apply List.mem_cons_of_mem
      obtain h | h := List.mem_append.mp h
      · exact List.mem_append_left _ (parts_subset left p h hq)
      · exact List.mem_append_right _ (parts_subset right p h hq)
  | .signed _ operand _, p, h, hq => by
    obtain rfl | h := List.mem_cons.mp h
    · exact hq
    · exact List.mem_cons_of_mem _ (parts_subset operand p h hq)
  | .paren inner _, p, h, hq => by
    obtain rfl | h := List.mem_cons.mp h
    · exact hq
    · exact List.mem_cons_of_mem _ (parts_subset inner p h hq)

theorem partsOfAll_subset : ∀ es p, p ∈ partsOfAll es → q ∈ p.parts → q ∈ partsOfAll es
  | [], _, h, _ => by cases h
  | e :: es, p, h, hq => by
    obtain h | h := List.mem_append.mp h
    · exact List.mem_append_left _ (parts_subset e p h hq)
    · exact List.mem_append_right _ (partsOfAll_subset es p h hq)

end

end Reckoner.Expr
