import Reckoner.Proofs.Evaluator.Naming

/-! Expressions without their places in a text: nothing but the place of a rejected name depends on them. -/
namespace Reckoner
namespace Expr

def noSpan : Span := ⟨0, 0⟩

mutual

/-- The expression with all its places forgotten. -/
def bare : Expr → Expr
  | .int n _ => .int n noSpan
  | .float x _ => .float x noSpan
  | .name text _ => .name text noSpan
  | .call callee _ args _ => .call callee noSpan (bareAll args) noSpan
  | .binary op left right _ => .binary op (bare left) (bare right) noSpan
  | .signed sign operand _ => .signed sign (bare operand) noSpan
  | .paren inner _ => .paren (bare inner) noSpan

def bareAll : List Expr → List Expr
  | [] => []
  | e :: es => bare e :: bareAll es

end

mutual

theorem nesting_bare : ∀ e : Expr, e.bare.nesting = e.nesting
  | .int _ _ | .float _ _ | .name _ _ => rfl
  | .call _ _ args _ => nestingOfAll_bareAll args
  | .binary _ left right _ => by simp only [bare, nesting, nesting_bare left, nesting_bare right]
  | .signed _ operand _ => by simp only [bare, nesting, nesting_bare operand]
  | .paren inner _ => by simp only [bare, nesting, nesting_bare inner]

theorem nestingOfAll_bareAll : ∀ es : List Expr, nestingOfAll (bareAll es) = nestingOfAll es
  | [] => rfl
  | e :: es => by simp only [bareAll, nestingOfAll, nesting_bare e, nestingOfAll_bareAll es]

end

mutual

theorem nodes_bare : ∀ e : Expr, e.bare.nodes = e.nodes
  | .int _ _ | .float _ _ | .name _ _ => rfl
  | .call _ _ args _ => by simp only [bare, nodes, nodesOfAll_bareAll args]
  | .binary _ left right _ => by simp only [bare, nodes, nodes_bare left, nodes_bare right]
  | .signed _ operand _ => by simp only [bare, nodes, nodes_bare operand]
  | .paren inner _ => by simp only [bare, nodes, nodes_bare inner]

theorem nodesOfAll_bareAll : ∀ es : List Expr, nodesOfAll (bareAll es) = nodesOfAll es
  | [] => rfl
  | e :: es => by simp only [bareAll, nodesOfAll, nodes_bare e, nodesOfAll_bareAll es]

end

/-- A name with its place forgotten. -/
def bareIdentifier (i : Identifier) : Identifier := ⟨i.name, noSpan⟩

mutual

theorem identifiers_bare : ∀ e : Expr, e.bare.identifiers = e.identifiers.map bareIdentifier
  | .int _ _ | .float _ _ | .name _ _ => rfl
  | .call callee span args _ => congrArg (bareIdentifier ⟨callee, span⟩ :: ·) (identifiersOfAll_bareAll args)
  | .binary _ left right _ => by
    simp only [bare, identifiers, identifiers_bare left, identifiers_bare right, List.map_append]
  | .signed _ operand _ => identifiers_bare operand
  | .paren inner _ => identifiers_bare inner

theorem identifiersOfAll_bareAll : ∀ es : List Expr,
    identifiersOfAll (bareAll es) = (identifiersOfAll es).map bareIdentifier
  | [] => rfl
  | e :: es => by
    simp only [bareAll, identifiersOfAll, identifiers_bare e, identifiersOfAll_bareAll es, List.map_append]

end

theorem allowed_bare (e : Expr) : Allowed e.bare ↔ Allowed e := by
  simp [Allowed, identifiers_bare, bareIdentifier]

end Expr

namespace Evaluator
open Reckoner.Expr

theorem nameValue_span {name : String} (h : Whitelist.allows name) (s s' : Span) :
    nameValue name s = nameValue name s' := by
  obtain ⟨binding, hbinding⟩ := Whitelist.exists_lookup h
  rw [nameValue, nameValue, hbinding]
  cases binding <;> rfl

theorem callee_span {name : String} (h : Whitelist.allows name) (s s' : Span) :
    callee name s = callee name s' := by
  obtain ⟨binding, hbinding⟩ := Whitelist.exists_lookup h
  rw [callee, callee, hbinding]
  cases binding <;> rfl

mutual

/-- The value of an expression whose names are allowed does not depend on places. -/
theorem value_bare (bits : UInt64) : ∀ e : Expr, Allowed e → value bits e.bare = value bits e
  | .int _ _, _ | .float _ _, _ => rfl
  | .name _ _, h => nameValue_span (h _ (List.mem_singleton_self _)) _ _
  | .call _ span args _, h => by
    obtain ⟨hcallee, hargs⟩ := List.forall_mem_cons.mp h
    simp only [bare, value, values_bareAll bits args hargs, callee_span hcallee noSpan span]
  | .binary _ left right _, h => by
    obtain ⟨hleft, hright⟩ := List.forall_mem_append.mp h
    simp only [bare, value, value_bare bits left hleft, value_bare bits right hright]
  | .signed _ operand _, h => by simp only [bare, value, value_bare bits operand h]
  | .paren inner _, h => by simp only [bare, value, value_bare bits inner h]

theorem values_bareAll (bits : UInt64) : ∀ es : List Expr, AllAllowed es →
    values bits (bareAll es) = values bits es
  | [], _ => rfl
  | e :: es, h => by
    obtain ⟨he, hes⟩ := List.forall_mem_append.mp h
    simp only [bareAll, values, value_bare bits e he, values_bareAll bits es hes]

end

mutual

/-- The same nodes are entered wherever they stand. -/
theorem entered_bare (bits : UInt64) : ∀ e : Expr, Allowed e → entered bits e.bare = entered bits e
  | .int _ _, _ | .float _ _, _ | .name _ _, _ => rfl
  | .call _ span args _, h => by
    obtain ⟨hcallee, hargs⟩ := List.forall_mem_cons.mp h
    simp only [bare, entered, enteredOfAll_bareAll bits args hargs, callee_span hcallee noSpan span]
  | .binary _ left right _, h => by
    obtain ⟨hleft, hright⟩ := List.forall_mem_append.mp h
    simp only [bare, entered, value_bare bits left hleft, entered_bare bits left hleft,
      entered_bare bits right hright]
  | .signed _ operand _, h => by simp only [bare, entered, entered_bare bits operand h]
  | .paren inner _, h => by simp only [bare, entered, entered_bare bits inner h]

theorem enteredOfAll_bareAll (bits : UInt64) : ∀ es : List Expr, AllAllowed es →
    enteredOfAll bits (bareAll es) = enteredOfAll bits es
  | [], _ => rfl
  | e :: es, h => by
    obtain ⟨he, hes⟩ := List.forall_mem_append.mp h
    simp only [bareAll, enteredOfAll, value_bare bits e he, entered_bare bits e he,
      enteredOfAll_bareAll bits es hes]

end

/-- A run does not depend on places, the meter included. -/
theorem run_bare (limits : Limits) (gas : Nat) {e : Expr} (h : Allowed e) :
    run limits gas e.bare = run limits gas e := by
  rw [run_eq, run_eq, value_bare _ e h, entered_bare _ e h]

end Evaluator
end Reckoner
