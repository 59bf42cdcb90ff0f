import Reckoner.Proofs.Evaluator.Metering
import Reckoner.Proofs.Number.Allowance

/-! Expressions that have a value: every node of them is entered, and the value is the same at every
width that allows theirs. -/
namespace Reckoner.Evaluator
open Keeps

variable {bits bits' : UInt64} {limits : Limits} {gas : Nat} {e : Expr} {v : Number}

theorem costAfter_ok {α : Type} {x : Except EvalError α} {a : α} (h : x = .ok a) (cost : Nat) :
    costAfter x cost = cost := by
  rw [h, costAfter]

mutual

theorem entered_eq_nodes : ∀ e x, value bits e = .ok x → entered bits e = e.nodes
  | .int _ _, _, _ | .float _ _, _, _ | .name _ _, _, _ => rfl
  | .call _ _ args _, x, h => by
    obtain ⟨f, hf, h⟩ := bind_eq_ok_iff.mp h
    obtain ⟨xs, hargs, -⟩ := bind_eq_ok_iff.mp h
    rw [entered, Expr.nodes, costAfter_ok hf, enteredOfAll_eq_nodes args xs hargs]
  | .binary _ left right _, x, h => by
    obtain ⟨y, hleft, h⟩ := bind_eq_ok_iff.mp h
    obtain ⟨z, hright, -⟩ := bind_eq_ok_iff.mp h
    rw [entered, Expr.nodes, costAfter_ok hleft, entered_eq_nodes left y hleft,
      entered_eq_nodes right z hright, Nat.add_assoc]
  | .signed _ operand _, x, h => by
    obtain ⟨y, hoperand, -⟩ := bind_eq_ok_iff.mp h
    rw [entered, Expr.nodes, entered_eq_nodes operand y hoperand]
  | .paren inner _, x, h => by rw [entered, Expr.nodes, entered_eq_nodes inner x h]

theorem enteredOfAll_eq_nodes : ∀ es xs, values bits es = .ok xs → enteredOfAll bits es = Expr.nodesOfAll es
  | [], _, _ => rfl
  | e :: es, xs, h => by
    obtain ⟨y, hfirst, h⟩ := bind_eq_ok_iff.mp h
    obtain ⟨ys, hmore, -⟩ := bind_eq_ok_iff.mp h
    rw [enteredOfAll, Expr.nodesOfAll, costAfter_ok hfirst, entered_eq_nodes e y hfirst,
      enteredOfAll_eq_nodes es ys hmore]

end

/-- A value is found with gas for all nodes, and not with less. -/
theorem run_eq_ok_iff : (run limits gas e).1 = .ok v ↔
    value limits.maxIntBits e = .ok v ∧ gas + e.nodes ≤ limits.gasLimit.toNat := by
  rw [run_eq]
  constructor
  · intro h
    split at h
    · next hgas => exact ⟨h, entered_eq_nodes e v h ▸ hgas⟩
    · cases h
  · rintro ⟨hv, hgas⟩
    rw [if_pos (entered_eq_nodes e v hv ▸ hgas)]
    exact hv

mutual

theorem value_keeps (h : Allows bits' bits) : ∀ e, Keeps (value bits e) (value bits' e)
  | .int _ _ | .float _ _ | .name _ _ => refl _
  | .call _ _ args _ => (refl _).bind fun _ => (values_keeps h args).bind fun _ => refl _
  | .binary op left right _ =>
    (value_keeps h left).bind fun x => (value_keeps h right).bind fun y => Number.binary_keeps h op x y
  | .signed _ operand _ => (value_keeps h operand).bind fun _ => refl _
  | .paren inner _ => value_keeps h inner

theorem values_keeps (h : Allows bits' bits) : ∀ es, Keeps (values bits es) (values bits' es)
  | [] => refl _
  | e :: es => (value_keeps h e).bind fun _ => (values_keeps h es).bind fun _ => refl _

end

end Reckoner.Evaluator
