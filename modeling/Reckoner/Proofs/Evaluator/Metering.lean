import Reckoner.Evaluator
import Reckoner.Proofs.Expr.Size

/-! The value of an expression without a meter, and that the meter changes nothing but to run out. -/
namespace Reckoner.Evaluator

mutual

/-- The value of an expression, whatever it costs. -/
def value (bits : UInt64) : Expr → Except EvalError Number
  | .int n _ => .ok (.int n)
  | .float x _ => .ok (.float x)
  | .name text span => nameValue text span
  | .call name span args _ => do
    let f ← callee name span
    let xs ← values bits args
    f.call xs
  | .binary op left right _ => do
    let lhs ← value bits left
    let rhs ← value bits right
    Number.binary op lhs rhs bits
  | .signed sign operand _ => do
    let x ← value bits operand
    return applySign sign x
  | .paren inner _ => value bits inner

def values (bits : UInt64) : List Expr → Except EvalError (List Number)
  | [] => .ok []
  | e :: es => do
    let x ← value bits e
    let xs ← values bits es
    return x :: xs

end

/-- The cost of what comes after a computation, which is nothing if that fails. -/
def costAfter {α : Type} (x : Except EvalError α) (cost : Nat) : Nat :=
  match x with
  | .ok _ => cost
  | .error _ => 0

theorem costAfter_le {α : Type} (x : Except EvalError α) {cost bound : Nat} (h : cost ≤ bound) :
    costAfter x cost ≤ bound := by
  cases x with
  | ok _ => exact h
  | error _ => exact Nat.zero_le bound

mutual

/-- The nodes that are entered until the value is found, or a failure. -/
def entered (bits : UInt64) : Expr → Nat
  | .int _ _ => 1
  | .float _ _ => 1
  | .name _ _ => 1
  | .call name span args _ => 1 + costAfter (callee name span) (enteredOfAll bits args)
  | .binary _ left right _ => 1 + (entered bits left + costAfter (value bits left) (entered bits right))
  | .signed _ operand _ => 1 + entered bits operand
  | .paren inner _ => 1 + entered bits inner

def enteredOfAll (bits : UInt64) : List Expr → Nat
  | [] => 0
  | e :: es => entered bits e + costAfter (value bits e) (enteredOfAll bits es)

end

/-- A computation that takes `n` units and has this result, unless the meter runs out before. -/
structure Meters {α : Type} (limit : Nat) (m : Metered α) (x : Except EvalError α) (n : Nat) : Prop where
  within : ∀ gas, gas + n ≤ limit → m.run gas = (x, gas + n)
  beyond : ∀ gas ≤ limit, limit < gas + n → m.run gas = (.error .gasExhausted, limit + 1)

variable {α β : Type} {limit n k : Nat} {m : Metered α} {x : Except EvalError α} {f : α → Metered β}
  {g : α → Except EvalError β} {gas after : Nat} {a : α} {failure : EvalError}

theorem bind_run_ok (f : α → Metered β) (h : m.run gas = (.ok a, after)) :
    (m >>= f).run gas = (f a).run after := by
  change ExceptT.bindCont f (m.run gas).1 (m.run gas).2 = _
  rw [h]
  rfl

theorem bind_run_error (f : α → Metered β) (h : m.run gas = (.error failure, after)) :
    (m >>= f).run gas = (.error failure, after) := by
  change ExceptT.bindCont f (m.run gas).1 (m.run gas).2 = _
  rw [h]
  rfl

theorem Meters.bind (h : Meters limit m x n) (hf : ∀ a, x = .ok a → Meters limit (f a) (g a) k) :
    Meters limit (m >>= f) (x >>= g) (n + costAfter x k) where
  within gas hgas := by
    cases x with
    | error e => exact bind_run_error f (h.within gas hgas)
    | ok a =>
      change gas + (n + k) ≤ limit at hgas
      rw [bind_run_ok f (h.within gas (by omega)), (hf a rfl).within _ (by omega), Nat.add_assoc]
      rfl
  beyond gas hgas hlt := by
    by_cases hn : limit < gas + n
    · exact bind_run_error f (h.beyond gas hgas hn)
    · cases x with
      | error e => exact absurd hlt hn
      | ok a =>
        change limit < gas + (n + k) at hlt
        rw [bind_run_ok f (h.within gas (by omega)), (hf a rfl).beyond _ (by omega) (by omega)]

/-- What counts nothing may follow at no cost. -/
theorem Meters.bind_free (h : Meters limit m x n) (hf : ∀ a gas, (f a).run gas = (g a, gas)) :
    Meters limit (m >>= f) (x >>= g) n := by
  have hfree (a : α) (_ : x = .ok a) : Meters limit (f a) (g a) 0 :=
    ⟨fun gas _ => hf a gas, fun gas hgas hlt => absurd hgas (Nat.not_le.mpr hlt)⟩
  have hb := h.bind hfree
  cases x <;> exact hb

theorem Meters.lift_bind (hf : ∀ a, x = .ok a → Meters limit (f a) (g a) k) :
    Meters limit (liftM x >>= f) (x >>= g) (costAfter x k) := by
  have hlift : Meters limit (liftM x) x 0 :=
    ⟨fun _ _ => rfl, fun gas hgas hlt => absurd hgas (Nat.not_le.mpr hlt)⟩
  rw [← Nat.zero_add (costAfter x k)]
  exact hlift.bind hf

theorem tick_run_within (limits : Limits) (h : gas + 1 ≤ limits.gasLimit.toNat) :
    (tick limits).run gas = (.ok (), gas + 1) := by
  change (if limits.gasLimit.toNat < gas + 1 then throw .gasExhausted else pure () :
    Metered Unit).run (gas + 1) = _
  rw [if_neg (Nat.not_lt.mpr h)]
  rfl

theorem tick_run_beyond (limits : Limits) (h : limits.gasLimit.toNat < gas + 1) :
    (tick limits).run gas = (.error .gasExhausted, gas + 1) := by
  change (if limits.gasLimit.toNat < gas + 1 then throw .gasExhausted else pure () :
    Metered Unit).run (gas + 1) = _
  rw [if_pos h]
  rfl

theorem tick_meters (limits : Limits) : Meters limits.gasLimit.toNat (tick limits) (.ok ()) 1 where
  within gas hgas := tick_run_within limits hgas
  beyond gas hgas hlt := by
    rw [tick_run_beyond limits hlt, Nat.le_antisymm hgas (Nat.le_of_lt_succ hlt)]

mutual

theorem eval_meters (limits : Limits) : ∀ e,
    Meters limits.gasLimit.toNat (eval limits e) (value limits.maxIntBits e) (entered limits.maxIntBits e)
  | .int _ _ => (tick_meters limits).bind_free fun _ _ => rfl
  | .float _ _ => (tick_meters limits).bind_free fun _ _ => rfl
  | .name _ _ => (tick_meters limits).bind_free fun _ _ => rfl
  | .call _ _ args _ =>
    (tick_meters limits).bind fun _ _ => Meters.lift_bind fun _ _ =>
      (evalAll_meters limits args).bind_free fun _ _ => rfl
  | .binary _ left right _ =>
    (tick_meters limits).bind fun _ _ => (eval_meters limits left).bind fun _ _ =>
      (eval_meters limits right).bind_free fun _ _ => rfl
  | .signed _ operand _ =>
    (tick_meters limits).bind fun _ _ => (eval_meters limits operand).bind_free fun _ _ => rfl
  | .paren inner _ => (tick_meters limits).bind fun _ _ => eval_meters limits inner

theorem evalAll_meters (limits : Limits) : ∀ es,
    Meters limits.gasLimit.toNat (evalAll limits es) (values limits.maxIntBits es)
      (enteredOfAll limits.maxIntBits es)
  | [] => ⟨fun _ _ => rfl, fun _ hgas hlt => absurd hgas (Nat.not_le.mpr hlt)⟩
  | e :: es =>
    (eval_meters limits e).bind fun _ _ => (evalAll_meters limits es).bind_free fun _ _ => rfl

end

theorem one_le_entered (bits : UInt64) (e : Expr) : 1 ≤ entered bits e := by
  cases e <;> simp only [entered] <;> omega

theorem eval_beyond (limits : Limits) (e : Expr) (h : limits.gasLimit.toNat < gas + 1) :
    (eval limits e).run gas = (.error .gasExhausted, gas + 1) := by
  cases e <;> exact bind_run_error _ (tick_run_beyond limits h)

/-- Evaluation with gas is evaluation without, unless the gas runs out; it is one unit past its limit
then, or one past where it was. -/
theorem run_eq (limits : Limits) (gas : Nat) (e : Expr) :
    run limits gas e =
      if gas + entered limits.maxIntBits e ≤ limits.gasLimit.toNat then
        (value limits.maxIntBits e, gas + entered limits.maxIntBits e)
      else (.error .gasExhausted, max gas limits.gasLimit.toNat + 1) := by
  have h := eval_meters limits e
  have hone := one_le_entered limits.maxIntBits e
  split
  · next hle => exact h.within gas hle
  · next hgt =>
    by_cases hgas : gas ≤ limits.gasLimit.toNat
    · rw [Nat.max_eq_right hgas]
      exact h.beyond gas hgas (Nat.not_le.mp hgt)
    · rw [Nat.max_eq_left (by omega)]
      apply eval_beyond
      omega

mutual

theorem entered_le_nodes (bits : UInt64) : ∀ e, entered bits e ≤ e.nodes
  | .int _ _ | .float _ _ | .name _ _ => Nat.le_refl 1
  | .call name span args _ => by
    have hargs := enteredOfAll_le_nodes bits args
    have hcost := costAfter_le (callee name span) hargs
    simp only [entered, Expr.nodes]
    omega
  | .binary _ left right _ => by
    have hleft := entered_le_nodes bits left
    have hcost := costAfter_le (value bits left) (entered_le_nodes bits right)
    simp only [entered, Expr.nodes]
    omega
  | .signed _ operand _ => Nat.add_le_add_left (entered_le_nodes bits operand) 1
  | .paren inner _ => Nat.add_le_add_left (entered_le_nodes bits inner) 1

theorem enteredOfAll_le_nodes (bits : UInt64) : ∀ es, enteredOfAll bits es ≤ Expr.nodesOfAll es
  | [] => Nat.le_refl 0
  | e :: es =>
    Nat.add_le_add (entered_le_nodes bits e) (costAfter_le (value bits e) (enteredOfAll_le_nodes bits es))

end

end Reckoner.Evaluator
