import Reckoner.Proofs.Evaluator.Allowance

/-! Evaluation on a meter without a limit. A meter with a limit shows the same, unless more nodes are entered
than it allows; one meter serves several expressions, whose nodes add up. -/
namespace Reckoner.Evaluator

mutual

/-- Evaluation that does something else for every node it enters than count within limits. -/
def evalWith (enter : Metered Unit) (bits : UInt64) : Expr → Metered Number
  | .int n _ => do
    enter
    return .int n
  | .float x _ => do
    enter
    return .float x
  | .name text span => do
    enter
    liftM (nameValue text span)
  | .call name span args _ => do
    enter
    let f ← liftM (callee name span)
    let xs ← evalAllWith enter bits args
    liftM (f.call xs)
  | .binary op left right _ => do
    enter
    let lhs ← evalWith enter bits left
    let rhs ← evalWith enter bits right
    liftM (Number.binary op lhs rhs bits)
  | .signed sign operand _ => do
    enter
    let x ← evalWith enter bits operand
    return applySign sign x
  | .paren inner _ => do
    enter
    evalWith enter bits inner

def evalAllWith (enter : Metered Unit) (bits : UInt64) : List Expr → Metered (List Number)
  | [] => return []
  | e :: es => do
    let x ← evalWith enter bits e
    let xs ← evalAllWith enter bits es
    return x :: xs

end

mutual

/-- Evaluation is evaluation that ticks for every node. -/
theorem eval_eq_evalWith (limits : Limits) : ∀ e,
    eval limits e = evalWith (tick limits) limits.maxIntBits e
  | .int _ _ | .float _ _ | .name _ _ => by rw [eval, evalWith]
  | .call _ _ args _ => by rw [eval, evalWith, evalAll_eq_evalAllWith limits args]
  | .binary _ left right _ => by
    rw [eval, evalWith, eval_eq_evalWith limits left, eval_eq_evalWith limits right]
  | .signed _ operand _ => by rw [eval, evalWith, eval_eq_evalWith limits operand]
  | .paren inner _ => by rw [eval, evalWith, eval_eq_evalWith limits inner]

theorem evalAll_eq_evalAllWith (limits : Limits) : ∀ es,
    evalAll limits es = evalAllWith (tick limits) limits.maxIntBits es
  | [] => by rw [evalAll, evalAllWith]
  | e :: es => by
    rw [evalAll, evalAllWith, eval_eq_evalWith limits e, evalAll_eq_evalAllWith limits es]

end

/-- Counts one unit, whatever the meter shows. -/
def count : Metered Unit := modify (· + 1)

/-- The outcome for an expression without a limit, and the number of nodes entered for it. -/
def unlimited (bits : UInt64) (e : Expr) : Except EvalError Number × Nat :=
  (evalWith count bits e).run 0

/-- A computation that takes `n` units and has this result, whatever the meter shows. -/
def Counts {α : Type} (m : Metered α) (x : Except EvalError α) (n : Nat) : Prop :=
  ∀ gas, m.run gas = (x, gas + n)

variable {α β : Type} {m : Metered α} {x : Except EvalError α} {f : α → Metered β}
  {g : α → Except EvalError β} {n k : Nat} {bits : UInt64} {limits : Limits} {gas : Nat} {e : Expr}

namespace Counts

theorem bind (h : Counts m x n) (hf : ∀ a, x = .ok a → Counts (f a) (g a) k) :
    Counts (m >>= f) (x >>= g) (n + costAfter x k) := by
  intro gas
  cases x with
  | error failure => exact bind_run_error f (h gas)
  | ok a =>
    rw [bind_run_ok f (h gas), hf a rfl, Nat.add_assoc]
    rfl

/-- What counts nothing may follow at no cost. -/
theorem bind_free (h : Counts m x n) (hf : ∀ a gas, (f a).run gas = (g a, gas)) : Counts (m >>= f) (x >>= g) n := by
  have hfree (a : α) (_ : x = .ok a) : Counts (f a) (g a) 0 := hf a
  have hb := h.bind hfree
  cases x <;> exact hb

theorem lift_bind (hf : ∀ a, x = .ok a → Counts (f a) (g a) k) :
    Counts (liftM x >>= f) (x >>= g) (costAfter x k) := by
  have hlift : Counts (liftM x) x 0 := fun _ => rfl
  rw [← Nat.zero_add (costAfter x k)]
  exact hlift.bind hf

end Counts

theorem count_counts : Counts count (.ok ()) 1 := fun _ => rfl

mutual

theorem evalWith_counts (bits : UInt64) : ∀ e, Counts (evalWith count bits e) (value bits e) (entered bits e)
  | .int _ _ | .float _ _ | .name _ _ => count_counts.bind_free fun _ _ => rfl
  | .call _ _ args _ =>
    count_counts.bind fun _ _ => Counts.lift_bind fun _ _ =>
      (evalAllWith_counts bits args).bind_free fun _ _ => rfl
  | .binary _ left right _ =>
    count_counts.bind fun _ _ => (evalWith_counts bits left).bind fun _ _ =>
      (evalWith_counts bits right).bind_free fun _ _ => rfl
  | .signed _ operand _ =>
    count_counts.bind fun _ _ => (evalWith_counts bits operand).bind_free fun _ _ => rfl
  | .paren inner _ => count_counts.bind fun _ _ => evalWith_counts bits inner

theorem evalAllWith_counts (bits : UInt64) : ∀ es,
    Counts (evalAllWith count bits es) (values bits es) (enteredOfAll bits es)
  | [] => fun _ => rfl
  | e :: es =>
    (evalWith_counts bits e).bind fun _ _ => (evalAllWith_counts bits es).bind_free fun _ _ => rfl

end

theorem unlimited_eq (bits : UInt64) (e : Expr) : unlimited bits e = (value bits e, entered bits e) := by
  rw [unlimited, evalWith_counts bits e, Nat.zero_add]

/-- The outcomes for several expressions on one meter, and what it shows after them. -/
def runAll (limits : Limits) : Nat → List Expr → List (Except EvalError Number) × Nat
  | gas, [] => ([], gas)
  | gas, e :: es =>
    let first := run limits gas e
    let rest := runAll limits first.2 es
    (first.1 :: rest.1, rest.2)

/-- A step that succeeds moves the meter by the nodes of its expression. -/
theorem run_gas_of_ok {v : Number} (h : (run limits gas e).1 = .ok v) : (run limits gas e).2 = gas + e.nodes := by
  obtain ⟨hv, hgas⟩ := run_eq_ok_iff.mp h
  rw [run_eq, entered_eq_nodes e v hv, if_pos hgas]

theorem runAll_gas_of_ok (es : List Expr) (h : ∀ x ∈ (runAll limits gas es).1, ∃ v, x = .ok v) :
    (runAll limits gas es).2 = gas + Expr.nodesOfAll es := by
  induction es generalizing gas with
  | nil => rfl
  | cons e es ih =>
    obtain ⟨⟨v, hv⟩, hrest⟩ := List.forall_mem_cons.mp h
    change (runAll limits (run limits gas e).2 es).2 = _
    rw [ih hrest, run_gas_of_ok hv, Expr.nodesOfAll, Nat.add_assoc]

/-- The meter shows what it shows without a limit as long as that is allowed, and stands one past the greater
of its limit and where it was if it is not. It never moves by more than the nodes entered, which are all nodes
where there is a value; after any number of values it has moved by the nodes of their expressions. -/
theorem metering_is_exact (limits : Limits) :
    (∀ gas e, ∀ outcome n, unlimited limits.maxIntBits e = (outcome, n) →
      (gas + n ≤ limits.gasLimit.toNat → run limits gas e = (outcome, gas + n)) ∧
      (limits.gasLimit.toNat < gas + n →
        run limits gas e = (.error .gasExhausted, max gas limits.gasLimit.toNat + 1)) ∧
      (run limits gas e).2 ≤ gas + n ∧
      ∀ v, outcome = .ok v → n = e.nodes) ∧
    ∀ gas es, (∀ x ∈ (runAll limits gas es).1, ∃ v, x = .ok v) →
      (runAll limits gas es).2 = gas + Expr.nodesOfAll es := by
  refine ⟨fun gas e outcome n h => ?_, fun gas es => runAll_gas_of_ok es⟩
  rw [unlimited_eq] at h
  obtain ⟨rfl, rfl⟩ := Prod.mk.inj h
  have hrun := run_eq limits gas e
  have hone := one_le_entered limits.maxIntBits e
  refine ⟨fun hle => ?_, fun hlt => ?_, ?_, fun v hv => entered_eq_nodes e v hv⟩
  · rw [hrun, if_pos hle]
  · rw [hrun, if_neg (Nat.not_le.mpr hlt)]
  · rw [hrun]
    split
    · exact Nat.le_refl _
    · dsimp only
      omega

/-- A difference whose left side fails after five of its six nodes. -/
def failing : Expr :=
  .binary .sub (.paren (.binary .div (.int 1 ⟨1, 2⟩) (.int 0 ⟨3, 4⟩) ⟨1, 4⟩) ⟨0, 5⟩) (.int 2 ⟨8, 9⟩) ⟨0, 9⟩

/-- With two units taken and seven allowed it still fails by itself, with three taken the gas runs out. Two
calls of three nodes move one meter by six. -/
theorem failure_metered_up_to_limit :
    let limits : Limits := { Limits.standard with gasLimit := 7 }
    let call : Expr := .call "round" ⟨0, 5⟩ [.int 7 ⟨6, 7⟩, .int 0 ⟨8, 9⟩] ⟨0, 10⟩
    failing.nodes = 6 ∧ unlimited limits.maxIntBits failing = (.error .divisionByZero, 5) ∧
    run limits 2 failing = (.error .divisionByZero, 7) ∧
    run limits 3 failing = (.error .gasExhausted, 8) ∧
    (runAll limits 0 [call, call]).1 = [.ok (.int 7), .ok (.int 7)] ∧ (runAll limits 0 [call, call]).2 = 6 := by
  intro limits call
  have hfailed : unlimited limits.maxIntBits failing = (.error .divisionByZero, 5) := by rfl
  have hcalls : (runAll limits 0 [call, call]).1 = [.ok (.int 7), .ok (.int 7)] := by rfl
  obtain ⟨hsteps, hall⟩ := metering_is_exact limits
  obtain ⟨hwithin, -⟩ := hsteps 2 failing _ _ hfailed
  obtain ⟨-, hbeyond, -⟩ := hsteps 3 failing _ _ hfailed
  refine ⟨by rfl, hfailed, hwithin (by decide), hbeyond (by decide), hcalls, hall 0 [call, call] ?_⟩
  rw [hcalls]
  simp

end Reckoner.Evaluator
