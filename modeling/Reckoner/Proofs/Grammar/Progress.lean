import Reckoner.Proofs.Grammar.Failures

/-! The rules go on: an operand behind an operator or a comma passes a token, or is none. Past the last token
there is the last one over and over, and the nesting of signs and parentheses that repeats it comes to its limit. So the
loops of the grammar need no check that tokens are passed. -/
namespace Reckoner.Grammar

/-- A rule that reads onwards, and reads nothing where the last token starts no operand and is repeated. -/
structure Grounded (r : Rule Expr) : Prop where
  reads_on : Local r
  stuck : ∀ opened t, ¬StartsOperand t.lexeme → ∃ reason, r opened ⟨[], t⟩ = .error reason

variable {operand nested : Rule Expr} {op? : Lexeme → Option BinaryOp} {c rest : Cursor} {opened : ℕ} {e left : Expr}

theorem leftAssociative_grounded (h : Grounded operand) : Grounded (leftAssociative op? operand) where
  reads_on := leftAssociative_local h.reads_on
  stuck opened t ht := by
    obtain ⟨reason, hreason⟩ := h.stuck opened t ht
    exact ⟨reason, by rw [leftAssociative, hreason]; rfl⟩

theorem primary_stuck {t : Token} (ht : ¬StartsOperand t.lexeme) :
    ∃ reason, primary nested opened ⟨[], t⟩ = .error reason := by
  have hlexeme : (⟨[], t⟩ : Cursor).lexeme = t.lexeme := rfl
  unfold primary
  rw [hlexeme]
  split
  · next hl => exact absurd (by rw [hl]; trivial) ht
  · next hl => exact absurd (by rw [hl]; trivial) ht
  · next hl => exact absurd (by rw [hl]; trivial) ht
  · next hl => exact absurd (by rw [hl]; trivial) ht
  · exact ⟨_, rfl⟩
  · exact ⟨_, rfl⟩

/-- A sign that is repeated uses up the levels. -/
theorem level_grounded (maxDepth levels : ℕ) : Grounded (level maxDepth levels) where
  reads_on := level_local maxDepth levels
  stuck opened t ht := by
    induction levels with
    | zero => exact ⟨_, rfl⟩
    | succ levels ih =>
      have hnext : (⟨[], t⟩ : Cursor).next = ⟨[], t⟩ := rfl
      rw [level, unary]
      split
      · obtain ⟨reason, hreason⟩ : ∃ reason, primary (level maxDepth levels) opened ⟨[], t⟩ = .error reason :=
          primary_stuck ht
        refine ⟨reason, ?_⟩
        rw [power, call_eq_primary (by simp [Cursor.second]), hreason]
        rfl
      · obtain ⟨reason, hreason⟩ := ih
        exact ⟨reason, by rw [hnext, hreason]; rfl⟩

theorem sum_level_grounded (maxDepth levels : ℕ) : Grounded (sum (level maxDepth levels)) :=
  leftAssociative_grounded (leftAssociative_grounded (level_grounded maxDepth levels))

theorem arguments_close (h : c.lexeme = .rightParen) : arguments operand opened c = .ok ([], c) := by
  rw [arguments.eq_def, h]

namespace Grounded

theorem length_le (h : Grounded operand) (hread : operand opened c = .ok (e, rest)) :
    rest.ahead.length ≤ c.ahead.length := by
  have hwithin := h.reads_on opened c
  rw [hread] at hwithin
  cases hwithin with
  | ok hrest => exact hrest.ahead.length_le

theorem length_lt (h : Grounded operand) (hc : ¬StartsOperand c.lexeme) (hread : operand opened c.next = .ok (e, rest)) :
    rest.ahead.length < c.ahead.length := by
  obtain ⟨ahead, final⟩ := c
  cases ahead with
  | nil =>
    obtain ⟨reason, hreason⟩ := h.stuck opened final hc
    cases hreason.symm.trans hread
  | cons t ts => exact Nat.lt_succ_of_le (h.length_le hread)

theorem length_next_lt (h : Grounded operand) (hread : operand opened c = .ok (e, rest)) (hcomma : rest.lexeme = .comma) :
    rest.next.ahead.length < c.ahead.length := by
  have hle := h.length_le hread
  have hnext : rest.next.ahead.length = rest.ahead.length - 1 := List.length_tail
  obtain ⟨_ | ⟨t, ts⟩, final⟩ := c
  · -- the comma would be the token that is repeated
    have hwithin := h.reads_on opened ⟨[], final⟩
    rw [hread] at hwithin
    cases hwithin with
    | ok hrest =>
      obtain ⟨ahead, final'⟩ := rest
      obtain rfl : final' = final := hrest.final
      obtain rfl : ahead = [] := List.length_eq_zero_iff.mp (Nat.le_zero.mp hle)
      have hcomma : final'.lexeme = .comma := hcomma
      obtain ⟨reason, hreason⟩ := h.stuck opened final' (by rw [hcomma]; exact id)
      cases hreason.symm.trans hread
  · simp only [List.length_cons] at hle ⊢
    omega

/-- A chain goes on behind each operand. -/
theorem chain_eq (h : Grounded operand) (hop : ∀ l op, op? l = some op → ¬StartsOperand l) (opened : ℕ)
    (left : Expr) (c : Cursor) :
    chain op? operand opened left c =
      match op? c.lexeme with
      | none => .ok (left, c)
      | some op => (do
        let (right, rest) ← operand opened c.next
        chain op? operand opened (left.join op right) rest) := by
  rw [chain_eq_bind]
  cases hc : op? c.lexeme with
  | none => rfl
  | some op =>
    cases hread : operand opened c.next with
    | error reason => rfl
    | ok x =>
      have hless := h.length_lt (hop _ _ hc) hread
      simp only [bind, Except.bind, hless, if_true]

/-- Arguments go on behind each comma. -/
theorem arguments_eq (h : Grounded operand) (hc : c.lexeme ≠ .rightParen) :
    arguments operand opened c = (do
      let (first, rest) ← operand opened c
      match rest.lexeme with
      | .equals => .error (.disallowed "keyword argument" rest.span)
      | .comma => do
        let (others, after) ← arguments operand opened rest.next
        return (first :: others, after)
      | _ => .ok ([first], rest)) := by
  rw [arguments_eq_bind hc]
  cases hread : operand opened c with
  | error reason => rfl
  | ok x =>
    obtain ⟨first, rest⟩ := x
    simp only [bind, Except.bind]
    cases hl : rest.lexeme with
    | comma => simp only [h.length_next_lt hread hl, if_true]
    | _ => rfl

end Grounded
end Reckoner.Grammar
