import Reckoner.Proofs.Descent.Simulation
import Reckoner.Proofs.Grammar.Parsing

/-! The end of input is never passed: whatever stands behind it in a sequence, and nothing has to, the machine does the
same. So an expression is read from the tokens before the first end of input alone. -/
namespace Reckoner
namespace Descent
open Grammar StateTransition

/-- Two sequences with the same tokens up to an end of input. -/
structure Agree (n : ℕ) (d d' : Descent) : Prop where
  maxDepth : d'.maxDepth = d.maxDepth
  tokens : ∀ i ≤ n, d'.tokens[i]? = d.tokens[i]?
  ends : ∃ eof, d.tokens[n]? = some eof ∧ eof.lexeme = .endOfInput

/-- The same step, which does not pass a position. -/
inductive Within (n : ℕ) : Option State → Option State → Prop
  | none : Within n none none
  | some {t : State} (h : t.position ≤ n) : Within n (some t) (some t)

variable {d d' : Descent} {s t : State} {f : Frame} {e : Expr} {n : ℕ}

theorem Within.map {x y : Option State} {g : State → State} (h : Within n x y)
    (hg : ∀ s, (g s).position = s.position) : Within n (x.map g) (y.map g) := by
  cases h with
  | none => exact .none
  | some h => exact .some ((hg _).trans_le h)

theorem leave?_within (h : s.position ≤ n) : Within n (leave? s) (leave? s) := by
  unfold leave?
  cases decrement? s.depth with
  | none => exact .none
  | some depth => exact .some h

theorem open?_within (h : s.position ≤ n) : Within n (open? s f) (open? s f) := by
  unfold open?
  cases increment? s.opened with
  | none => exact .none
  | some opened => exact .some h

theorem lexeme_advance_of_second (h : d.second s = .leftParen) : d.lexeme (d.advance s) = .leftParen := by
  unfold second at h
  cases ht : d.tokens[s.position + 1]? with
  | none =>
    rw [ht] at h
    cases h
  | some t =>
    rw [ht] at h
    have hlt := (List.getElem?_eq_some_iff.mp ht).1
    have hafter : d.advance s = { s with position := s.position + 1 } := if_pos (Nat.lt_of_succ_lt hlt)
    rw [hafter, lexeme, token, ht]
    exact h

namespace Agree

theorem lt_length (h : Agree n d d') : n < d.tokens.length := by
  obtain ⟨eof, heof, -⟩ := h.ends
  exact (List.getElem?_eq_some_iff.mp heof).1

theorem token (h : Agree n d d') (hs : s.position ≤ n) : d'.token s = d.token s := by
  have hlt : s.position < d.tokens.length := hs.trans_lt h.lt_length
  rw [Descent.token, Descent.token, h.tokens _ hs, List.getElem?_eq_getElem hlt]
  rfl

theorem lexeme (h : Agree n d d') (hs : s.position ≤ n) : d'.lexeme s = d.lexeme s := by
  rw [Descent.lexeme, Descent.lexeme, h.token hs]

theorem span (h : Agree n d d') (hs : s.position ≤ n) : d'.span s = d.span s := by
  rw [Descent.span, Descent.span, h.token hs]

/-- What is no end of input stands before it. -/
theorem lt_of_lexeme_ne (h : Agree n d d') (hs : s.position ≤ n) (hne : d.lexeme s ≠ .endOfInput) : s.position < n := by
  obtain ⟨eof, heof, hlexeme⟩ := h.ends
  refine hs.lt_of_ne fun heq => hne ?_
  rw [Descent.lexeme, Descent.token, heq, heof]
  exact hlexeme

theorem second (h : Agree n d d') (hs : s.position < n) : d'.second s = d.second s := by
  rw [Descent.second, Descent.second, h.tokens _ hs]

theorem advance (h : Agree n d d') (hs : s.position < n) : d'.advance s = d.advance s ∧ (d.advance s).position ≤ n := by
  have hlt : s.position < d.tokens.length := hs.trans h.lt_length
  have hlt' : s.position < d'.tokens.length :=
    (List.getElem?_eq_some_iff.mp ((h.tokens _ hs.le).trans (List.getElem?_eq_getElem hlt))).1
  rw [Descent.advance, Descent.advance, if_pos hlt, if_pos hlt']
  exact ⟨rfl, hs⟩

theorem previous? (h : Agree n d d') (hs : s.position ≤ n) : d'.previous? s = d.previous? s := by
  rw [Descent.previous?, Descent.previous?, h.tokens _ ((Nat.sub_le _ _).trans hs)]

theorem unexpected (h : Agree n d d') (hs : s.position ≤ n) (context : String) :
    d'.unexpected s context = d.unexpected s context := by
  rw [Descent.unexpected, Descent.unexpected, h.token hs]

theorem enter? (h : Agree n d d') (hs : s.position ≤ n) : Within n (d.enter? s f) (d'.enter? s f) := by
  rw [Descent.enter?, Descent.enter?, h.maxDepth, h.span hs]
  cases increment? s.depth with
  | none => exact .none
  | some depth =>
    dsimp only [Option.bind_eq_bind, Option.bind_some]
    split
    · exact .some hs
    · exact .some hs

theorem close? (h : Agree n d d') (hs : s.position ≤ n) (make : Span → Expr) :
    Within n (d.close? s make) (d'.close? s make) := by
  rw [Descent.close?, Descent.close?, h.lexeme hs, h.unexpected hs]
  split
  · next hl =>
    obtain ⟨hafter, hle⟩ := h.advance (h.lt_of_lexeme_ne hs (by simp [hl]))
    dsimp only
    rw [hafter, h.previous? hle]
    cases decrement? (d.advance s).opened with
    | none => exact .none
    | some opened =>
      cases d.previous? (d.advance s) with
      | none => exact .none
      | some last => exact .some hle
  · exact .some hs

theorem begin? (h : Agree n d d') (hs : s.position ≤ n) (r : Routine) : Within n (d.begin? s r) (d'.begin? s r) := by
  have hafter (hne : d.lexeme s ≠ .endOfInput) := h.advance (h.lt_of_lexeme_ne hs hne)
  cases r with
  | expression => exact h.enter? hs
  | operands | power => exact .some hs
  | unary =>
    dsimp only [Descent.begin?]
    rw [h.lexeme hs, h.span hs]
    cases hsign : sign? (d.lexeme s) with
    | none => exact .some hs
    | some sign =>
      obtain ⟨heq, hle⟩ := hafter (by rintro hl; simp [hl, sign?] at hsign)
      dsimp only
      rw [heq]
      exact h.enter? hle
  | call =>
    dsimp only [Descent.begin?]
    rw [h.lexeme hs, h.span hs]
    cases hl : d.lexeme s with
    | name callee =>
      rw [h.second (h.lt_of_lexeme_ne hs (by simp [hl]))]
      split
      · next hparen =>
        obtain ⟨heq, hle⟩ := hafter (by simp [hl])
        have hnext := lexeme_advance_of_second hparen
        obtain ⟨heq', hle'⟩ := h.advance (h.lt_of_lexeme_ne hle (by simp [hnext]))
        rw [heq, heq']
        exact open?_within hle'
      · exact .some hs
    | _ => exact .some hs
  | arguments =>
    dsimp only [Descent.begin?]
    rw [h.lexeme hs]
    split <;> exact .some hs
  | primary =>
    dsimp only [Descent.begin?]
    rw [h.lexeme hs, h.span hs, h.unexpected hs]
    cases hl : d.lexeme s with
    | int | float | name =>
      obtain ⟨heq, hle⟩ := hafter (by simp [hl])
      dsimp only
      rw [heq]
      exact .some hle
    | leftParen =>
      obtain ⟨heq, hle⟩ := hafter (by simp [hl])
      dsimp only
      rw [heq]
      exact open?_within hle
    | _ => exact .some hs

theorem resume? (h : Agree n d d') (hs : s.position ≤ n) (e : Expr) (f : Frame) :
    Within n (d.resume? s e f) (d'.resume? s e f) := by
  have hafter (hne : d.lexeme s ≠ .endOfInput) := h.advance (h.lt_of_lexeme_ne hs hne)
  cases f with
  | expression | signed | exponent => exact (leave?_within hs).map fun _ => rfl
  | operand strength left =>
    dsimp only [Descent.resume?]
    rw [h.lexeme hs]
    cases hop : strength.op? (d.lexeme s) with
    | none => exact .some hs
    | some op =>
      obtain ⟨heq, hle⟩ := hafter (by rintro hl; cases strength <;> simp [hl, Strength.op?, sumOp?, productOp?] at hop)
      dsimp only
      rw [heq]
      exact .some hle
  | unsigned | uncalled => exact .some hs
  | base =>
    dsimp only [Descent.resume?]
    rw [h.lexeme hs]
    cases hop : powerOp? (d.lexeme s) with
    | none => exact .some hs
    | some op =>
      obtain ⟨heq, hle⟩ := hafter (by rintro hl; simp [hl, powerOp?] at hop)
      dsimp only
      rw [heq]
      exact h.enter? hle
  | arguments => exact .none
  | argument found =>
    dsimp only [Descent.resume?]
    rw [h.lexeme hs, h.span hs]
    split
    · exact .some hs
    · next hl =>
      obtain ⟨heq, hle⟩ := hafter (by simp [hl])
      rw [heq, h.lexeme hle]
      split <;> exact .some hle
    · exact .some hs
  | paren start =>
    dsimp only [Descent.resume?]
    rw [h.lexeme hs, h.span hs]
    split
    · exact .some hs
    · exact h.close? hs _

theorem step? (h : Agree n d d') (hs : s.position ≤ n) : Within n (d.step? s) (d'.step? s) := by
  unfold Descent.step?
  split
  · exact h.begin? hs _
  · apply h.resume?
    exact hs
  · apply h.close?
    exact hs
  · unfold unwind?
    split
    · exact leave?_within hs
    · exact .some hs
  · exact .none

theorem result? (h : Agree n d d') (hs : s.position ≤ n) : d'.result? s = d.result? s := by
  rw [Descent.result?, Descent.result?, h.lexeme hs, h.span hs, h.token hs]

/-- A run stays before the end of input, where the other sequence has the same run. -/
theorem reaches (h : Agree n d d') (hreaches : Reaches d.step? .start s) :
    s.position ≤ n ∧ Reaches d'.step? .start s := by
  induction hreaches with
  | refl => exact ⟨Nat.zero_le n, .refl⟩
  | @tail s t _ hstep ih =>
    obtain ⟨hs, hrun⟩ := ih
    have hwithin := h.step? hs
    generalize hx : d.step? s = x at hwithin
    generalize hy : d'.step? s = y at hwithin
    cases hwithin with
    | none => cases hx.symm.trans hstep
    | some ht =>
      cases hx.symm.trans hstep
      exact ⟨ht, hrun.tail hy⟩

/-- Sequences with the same tokens up to an end of input have the same result. -/
theorem ofTokens_eq (h : Agree n d d') (hmax : d.maxDepth.toNat < 2 ^ 32 - 1) :
    Expr.ofTokens d'.maxDepth d'.tokens = Expr.ofTokens d.maxDepth d.tokens := by
  obtain ⟨last, hlast, hresult⟩ := exists_result hmax
  obtain ⟨last', hlast', hresult'⟩ := exists_result (d := d') (by rwa [h.maxDepth])
  obtain ⟨hle, hrun⟩ := h.reaches hlast
  rw [← h.result? hle] at hresult
  have hend := mem_eval.mpr ⟨hrun, step?_eq_none_of_result? hresult⟩
  have hend' := mem_eval.mpr ⟨hlast', step?_eq_none_of_result? hresult'⟩
  cases Part.mem_unique hend hend'
  exact Option.some.inj (hresult'.symm.trans hresult)

end Agree

/-- An expression has an end of input behind it. -/
theorem exists_endOfInput {maxDepth : UInt32} {tokens : List Token} (h : Expr.ofTokens maxDepth tokens = .ok e) :
    ∃ t ∈ tokens, t.lexeme = .endOfInput := by
  obtain ⟨rest, hend, hsum⟩ := Expr.ofTokens_eq_ok_iff.mp h
  have hg := sum_level_grounded maxDepth.toNat maxDepth.toNat
  have hne : tokens ≠ [] := by
    rintro rfl
    obtain ⟨reason, hreason⟩ := hg.stuck 0 ⟨.endOfInput, .point 0⟩ id
    cases hreason.symm.trans hsum
  have hwithin := hg.reads_on 0 (.ofTokens tokens)
  rw [hsum] at hwithin
  cases hwithin with
  | ok hrest => exact ⟨rest.token, Cursor.mem_of_sees_ofTokens hne (rest.sees_token.of_follows hrest), hend⟩

section Ends

variable {maxDepth : UInt32} {front after after' : List Token} {eof eof' : Token}

/-- The first end of input. -/
theorem exists_first_endOfInput {tokens : List Token} (h : ∃ t ∈ tokens, t.lexeme = .endOfInput) :
    ∃ front eof after, tokens = front ++ eof :: after ∧ (∀ t ∈ front, t.lexeme ≠ .endOfInput) ∧
      eof.lexeme = .endOfInput := by
  induction tokens with
  | nil => simp at h
  | cons t ts ih =>
    by_cases ht : t.lexeme = .endOfInput
    · exact ⟨[], t, ts, rfl, by simp, ht⟩
    · obtain ⟨front, eof, after, rfl, hfront, heof⟩ := ih (by simpa [ht] using h)
      exact ⟨t :: front, eof, after, rfl, List.forall_mem_cons.mpr ⟨ht, hfront⟩, heof⟩

/-- Nothing depends on the tokens behind an end of input. -/
theorem ofTokens_endOfInput (hmax : maxDepth.toNat < 2 ^ 32 - 1) (heof : eof.lexeme = .endOfInput) :
    Expr.ofTokens maxDepth (front ++ eof :: after') = Expr.ofTokens maxDepth (front ++ eof :: after) := by
  have hagree : Agree front.length ⟨front ++ eof :: after, maxDepth⟩ ⟨front ++ eof :: after', maxDepth⟩ := by
    refine ⟨rfl, fun i hi => ?_, eof, by simp, heof⟩
    obtain hlt | rfl := hi.lt_or_eq
    · rw [List.getElem?_append_left hlt, List.getElem?_append_left hlt]
    · simp
  exact hagree.ofTokens_eq hmax

/-- An expression does not depend on its end of input either. -/
theorem ofTokens_before_endOfInput (hmax : maxDepth.toNat < 2 ^ 32 - 1) (hfront : ∀ t ∈ front, t.lexeme ≠ .endOfInput)
    (heof : eof.lexeme = .endOfInput) (heof' : eof'.lexeme = .endOfInput)
    (h : Expr.ofTokens maxDepth (front ++ eof :: after) = .ok e) :
    Expr.ofTokens maxDepth (front ++ eof' :: after') = .ok e := by
  have hcut : Expr.ofTokens maxDepth (front ++ [eof]) = .ok e := (ofTokens_endOfInput hmax heof).trans h
  obtain ⟨hderives, hlt⟩ := derivesWithin_of_ofTokens hfront heof hcut
  refine (ofTokens_endOfInput hmax heof').trans (hderives.ofTokens heof' ?_)
  rw [Expr.depth]
  omega

end Ends

end Descent
end Reckoner
