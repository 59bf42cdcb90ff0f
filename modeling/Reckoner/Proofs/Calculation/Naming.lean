import Reckoner.Calculation
import Reckoner.Proofs.Evaluator.Naming
import Reckoner.Proofs.Grammar.Identifiers
import Reckoner.Proofs.Token.Scanning

/-! The names of a text decide whether it is evaluated at all. -/
namespace Reckoner

variable {limits : Limits} {source name : String} {span : Span} {e : Expr} {tokens : List Token}

/-- Only an unknown name is reported as one. -/
theorem EvalError.diagnostic_ne_nameNotAllowed {d : EvalError} (h : ∀ name span, d ≠ .nameNotAllowed name span)
    (name : String) (span : Span) : d.diagnostic ≠ .nameNotAllowed name span := by
  cases d with
  | nameNotAllowed name span => exact absurd rfl (h name span)
  | _ => exact Diagnostic.noConfusion

namespace Calculation

/-- What is read is validated, and only then evaluated. -/
theorem evaluate_of_read (h : read limits source = .ok e) : evaluate limits source =
    Whitelist.validate e >>= fun _ => (Evaluator.run limits 0 e).1.mapError EvalError.diagnostic := by
  rw [evaluate, result, h]
  change Except.map Result.value (Whitelist.validate e >>= _) = _
  cases Whitelist.validate e with
  | error d => rfl
  | ok u => cases Evaluator.run limits 0 e with
    | mk outcome gas => cases outcome <;> rfl

theorem read_eq_ok_iff : read limits source = .ok e ↔ source.length ≤ limits.maxInputLength.toNat ∧
    ∃ tokens, Token.ofText source = .ok tokens ∧ Expr.ofTokens limits.maxDepth tokens = .ok e := by
  unfold read
  by_cases hlong : limits.maxInputLength.toNat < source.length
  · simp only [if_pos hlong]
    constructor
    · intro h
      cases h
    · intro h
      omega
  · simp only [if_neg hlong]
    change Token.ofText source >>= Expr.ofTokens limits.maxDepth = .ok e ↔ _
    rw [bind_eq_ok_iff]
    exact ⟨fun h => ⟨Nat.not_lt.mp hlong, h⟩, And.right⟩

end Calculation

theorem Expr.identifiers_of_ofTokens {maxDepth : UInt32} {ts : List Token} {eof : Token}
    (hts : ∀ t ∈ ts, t.lexeme ≠ .endOfInput) (heof : eof.lexeme = .endOfInput)
    (h : Expr.ofTokens maxDepth (ts ++ [eof]) = .ok e) : e.identifiers = Token.identifiers ts :=
  (Grammar.derivesWithin_of_ofTokens hts heof h).1.identifiers

/-- The names of a text are its name tokens; the first of them that is not allowed is reported whatever
else is wrong, and evaluation after that never meets another. -/
theorem names_are_checked_first :
    (∀ (maxDepth : UInt32) (ts : List Token) (eof : Token) (e : Expr),
      (∀ t ∈ ts, t.lexeme ≠ .endOfInput) → eof.lexeme = .endOfInput →
      Expr.ofTokens maxDepth (ts ++ [eof]) = .ok e → e.identifiers = Token.identifiers ts) ∧
    (∀ (limits : Limits) (source : String) (tokens : List Token) (e : Expr),
      Token.ofText source = .ok tokens → Calculation.read limits source = .ok e →
      ∀ name span, Calculation.evaluate limits source = .error (.nameNotAllowed name span) ↔
        (Token.identifiers tokens).find? (fun i => i.name ∉ Whitelist.names) = some ⟨name, span⟩) ∧
    (∀ e, Whitelist.validate e = .ok () → ∀ (limits : Limits) (gas : Nat) (name : String) (span : Span),
      (Evaluator.run limits gas e).1 ≠ .error (.nameNotAllowed name span)) := by
  refine ⟨fun maxDepth ts eof e => Expr.identifiers_of_ofTokens,
    fun limits source tokens e ht hr name span => ?_,
    fun e h limits gas name span => Evaluator.run_ne_nameNotAllowed h limits gas⟩
  obtain ⟨ts, eof, rfl, hts, heof⟩ := Token.scanFrom_shape ht
  obtain ⟨-, tokens, ht', hp⟩ := Calculation.read_eq_ok_iff.mp hr
  cases ht.symm.trans ht'
  have hids : Token.identifiers (ts ++ [eof]) = e.identifiers := by
    rw [Expr.identifiers_of_ofTokens hts heof hp, Token.identifiers_append,
      Token.identifiers_cons_other (by simp [heof]), Token.identifiers_nil, List.append_nil]
  rw [Calculation.evaluate_of_read hr, hids, Whitelist.validate_eq]
  cases hfind : e.identifiers.find? fun i => i.name ∉ Whitelist.names with
  | some i =>
    change (.error (.nameNotAllowed i.name i.span) : Except Diagnostic Number) = _ ↔ _
    cases i
    simp
  | none =>
    have hvalid : Whitelist.validate e = .ok () := by rw [Whitelist.validate_eq, hfind]
    change (Evaluator.run limits 0 e).1.mapError EvalError.diagnostic = _ ↔ _
    simp only [reduceCtorEq, iff_false]
    cases hrun : (Evaluator.run limits 0 e).1 with
    | ok x => exact fun h => by cases h
    | error d =>
      have hd (name span) : d ≠ .nameNotAllowed name span := fun hd =>
        Evaluator.run_ne_nameNotAllowed hvalid limits 0 (hrun.trans (congrArg Except.error hd))
      exact fun h => EvalError.diagnostic_ne_nameNotAllowed hd name span (Except.error.inj h)

/-- An unknown name is reported before the division by zero on its left. -/
theorem unknown_name_before_zero_division :
    Calculation.evaluate .standard "1/0+x(e)" = .error (.nameNotAllowed "x" ⟨4, 5⟩) := by
  have htokens : Token.ofText "1/0+x(e)" = .ok [⟨.int 1, ⟨0, 1⟩⟩, ⟨.slash, ⟨1, 2⟩⟩, ⟨.int 0, ⟨2, 3⟩⟩,
      ⟨.plus, ⟨3, 4⟩⟩, ⟨.name "x", ⟨4, 5⟩⟩, ⟨.leftParen, ⟨5, 6⟩⟩, ⟨.name "e", ⟨6, 7⟩⟩, ⟨.rightParen, ⟨7, 8⟩⟩,
      ⟨.endOfInput, ⟨8, 8⟩⟩] := by
    cbv
  obtain ⟨e, hread⟩ : ∃ e, Calculation.read .standard "1/0+x(e)" = .ok e := ⟨_, by cbv⟩
  exact (names_are_checked_first.2.1 .standard _ _ e htokens hread "x" ⟨4, 5⟩).mpr (by decide)

end Reckoner
