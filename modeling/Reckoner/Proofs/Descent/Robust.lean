import Reckoner.Proofs.Descent.EndOfInput

/-! Whatever the tokens are, with or without an end of input: the machine ends without a fault and within its bounds,
and an expression comes of the tokens before the first end of input alone. -/
namespace Reckoner
namespace Descent
open StateTransition

/-- On any tokens each state of the run keeps its bounds, and is final or has a next one. The run ends with the result
of the grammar. An expression stays the same with another end of input, and any result with other tokens behind it. -/
theorem reads_any_tokens (d : Descent) (hmax : d.maxDepth.toNat < 2 ^ 32 - 1) :
    (∀ s, Reaches d.step? .start s →
      Bounded d s ∧ ((∃ result, d.result? s = some result) ∨ ∃ t, d.step? s = some t)) ∧
    (∃ last ∈ eval d.step? .start, d.result? last = some (Expr.ofTokens d.maxDepth d.tokens)) ∧
    (∀ e, Expr.ofTokens d.maxDepth d.tokens = .ok e →
      ∃ front eof after, d.tokens = front ++ eof :: after ∧ (∀ t ∈ front, t.lexeme ≠ .endOfInput) ∧
        eof.lexeme = .endOfInput ∧ ∀ eof' after', eof'.lexeme = .endOfInput →
          Expr.ofTokens d.maxDepth (front ++ eof' :: after') = .ok e) ∧
    (∀ front eof after after', d.tokens = front ++ eof :: after → eof.lexeme = .endOfInput →
      Expr.ofTokens d.maxDepth (front ++ eof :: after') = Expr.ofTokens d.maxDepth d.tokens) := by
  refine ⟨fun s hreaches => ?_, ?_, fun e h => ?_, fun front eof after after' htokens heof => ?_⟩
  · have hsound := (sound_start d).of_reaches hmax hreaches
    exact ⟨hsound.bounded, (hsound.step hmax).imp_right fun ⟨t, ht, _⟩ => ⟨t, ht⟩⟩
  · obtain ⟨last, hreaches, hresult⟩ := exists_result hmax
    exact ⟨last, mem_eval.mpr ⟨hreaches, step?_eq_none_of_result? hresult⟩, hresult⟩
  · obtain ⟨front, eof, after, htokens, hfront, heof⟩ := exists_first_endOfInput (exists_endOfInput h)
    rw [htokens] at h
    exact ⟨front, eof, after, htokens, hfront, heof,
      fun eof' after' heof' => ofTokens_before_endOfInput hmax hfront heof heof' h⟩
  · rw [htokens]
    exact ofTokens_endOfInput hmax heof

/-- A sign that is repeated past its end comes to the limit; tokens behind an end of input are not looked at. -/
theorem reads_lone_sign_and_number :
    let sign : Descent := ⟨[⟨.plus, ⟨0, 1⟩⟩], 3⟩
    let number : Descent := ⟨[⟨.int 7, ⟨0, 1⟩⟩, ⟨.endOfInput, ⟨1, 1⟩⟩, ⟨.plus, ⟨2, 3⟩⟩], 3⟩
    (∃ last ∈ eval sign.step? .start, sign.result? last = some (.error (Grammar.nestingError 3 ⟨0, 1⟩))) ∧
      ∃ last ∈ eval number.step? .start, number.result? last = some (.ok (.int 7 ⟨0, 1⟩)) := by
  intro sign number
  have hsign : Expr.ofTokens sign.maxDepth sign.tokens = .error (Grammar.nestingError 3 ⟨0, 1⟩) := rfl
  have hseven : Grammar.Derives .sum [⟨.int 7, ⟨0, 1⟩⟩] (.int 7 ⟨0, 1⟩) :=
    .term (.factor (.unsigned (.base (.primary (.int rfl)))))
  obtain ⟨-, hresult, -, hbehind⟩ := reads_any_tokens number (by decide)
  have hcut := hbehind [⟨.int 7, ⟨0, 1⟩⟩] _ _ [] rfl rfl
  have hnumber : Expr.ofTokens number.maxDepth number.tokens = .ok (.int 7 ⟨0, 1⟩) :=
    hcut.symm.trans (hseven.ofTokens rfl (by decide))
  rw [← hsign, ← hnumber]
  exact ⟨(reads_any_tokens sign (by decide)).2.1, hresult⟩

end Descent
end Reckoner
