import Reckoner.Proofs.Decimal.Digits
import Reckoner.Proofs.Expr.Parts
import Reckoner.Proofs.Grammar.Parsing
import Reckoner.Proofs.Grammar.Places
import Reckoner.Proofs.Token.Scanning

/-! The integers in an expression are those that its text spells, and no longer than the text. -/
namespace Reckoner

variable {n : Int} {span : Span}

namespace Grammar

variable {p : Phrase} {ts : List Token} {e : Expr}

/-- An integer is derived from its own token alone. -/
theorem Derives.eq_singleton (h : Derives .sum ts (.int n span)) : ∃ t, ts = [t] ∧ t.lexeme = .int n := by
  cases h with
  | term h =>
  cases h with
  | factor h =>
  cases h with
  | unsigned h =>
  cases h with
  | base h =>
  cases h with
  | primary h =>
  cases h with
  | int h => exact ⟨_, rfl, h⟩

/-- An integer in a derived expression is one of the tokens. -/
theorem Derives.exists_token (h : Derives p ts e) (hn : .int n span ∈ e.parts) :
    ∃ t ∈ ts, t.lexeme = .int n := by
  obtain ⟨run, hrun, hd⟩ := h.exists_run hn
  obtain ⟨t, rfl, ht⟩ := hd.eq_singleton
  exact ⟨t, hrun.subset (List.mem_singleton_self t), ht⟩

end Grammar

namespace Token
open Decimal

theorem Scanned.exists_digits {offset opened : Nat} {rest : List Char} {tokens : List Token}
    (h : Scanned offset opened rest tokens) {t : Token} (ht : t ∈ tokens) (hn : t.lexeme = .int n) :
    ∃ w, Digits w ∧ w.length ≤ rest.length ∧ n = value w := by
  induction h with
  | done =>
    cases List.mem_singleton.mp ht
    cases hn
  | skip _ _ ih =>
    obtain ⟨w, hw, hlength, rfl⟩ := ih ht
    exact ⟨w, hw, hlength.trans (Nat.le_succ _), rfl⟩
  | @lexeme _ _ w _ _ _ hl _ ih =>
    rw [List.length_append]
    obtain rfl | ht := List.mem_cons.mp ht
    · have hspells := hl.spells
      cases hn
      cases hspells with
      | int hw => exact ⟨w, hw, Nat.le_add_right _ _, rfl⟩
      | symbol hsymbol => exact hsymbol.elim
    · obtain ⟨w, hw, hlength, rfl⟩ := ih ht
      exact ⟨w, hw, hlength.trans (Nat.le_add_left _ _), rfl⟩

end Token

/-- Four bits are enough for a digit, so an integer in an expression is shorter than four times its text. -/
theorem natAbs_lt_of_mem_parts {maxDepth : UInt32} {text : String} {tokens : List Token} {e : Expr}
    (ht : Token.ofText text = .ok tokens) (he : Expr.ofTokens maxDepth tokens = .ok e)
    (hn : .int n span ∈ e.parts) : n.natAbs < 2 ^ (4 * text.length) := by
  have hscanned := Token.scanFrom_eq_ok_iff.mp ht
  obtain ⟨ts, eof, rfl, hts, heof⟩ := hscanned.shape
  obtain ⟨t, hmem, hl⟩ := (Grammar.derivesWithin_of_ofTokens hts heof he).1.exists_token hn
  obtain ⟨w, hw, hlength, rfl⟩ := hscanned.exists_digits (List.mem_append_left _ hmem) hl
  calc (Decimal.value w : Int).natAbs = Decimal.value w := Int.natAbs_natCast _
    _ < 10 ^ w.length := Decimal.value_lt hw.2
    _ ≤ 16 ^ w.length := Nat.pow_le_pow_left (by decide) _
    _ ≤ 16 ^ text.length := Nat.pow_le_pow_right (by decide) (hlength.trans_eq String.length_toList)
    _ = 2 ^ (4 * text.length) := by rw [pow_mul]; rfl

end Reckoner
