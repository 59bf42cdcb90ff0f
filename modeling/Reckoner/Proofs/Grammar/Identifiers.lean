import Reckoner.Expr.Names
import Reckoner.Proofs.Grammar.Parsing
import Mathlib.Data.List.Basic

/-! The identifiers of an expression are the names among its tokens. -/
namespace Reckoner

def Token.identifier? (t : Token) : Option Identifier :=
  match t.lexeme with
  | .name text => some ⟨text, t.span⟩
  | _ => none

/-- The names among tokens, in their order. -/
def Token.identifiers (ts : List Token) : List Identifier := ts.filterMap Token.identifier?

namespace Token

variable {t : Token} {ts us : List Token}

@[simp] theorem identifiers_nil : identifiers [] = [] := rfl

@[simp] theorem identifiers_append (ts us : List Token) :
    identifiers (ts ++ us) = identifiers ts ++ identifiers us := List.filterMap_append

theorem identifiers_cons_name {text : String} (h : t.lexeme = .name text) (ts : List Token) :
    identifiers (t :: ts) = ⟨text, t.span⟩ :: identifiers ts := by
  simp [identifiers, identifier?, h]

theorem identifiers_cons_other (h : ∀ text, t.lexeme ≠ .name text) (ts : List Token) :
    identifiers (t :: ts) = identifiers ts := by
  have hnone : t.identifier? = none := by
    unfold identifier?
    split
    · next text heq => exact absurd heq (h text)
    · rfl
  simp [identifiers, hnone]

end Token

namespace Grammar

variable {p : Phrase} {ts : List Token} {e : Expr}

theorem Joins.ne_name {l : Lexeme} {op : BinaryOp} (h : Joins p l op) (text : String) : l ≠ .name text := by
  cases h <;> exact Lexeme.noConfusion

theorem Signs.ne_name {l : Lexeme} {s : Sign} (h : Signs l s) (text : String) : l ≠ .name text := by
  cases h <;> exact Lexeme.noConfusion

theorem Separated.identifiers {parts : List (List Token)} {inside : List Token}
    (h : Separated parts inside) : Token.identifiers inside = parts.flatMap Token.identifiers := by
  induction h with
  | none => rfl
  | last part => simp
  | comma part hcomma _ ih =>
    rw [Token.identifiers_append, Token.identifiers_cons_other (by simp [hcomma]), ih]
    rfl

end Grammar

theorem Expr.identifiersOfAll_eq (es : List Expr) : identifiersOfAll es = es.flatMap identifiers := by
  induction es with
  | nil => rfl
  | cons e es ih => simp [identifiersOfAll, ih]

namespace Grammar

variable {p : Phrase} {ts : List Token} {e : Expr}

/-- A derived expression has the names of its tokens, each once and in the same order. -/
theorem Derives.identifiers (h : Derives p ts e) : e.identifiers = Token.identifiers ts := by
  induction h with
  | term _ ih | factor _ ih | unsigned _ ih | base _ ih | primary _ ih => exact ih
  | sum _ operator _ ihl ihr | product _ operator _ ihl ihr | power _ operator _ ihl ihr =>
    rw [Expr.join, Expr.identifiers, ihl, ihr, Token.identifiers_append,
      Token.identifiers_cons_other operator.ne_name]
  | sign hsign _ ih => rw [Expr.identifiers, ih, Token.identifiers_cons_other hsign.ne_name]
  | @call callee opening closing name inside args hcallee hopening _ separated hclosing ih =>
    have hclose := Token.identifiers_cons_other (t := closing) (by simp [hclosing]) []
    rw [Expr.identifiers, Expr.identifiersOfAll_eq, Token.identifiers_cons_name hcallee,
      Token.identifiers_cons_other (by simp [hopening]), Token.identifiers_append, hclose,
      separated.identifiers, Token.identifiers_nil, List.append_nil, List.flatMap_map, List.flatMap_map]
    congr 1
    exact List.flatMap_congr fun a ha => ih a ha
  | int h | float h => rw [Expr.identifiers, Token.identifiers_cons_other (by simp [h]), Token.identifiers_nil]
  | name h => rw [Expr.identifiers, Token.identifiers_cons_name h, Token.identifiers_nil]
  | @paren opening closing ts e hopening _ hclosing ih =>
    have hclose := Token.identifiers_cons_other (t := closing) (by simp [hclosing]) []
    rw [Expr.identifiers, ih, Token.identifiers_cons_other (by simp [hopening]), Token.identifiers_append,
      hclose, Token.identifiers_nil, List.append_nil]

end Grammar
end Reckoner
