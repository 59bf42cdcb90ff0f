import Reckoner.Proofs.Expr.Bare
import Reckoner.Proofs.Grammar.Parsing
import Mathlib.Data.List.Forall2

/-! Expressions are read from the lexemes alone, a caret and a double star being the same: tokens at other
places give the same tree up to places, or fail in the same way. -/
namespace Reckoner

/-- The same failure, but for its place and the details of its message. -/
structure Diagnostic.Alike (d d' : Diagnostic) : Prop where
  kind : d.kind = d'.kind
  code : d.code = d'.code
  display : d.display = d'.display

/-- Both give results in the relation, or both fail alike. -/
inductive Agree {α β : Type} (R : α → β → Prop) : Except Diagnostic α → Except Diagnostic β → Prop
  | ok {a b} (h : R a b) : Agree R (.ok a) (.ok b)
  | error {d d'} (h : d.Alike d') : Agree R (.error d) (.error d')

theorem Agree.bind {α β γ δ : Type} {R : α → β → Prop} {S : γ → δ → Prop} {x : Except Diagnostic α}
    {y : Except Diagnostic β} {f : α → Except Diagnostic γ} {g : β → Except Diagnostic δ} (h : Agree R x y)
    (hf : ∀ a b, R a b → Agree S (f a) (g b)) : Agree S (x >>= f) (y >>= g) := by
  cases h with
  | ok h => exact hf _ _ h
  | error h => exact .error h

theorem Diagnostic.malformed_alike (code : Diagnostic.Code) (message message' : String) (s s' : Span) :
    (malformed code message s).Alike (malformed code message' s') := ⟨rfl, rfl, rfl⟩

theorem Diagnostic.disallowed_alike (construct construct' : String) (s s' : Span) :
    (disallowed construct s).Alike (disallowed construct' s') := ⟨rfl, rfl, rfl⟩

/-- The same lexeme, or the two signs of powers. -/
inductive Lexeme.Alike : Lexeme → Lexeme → Prop
  | refl (l : Lexeme) : Alike l l
  | caret : Alike .caret .starStar
  | starStar : Alike .starStar .caret

namespace Lexeme.Alike
open Grammar

variable {l l' k : Lexeme}

theorem eq_iff (h : l.Alike l') (hcaret : k ≠ .caret) (hstar : k ≠ .starStar) : l = k ↔ l' = k := by
  cases h with
  | refl => exact Iff.rfl
  | caret => simp [hcaret.symm, hstar.symm]
  | starStar => simp [hcaret.symm, hstar.symm]

theorem sumOp?_eq (h : l.Alike l') : sumOp? l = sumOp? l' := by
  cases h <;> rfl

theorem productOp?_eq (h : l.Alike l') : productOp? l = productOp? l' := by
  cases h <;> rfl

theorem powerOp?_eq (h : l.Alike l') : powerOp? l = powerOp? l' := by
  cases h <;> rfl

theorem sign?_eq (h : l.Alike l') : sign? l = sign? l' := by
  cases h <;> rfl

end Lexeme.Alike

/-- Tokens with lexemes that are alike, at any places. -/
def Token.Alike (t t' : Token) : Prop := t.lexeme.Alike t'.lexeme

namespace Cursor

/-- The same tokens to read, at any places. -/
structure Alike (c c' : Cursor) : Prop where
  ahead : List.Forall₂ Token.Alike c.ahead c'.ahead
  final : c.final.Alike c'.final

namespace Alike

variable {c c' : Cursor}

theorem lexeme (h : c.Alike c') : c.lexeme.Alike c'.lexeme := by
  obtain ⟨ahead, final⟩ := c
  obtain ⟨ahead', final'⟩ := c'
  cases h.ahead with
  | nil => exact h.final
  | cons ht _ => exact ht

theorem next (h : c.Alike c') : c.next.Alike c'.next := by
  obtain ⟨ahead, final⟩ := c
  obtain ⟨ahead', final'⟩ := c'
  refine ⟨?_, h.final⟩
  cases h.ahead with
  | nil => exact .nil
  | cons _ hts => exact hts

theorem second (h : c.Alike c') : c.second.Alike c'.second := by
  have htail : List.Forall₂ Token.Alike c.ahead.tail c'.ahead.tail := h.next.ahead
  unfold Cursor.second
  generalize c.ahead.tail = ts at htail ⊢
  generalize c'.ahead.tail = ts' at htail ⊢
  cases htail with
  | nil => exact .refl _
  | cons ht _ => exact ht

theorem length_eq (h : c.Alike c') : c.ahead.length = c'.ahead.length := h.ahead.length_eq

end Alike
end Cursor

namespace Grammar

/-- What is read alike: the same up to places, with the same tokens left. -/
def ReadAlike {α : Type} (R : α → α → Prop) (x y : α × Cursor) : Prop := R x.1 y.1 ∧ x.2.Alike y.2

/-- The rule reads alike from cursors that are alike. -/
def Unplaced {α : Type} (R : α → α → Prop) (r : Rule α) : Prop :=
  ∀ opened c c', c.Alike c' → Agree (ReadAlike R) (r opened c) (r opened c')

/-- The same tree up to places. -/
def SameTree (e e' : Expr) : Prop := e.bare = e'.bare

def SameTrees (es es' : List Expr) : Prop := Expr.bareAll es = Expr.bareAll es'

namespace SameTree

variable {e e' r r' : Expr}

theorem join (h : SameTree e e') (hr : SameTree r r') (op : BinaryOp) :
    SameTree (e.join op r) (e'.join op r') := by
  simp only [SameTree, Expr.join, Expr.bare] at *
  rw [h, hr]

theorem signed (h : SameTree e e') (sign : Sign) (s s' : Span) :
    SameTree (.signed sign e s) (.signed sign e' s') := by
  simp only [SameTree, Expr.bare] at *
  rw [h]

theorem paren (h : SameTree e e') (s s' : Span) : SameTree (.paren e s) (.paren e' s') := by
  simp only [SameTree, Expr.bare] at *
  rw [h]

theorem call {es es' : List Expr} (h : SameTrees es es') (name : String) (s s' t t' : Span) :
    SameTree (.call name s es t) (.call name s' es' t') := by
  simp only [SameTree, SameTrees, Expr.bare] at *
  rw [h]

end SameTree

theorem unexpected_alike {c c' : Cursor} (h : c.Alike c') (context : String) (opened : Nat) :
    (unexpected context opened c).Alike (unexpected context opened c') := by
  have hl := h.lexeme
  unfold unexpected
  generalize c.lexeme = l at hl ⊢
  generalize c'.lexeme = l' at hl ⊢
  cases hl with
  | caret | starStar => exact Diagnostic.malformed_alike _ _ _ _ _
  | refl =>
    split
    · exact Diagnostic.disallowed_alike _ _ _ _
    · split
      · split <;> exact Diagnostic.malformed_alike _ _ _ _ _
      · exact Diagnostic.malformed_alike _ _ _ _ _

variable {opened : Nat} {c c' : Cursor}

theorem closing_unplaced : Unplaced (fun _ _ => True) closing := by
  intro opened c c' h
  have hl := h.lexeme
  unfold closing
  generalize c.lexeme = l at hl ⊢
  generalize c'.lexeme = l' at hl ⊢
  cases hl with
  | caret | starStar => exact .error (unexpected_alike h _ _)
  | refl =>
    split
    · exact .ok ⟨trivial, h.next⟩
    · exact .error (unexpected_alike h _ _)

section Chains

variable {op? : Lexeme → Option BinaryOp} {operand item nested : Rule Expr}

theorem chain_agree (hop : ∀ {l l' : Lexeme}, l.Alike l' → op? l = op? l') (ho : Unplaced SameTree operand)
    {left left' : Expr} (hleft : SameTree left left') (h : c.Alike c') :
    Agree (ReadAlike SameTree) (chain op? operand opened left c) (chain op? operand opened left' c') := by
  induction hn : c.ahead.length using Nat.strongRecOn generalizing c c' left left' with
  | _ n ih =>
  subst hn
  rw [chain_eq_bind, chain_eq_bind, hop h.lexeme]
  cases op? c'.lexeme with
  | none => exact .ok ⟨hleft, h⟩
  | some op =>
    apply (ho opened _ _ h.next).bind
    rintro ⟨right, rest⟩ ⟨right', rest'⟩ ⟨hright, hrest⟩
    dsimp only
    rw [hrest.length_eq, h.length_eq]
    split
    · next hless => exact ih _ (by rwa [hrest.length_eq, h.length_eq]) (hleft.join hright op) hrest rfl
    · exact .ok ⟨hleft.join hright op, hrest⟩

theorem leftAssociative_unplaced (hop : ∀ {l l' : Lexeme}, l.Alike l' → op? l = op? l')
    (ho : Unplaced SameTree operand) : Unplaced SameTree (leftAssociative op? operand) := by
  intro opened c c' h
  apply (ho opened c c' h).bind
  rintro ⟨first, rest⟩ ⟨first', rest'⟩ ⟨hfirst, hrest⟩
  exact chain_agree hop ho hfirst hrest

theorem sum_unplaced (ho : Unplaced SameTree operand) : Unplaced SameTree (sum operand) :=
  leftAssociative_unplaced Lexeme.Alike.sumOp?_eq (leftAssociative_unplaced Lexeme.Alike.productOp?_eq ho)

theorem arguments_agree (hi : Unplaced SameTree item) (h : c.Alike c') :
    Agree (ReadAlike SameTrees) (arguments item opened c) (arguments item opened c') := by
  induction hn : c.ahead.length using Nat.strongRecOn generalizing c c' with
  | _ n ih =>
  subst hn
  have hclose := h.lexeme.eq_iff (k := .rightParen) (by simp) (by simp)
  by_cases hparen : c.lexeme = .rightParen
  · rw [arguments.eq_def, arguments.eq_def, hparen, hclose.mp hparen]
    exact .ok ⟨rfl, h⟩
  rw [arguments_eq_bind hparen, arguments_eq_bind fun hparen' => hparen (hclose.mpr hparen')]
  apply (hi opened _ _ h).bind
  rintro ⟨first, rest⟩ ⟨first', rest'⟩ ⟨hfirst, hrest⟩
  have hlast : SameTrees [first] [first'] := congrArg (· :: []) hfirst
  have hl := hrest.lexeme
  dsimp only
  generalize rest.lexeme = l at hl ⊢
  generalize rest'.lexeme = l' at hl ⊢
  cases hl with
  | caret | starStar => exact .ok ⟨hlast, hrest⟩
  | refl =>
    split
    · exact .error (Diagnostic.disallowed_alike _ _ _ _)
    · rw [hrest.next.length_eq, h.length_eq]
      split
      · next hless =>
        refine (ih _ (by rwa [hrest.next.length_eq, h.length_eq]) hrest.next rfl).bind ?_
        rintro ⟨others, after⟩ ⟨others', after'⟩ ⟨hothers, hafter⟩
        exact .ok ⟨congrArg₂ List.cons hfirst hothers, hafter⟩
      · exact .ok ⟨hlast, hrest.next⟩
    · exact .ok ⟨hlast, hrest⟩

theorem primary_unplaced (hn : Unplaced SameTree nested) : Unplaced SameTree (primary nested) := by
  intro opened c c' h
  have hl := h.lexeme
  unfold primary
  dsimp only
  generalize c.lexeme = l at hl ⊢
  generalize c'.lexeme = l' at hl ⊢
  cases hl with
  | caret | starStar => exact .error (unexpected_alike h _ _)
  | refl =>
    split
    · exact .ok ⟨rfl, h.next⟩
    · exact .ok ⟨rfl, h.next⟩
    · exact .ok ⟨rfl, h.next⟩
    · apply (sum_unplaced hn (opened + 1) _ _ h.next).bind
      rintro ⟨inner, rest⟩ ⟨inner', rest'⟩ ⟨hinner, hrest⟩
      have hend := hrest.lexeme
      dsimp only
      generalize rest.lexeme = l at hend ⊢
      generalize rest'.lexeme = l' at hend ⊢
      have hclose : Agree (ReadAlike SameTree)
          (closing (opened + 1) rest >>= fun x => .ok (.paren inner (c.span.merge x.1.span), x.2))
          (closing (opened + 1) rest' >>= fun x => .ok (.paren inner' (c'.span.merge x.1.span), x.2)) :=
        (closing_unplaced _ _ _ hrest).bind fun _ _ hafter => .ok ⟨hinner.paren _ _, hafter.2⟩
      cases hend with
      | caret | starStar => exact hclose
      | refl =>
        split
        · exact .error (Diagnostic.disallowed_alike _ _ _ _)
        · exact hclose
    · exact .error (Diagnostic.disallowed_alike _ _ _ _)
    · exact .error (unexpected_alike h _ _)

theorem call_unplaced (hn : Unplaced SameTree nested) : Unplaced SameTree (call nested) := by
  intro opened c c' h
  have hname (name) := h.lexeme.eq_iff (k := .name name) (by simp) (by simp)
  have hparen := h.second.eq_iff (k := .leftParen) (by simp) (by simp)
  by_cases hcall : ∃ name, c.lexeme = .name name ∧ c.second = .leftParen
  · obtain ⟨name, hcallee, hopening⟩ := hcall
    rw [call_eq_bind nested opened hcallee hopening,
      call_eq_bind nested opened ((hname name).mp hcallee) (hparen.mp hopening)]
    apply (arguments_agree (sum_unplaced hn) h.next.next).bind
    rintro ⟨args, rest⟩ ⟨args', rest'⟩ ⟨hargs, hrest⟩
    exact (closing_unplaced _ _ _ hrest).bind fun _ _ hafter => .ok ⟨.call hargs _ _ _ _ _, hafter.2⟩
  · rw [call_eq_primary fun name hl hs => hcall ⟨name, hl, hs⟩,
      call_eq_primary fun name hl hs => hcall ⟨name, (hname name).mpr hl, hparen.mpr hs⟩]
    exact primary_unplaced hn opened c c' h

theorem power_unplaced (hn : Unplaced SameTree nested) : Unplaced SameTree (power nested) := by
  intro opened c c' h
  apply (call_unplaced hn opened c c' h).bind
  rintro ⟨base, rest⟩ ⟨base', rest'⟩ ⟨hbase, hrest⟩
  dsimp only
  rw [hrest.lexeme.powerOp?_eq]
  cases powerOp? rest'.lexeme with
  | none => exact .ok ⟨hbase, hrest⟩
  | some op => exact (hn opened _ _ hrest.next).bind fun _ _ hafter => .ok ⟨hbase.join hafter.1 op, hafter.2⟩

theorem unary_unplaced (hn : Unplaced SameTree nested) : Unplaced SameTree (unary nested) := by
  intro opened c c' h
  unfold unary
  rw [h.lexeme.sign?_eq]
  cases sign? c'.lexeme with
  | none => exact power_unplaced hn opened c c' h
  | some sign => exact (hn opened _ _ h.next).bind fun _ _ hrest => .ok ⟨hrest.1.signed sign _ _, hrest.2⟩

end Chains

theorem level_unplaced (maxDepth levels : Nat) : Unplaced SameTree (level maxDepth levels) := by
  induction levels with
  | zero => exact fun opened c c' _ => .error (Diagnostic.malformed_alike _ _ _ _ _)
  | succ levels ih => exact unary_unplaced ih

end Grammar

theorem Cursor.ofTokens_alike {tokens tokens' : List Token} (h : List.Forall₂ Token.Alike tokens tokens') :
    (ofTokens tokens).Alike (ofTokens tokens') := by
  have hlast := List.rel_reverse h
  refine ⟨h, ?_⟩
  simp only [ofTokens, List.getLast?_eq_head?_reverse]
  generalize tokens.reverse = ts at hlast ⊢
  generalize tokens'.reverse = ts' at hlast ⊢
  cases hlast with
  | nil => exact .refl _
  | cons ht _ => exact ht

/-- Tokens that are alike stand for the same expression up to places, or are rejected alike. -/
theorem Expr.ofTokens_agree (maxDepth : UInt32) {tokens tokens' : List Token}
    (h : List.Forall₂ Token.Alike tokens tokens') :
    Agree (fun e e' => e.bare = e'.bare) (ofTokens maxDepth tokens) (ofTokens maxDepth tokens') := by
  have hlevel := Grammar.level_unplaced maxDepth.toNat maxDepth.toNat
  apply (Grammar.sum_unplaced hlevel 0 _ _ (Cursor.ofTokens_alike h)).bind
  rintro ⟨e, rest⟩ ⟨e', rest'⟩ ⟨he, hrest⟩
  have hl := hrest.lexeme
  dsimp only
  generalize rest.lexeme = l at hl ⊢
  generalize rest'.lexeme = l' at hl ⊢
  cases hl with
  | caret | starStar => exact .error (Grammar.unexpected_alike hrest _ _)
  | refl =>
    split
    · exact .ok he
    · exact .error (Diagnostic.disallowed_alike _ _ _ _)
    · exact .error (Diagnostic.malformed_alike _ _ _ _ _)
    · exact .error (Grammar.unexpected_alike hrest _ _)

end Reckoner
