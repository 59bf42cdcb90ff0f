import Reckoner.Proofs.Expr.Bare
import Reckoner.Proofs.Grammar.Derivation
import Reckoner.Proofs.Token.Context

/-! Derivations depend on the lexemes alone, and never close a parenthesis that they did not open. -/
namespace Reckoner.Grammar
open Token

variable {p : Phrase} {ts us : List Token} {e : Expr} {n : Nat}

/-- Tokens with the same lexemes. -/
def SameLexemes (ts us : List Token) : Prop := ts.map Token.lexeme = us.map Token.lexeme

theorem SameLexemes.append_left {us vs : List Token} (h : SameLexemes ts (us ++ vs)) :
    ∃ us' vs', ts = us' ++ vs' ∧ SameLexemes us' us ∧ SameLexemes vs' vs := by
  rw [SameLexemes, List.map_append, List.map_eq_append_iff] at h
  exact h

theorem SameLexemes.cons_left {t : Token} {us : List Token} (h : SameLexemes ts (t :: us)) :
    ∃ t' us', ts = t' :: us' ∧ t'.lexeme = t.lexeme ∧ SameLexemes us' us := by
  rw [SameLexemes, List.map_cons, List.map_eq_cons_iff] at h
  exact h

theorem SameLexemes.nil_left (h : SameLexemes ts []) : ts = [] := List.map_eq_nil_iff.mp h

theorem Separated.relabel {parts : List (List Token)} {inside inside' : List Token}
    (h : Separated parts inside) (hsame : SameLexemes inside' inside) :
    ∃ parts', Separated parts' inside' ∧ List.Forall₂ SameLexemes parts' parts := by
  induction h generalizing inside' with
  | none =>
    rw [hsame.nil_left]
    exact ⟨[], .none, .nil⟩
  | last part => exact ⟨[inside'], .last inside', .cons hsame .nil⟩
  | comma part hcomma _ ih =>
    obtain ⟨part', rest, rfl, hpart, hrest⟩ := hsame.append_left
    obtain ⟨comma', more', rfl, hlexeme, hmore⟩ := hrest.cons_left
    obtain ⟨parts', hsep, hparts⟩ := ih hmore
    exact ⟨part' :: parts', .comma part' (hlexeme.trans hcomma) hsep, .cons hpart hparts⟩

theorem Separated.intercalate {comma : Token} (hcomma : comma.lexeme = .comma) (parts : List (List Token)) :
    Separated parts ([comma].intercalate parts) := by
  induction parts with
  | nil => exact .none
  | cons part parts ih =>
    cases parts with
    | nil => simpa using Separated.last part
    | cons next parts => simpa [List.intercalate] using Separated.comma part hcomma ih

theorem relabel_args {args : List (List Token × Expr)} {parts : List (List Token)}
    (h : ∀ a ∈ args, ∀ us, SameLexemes us a.1 → ∃ e', Derives .sum us e' ∧ e'.bare = a.2.bare)
    (hparts : List.Forall₂ SameLexemes parts (args.map Prod.fst)) :
    ∃ args' : List (List Token × Expr), args'.map Prod.fst = parts ∧ (∀ a ∈ args', Derives .sum a.1 a.2) ∧
      Expr.bareAll (args'.map Prod.snd) = Expr.bareAll (args.map Prod.snd) := by
  induction args generalizing parts with
  | nil =>
    cases hparts
    exact ⟨[], rfl, by simp, rfl⟩
  | cons a args ih =>
    obtain ⟨hfirst, hmore⟩ := List.forall_mem_cons.mp h
    cases hparts with
    | @cons part _ parts _ hpart hrest =>
      obtain ⟨e', hd, he⟩ := hfirst part hpart
      obtain ⟨args', rfl, hds, hes⟩ := ih hmore hrest
      exact ⟨(part, e') :: args', rfl, List.forall_mem_cons.mpr ⟨hd, hds⟩, congrArg₂ List.cons he hes⟩

theorem relabel_operands {p q : Phrase} {ts rs vs : List Token} {t : Token} {l r : Expr}
    (hl : ∀ us, SameLexemes us ts → ∃ e', Derives p us e' ∧ e'.bare = l.bare)
    (hr : ∀ us, SameLexemes us rs → ∃ e', Derives q us e' ∧ e'.bare = r.bare)
    (hsame : SameLexemes vs (ts ++ t :: rs)) :
    ∃ left t' right l' r', vs = left ++ t' :: right ∧ t'.lexeme = t.lexeme ∧ Derives p left l' ∧
      Derives q right r' ∧ ∀ op, (l'.join op r').bare = (l.join op r).bare := by
  obtain ⟨left, rest, rfl, hleft, hrest⟩ := hsame.append_left
  obtain ⟨t', right, rfl, hlexeme, hright⟩ := hrest.cons_left
  obtain ⟨l', hdl, hbl⟩ := hl left hleft
  obtain ⟨r', hdr, hbr⟩ := hr right hright
  refine ⟨left, t', right, l', r', rfl, hlexeme, hdl, hdr, fun op => ?_⟩
  simp only [Expr.join, Expr.bare, hbl, hbr]

/-- What is derived from tokens is derived from any with the same lexemes, up to places. -/
theorem Derives.relabel (h : Derives p ts e) (hsame : SameLexemes us ts) :
    ∃ e', Derives p us e' ∧ e'.bare = e.bare := by
  induction h generalizing us with
  | term _ ih => exact (ih hsame).imp fun _ => And.imp_left .term
  | factor _ ih => exact (ih hsame).imp fun _ => And.imp_left .factor
  | unsigned _ ih => exact (ih hsame).imp fun _ => And.imp_left .unsigned
  | base _ ih => exact (ih hsame).imp fun _ => And.imp_left .base
  | primary _ ih => exact (ih hsame).imp fun _ => And.imp_left .primary
  | sum _ operator _ ihl ihr =>
    obtain ⟨_, _, _, _, _, rfl, hlexeme, hl, hr, hbare⟩ := relabel_operands (fun _ => ihl) (fun _ => ihr) hsame
    exact ⟨_, .sum hl (hlexeme ▸ operator) hr, hbare _⟩
  | product _ operator _ ihl ihr =>
    obtain ⟨_, _, _, _, _, rfl, hlexeme, hl, hr, hbare⟩ := relabel_operands (fun _ => ihl) (fun _ => ihr) hsame
    exact ⟨_, .product hl (hlexeme ▸ operator) hr, hbare _⟩
  | power _ operator _ ihl ihr =>
    obtain ⟨_, _, _, _, _, rfl, hlexeme, hl, hr, hbare⟩ := relabel_operands (fun _ => ihl) (fun _ => ihr) hsame
    exact ⟨_, .power hl (hlexeme ▸ operator) hr, hbare _⟩
  | sign hsign _ ih =>
    obtain ⟨t', rest, rfl, hlexeme, hrest⟩ := hsame.cons_left
    obtain ⟨e', hd, he⟩ := ih hrest
    exact ⟨_, .sign (hlexeme ▸ hsign) hd, by simp only [Expr.bare, he]⟩
  | call hcallee hopening _ separated hclosing ih =>
    obtain ⟨callee', rest, rfl, hcallee', hrest⟩ := hsame.cons_left
    obtain ⟨opening', rest, rfl, hopening', hrest⟩ := hrest.cons_left
    obtain ⟨inside', rest, rfl, hinside, hrest⟩ := hrest.append_left
    obtain ⟨closing', rest, rfl, hclosing', hrest⟩ := hrest.cons_left
    cases hrest.nil_left
    obtain ⟨parts, hsep, hparts⟩ := separated.relabel hinside
    obtain ⟨args', rfl, hds, hes⟩ := relabel_args (fun a ha us => ih a ha) hparts
    exact ⟨_, .call (hcallee'.trans hcallee) (hopening'.trans hopening) hds hsep (hclosing'.trans hclosing),
      by simp only [Expr.bare, hes]⟩
  | int h =>
    obtain ⟨t', rest, rfl, hlexeme, hrest⟩ := hsame.cons_left
    cases hrest.nil_left
    exact ⟨_, .int (hlexeme.trans h), rfl⟩
  | float h =>
    obtain ⟨t', rest, rfl, hlexeme, hrest⟩ := hsame.cons_left
    cases hrest.nil_left
    exact ⟨_, .float (hlexeme.trans h), rfl⟩
  | name h =>
    obtain ⟨t', rest, rfl, hlexeme, hrest⟩ := hsame.cons_left
    cases hrest.nil_left
    exact ⟨_, .name (hlexeme.trans h), rfl⟩
  | paren hopening _ hclosing ih =>
    obtain ⟨opening', rest, rfl, hopening', hrest⟩ := hsame.cons_left
    obtain ⟨inside', rest, rfl, hinside, hrest⟩ := hrest.append_left
    obtain ⟨closing', rest, rfl, hclosing', hrest⟩ := hrest.cons_left
    cases hrest.nil_left
    obtain ⟨e', hd, he⟩ := ih hinside
    exact ⟨_, .paren (hopening'.trans hopening) hd (hclosing'.trans hclosing), by simp only [Expr.bare, he]⟩

theorem Joins.parensAfter {l : Lexeme} {op : BinaryOp} (h : Joins p l op) (n : Nat) : l.parensAfter n = n := by
  cases h <;> rfl

theorem Signs.parensAfter {l : Lexeme} {s : Sign} (h : Signs l s) (n : Nat) : l.parensAfter n = n := by
  cases h <;> rfl

theorem Separated.stays {parts : List (List Token)} {inside : List Token} (h : Separated parts inside)
    (hn : 0 < n) (hparts : ∀ part ∈ parts, Stays n (part.map Token.lexeme) n) :
    Stays n (inside.map Token.lexeme) n := by
  induction h with
  | none => exact .nil hn
  | last part => exact hparts part (List.mem_singleton_self part)
  | comma part hcomma _ ih =>
    obtain ⟨hpart, hmore⟩ := List.forall_mem_cons.mp hparts
    rw [List.map_append, List.map_cons, hcomma]
    exact hpart.append (.cons hn (ih hmore))

/-- Within parentheses, the tokens of a phrase leave as many open as they find. -/
theorem Derives.stays (h : Derives p ts e) (hn : 0 < n) : Stays n (ts.map Token.lexeme) n := by
  induction h generalizing n with
  | term _ ih | factor _ ih | unsigned _ ih | base _ ih | primary _ ih => exact ih hn
  | sum _ operator _ ihl ihr | product _ operator _ ihl ihr | power _ operator _ ihl ihr =>
    rw [List.map_append, List.map_cons]
    exact (ihl hn).append (.cons hn ((operator.parensAfter n).symm ▸ ihr hn))
  | sign hsign _ ih => exact .cons hn ((hsign.parensAfter n).symm ▸ ih hn)
  | call hcallee hopening _ separated hclosing ih =>
    have hinside := separated.stays (Nat.succ_pos n) (by
      simp only [List.forall_mem_map]
      exact fun a ha => ih a ha (Nat.succ_pos n))
    simp only [List.map_cons, List.map_append, List.map_nil, hcallee, hopening, hclosing]
    exact .cons hn (.cons hn (hinside.append (.cons (Nat.succ_pos n) (.nil hn))))
  | int h | float h | name h =>
    rw [List.map_singleton, h]
    exact .cons hn (.nil hn)
  | paren hopening _ hclosing ih =>
    simp only [List.map_cons, List.map_append, List.map_nil, hopening, hclosing]
    exact .cons hn ((ih (Nat.succ_pos n)).append (.cons (Nat.succ_pos n) (.nil hn)))

end Reckoner.Grammar
