import Reckoner.Expr.Grammar
import Reckoner.Proofs.Expr.Size

/-! The grammar of expressions apart from how it is read: which token sequences derive which trees.
A node covers its tokens from the first to the last one. -/
namespace Reckoner.Grammar

/-- The kinds of phrases, from the loosest binding to the tightest. -/
inductive Phrase where
  | sum
  | product
  | unary
  | power
  | call
  | primary

/-- The operators that join the operands of a phrase. -/
inductive Joins : Phrase → Lexeme → BinaryOp → Prop
  | plus : Joins .sum .plus .add
  | minus : Joins .sum .minus .sub
  | star : Joins .product .star .mul
  | slash : Joins .product .slash .div
  | slashSlash : Joins .product .slashSlash .floorDiv
  | percent : Joins .product .percent .mod
  | starStar : Joins .power .starStar .pow
  | caret : Joins .power .caret .pow

inductive Signs : Lexeme → Sign → Prop
  | minus : Signs .minus .negative
  | plus : Signs .plus .positive

/-- Parts with a comma between any two of them, and perhaps one after the last. -/
inductive Separated : List (List Token) → List Token → Prop
  | none : Separated [] []
  | last (part : List Token) : Separated [part] part
  | comma {comma : Token} (part : List Token) {parts : List (List Token)} {rest : List Token}
      (hcomma : comma.lexeme = .comma) (more : Separated parts rest) :
      Separated (part :: parts) (part ++ comma :: rest)

/-- Sums and products group to the left; a power has a call on its left and a signed operand on its
right, so powers group to the right and bind tighter than a sign before them. -/
inductive Derives : Phrase → List Token → Expr → Prop
  | term {ts e} (operand : Derives .product ts e) : Derives .sum ts e
  | sum {t ts us l r op} (left : Derives .sum ts l) (operator : Joins .sum t.lexeme op)
      (right : Derives .product us r) : Derives .sum (ts ++ t :: us) (l.join op r)
  | factor {ts e} (operand : Derives .unary ts e) : Derives .product ts e
  | product {t ts us l r op} (left : Derives .product ts l) (operator : Joins .product t.lexeme op)
      (right : Derives .unary us r) : Derives .product (ts ++ t :: us) (l.join op r)
  | sign {t ts s e} (hsign : Signs t.lexeme s) (operand : Derives .unary ts e) :
      Derives .unary (t :: ts) (.signed s e (t.span.merge e.span))
  | unsigned {ts e} (operand : Derives .power ts e) : Derives .unary ts e
  | power {t ts us b x op} (base : Derives .call ts b) (operator : Joins .power t.lexeme op)
      (exponent : Derives .unary us x) : Derives .power (ts ++ t :: us) (b.join op x)
  | base {ts e} (operand : Derives .call ts e) : Derives .power ts e
  | call {callee opening closing : Token} {name inside} {args : List (List Token × Expr)}
      (hcallee : callee.lexeme = .name name) (hopening : opening.lexeme = .leftParen)
      (hargs : ∀ a ∈ args, Derives .sum a.1 a.2) (separated : Separated (args.map Prod.fst) inside)
      (hclosing : closing.lexeme = .rightParen) :
      Derives .call (callee :: opening :: (inside ++ [closing]))
        (.call name callee.span (args.map Prod.snd) (callee.span.merge closing.span))
  | primary {ts e} (operand : Derives .primary ts e) : Derives .call ts e
  | int {t : Token} {n} (h : t.lexeme = .int n) : Derives .primary [t] (.int n t.span)
  | float {t : Token} {x} (h : t.lexeme = .float x) : Derives .primary [t] (.float x t.span)
  | name {t : Token} {s} (h : t.lexeme = .name s) : Derives .primary [t] (.name s t.span)
  | paren {opening closing : Token} {ts e} (hopening : opening.lexeme = .leftParen)
      (inner : Derives .sum ts e) (hclosing : closing.lexeme = .rightParen) :
      Derives .primary (opening :: (ts ++ [closing])) (.paren e (opening.span.merge closing.span))

variable {parts : List (List Token)} {inside part : List Token}

/-- The parts stand one after another. -/
theorem Separated.flatten_sublist (h : Separated parts inside) : parts.flatten.Sublist inside := by
  induction h with
  | none => exact .slnil
  | last part => simp
  | comma part _ _ ih => exact (List.Sublist.refl part).append (ih.cons _)

theorem Separated.isInfix (h : Separated parts inside) (hpart : part ∈ parts) : part <:+: inside := by
  induction h with
  | none => cases hpart
  | last first =>
    cases List.mem_singleton.mp hpart
    exact List.infix_refl part
  | comma first _ _ ih =>
    obtain rfl | hpart := List.mem_cons.mp hpart
    · exact (List.prefix_append part _).isInfix
    · exact (ih hpart).trans ((List.suffix_cons _ _).trans (List.suffix_append first _)).isInfix

theorem sumOp?_eq_some_iff (l : Lexeme) (op : BinaryOp) : sumOp? l = some op ↔ Joins .sum l op := by
  constructor
  · intro h
    cases l <;> cases h <;> constructor
  · rintro (_ | _) <;> rfl

theorem productOp?_eq_some_iff (l : Lexeme) (op : BinaryOp) :
    productOp? l = some op ↔ Joins .product l op := by
  constructor
  · intro h
    cases l <;> cases h <;> constructor
  · rintro (_ | _ | _ | _) <;> rfl

theorem powerOp?_eq_some_iff (l : Lexeme) (op : BinaryOp) :
    powerOp? l = some op ↔ Joins .power l op := by
  constructor
  · intro h
    cases l <;> cases h <;> constructor
  · rintro (_ | _) <;> rfl

theorem sign?_eq_some_iff (l : Lexeme) (s : Sign) : sign? l = some s ↔ Signs l s := by
  constructor
  · intro h
    cases l <;> cases h <;> constructor
  · rintro (_ | _) <;> rfl

end Reckoner.Grammar
