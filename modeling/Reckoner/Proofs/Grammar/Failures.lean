import Reckoner.Proofs.Failure
import Reckoner.Proofs.Grammar.Reading

/-! Where the grammar fails: at a token that it has reached, and with no complaint about anything else. -/
namespace Reckoner

/-- The diagnostic is about this token: about its place, and the grammar's to make. -/
structure Diagnostic.Refuses (d : Diagnostic) (t : Token) : Prop where
  span : d.span? = some t.span
  code : d.code.kind = d.kind
  kind : d.kind = .malformed ∨ d.kind = .disallowedConstruct
  ne_unexpectedCharacter : d.code ≠ .unexpectedCharacter

namespace Cursor

/-- The cursor sees a token now or later. -/
def Sees (c : Cursor) (t : Token) : Prop := t ∈ c.ahead ∨ t = c.final

/-- A cursor further on in the same tokens. -/
structure Follows (rest c : Cursor) : Prop where
  ahead : rest.ahead <:+ c.ahead
  final : rest.final = c.final

variable {c rest after : Cursor} {t : Token}

theorem Follows.refl (c : Cursor) : c.Follows c := ⟨List.suffix_rfl, rfl⟩

theorem Follows.trans (h : after.Follows rest) (h' : rest.Follows c) : after.Follows c :=
  ⟨h.ahead.trans h'.ahead, h.final.trans h'.final⟩

theorem Follows.next (h : rest.Follows c) : rest.next.Follows c :=
  ⟨(List.tail_suffix _).trans h.ahead, h.final⟩

theorem Sees.of_follows (h : rest.Sees t) (hf : rest.Follows c) : c.Sees t := by
  apply h.imp
  · exact fun ht => hf.ahead.subset ht
  · exact fun ht => ht.trans hf.final

theorem sees_token (c : Cursor) : c.Sees c.token := by
  obtain ⟨ahead, final⟩ := c
  cases ahead with
  | nil => exact .inr rfl
  | cons t ts => exact .inl (List.mem_cons_self ..)

theorem mem_of_sees_ofTokens {tokens : List Token} (hne : tokens ≠ []) (h : (ofTokens tokens).Sees t) :
    t ∈ tokens := by
  obtain h | rfl := h
  · exact h
  · simp only [ofTokens, List.getLast?_eq_some_getLast hne, Option.getD_some]
    exact List.getLast_mem hne

end Cursor

namespace Grammar

variable {α β : Type} {c rest : Cursor} {opened : Nat}

/-- A reading from a cursor goes on to one further on, or fails at a token that the cursor sees. -/
inductive Within (c : Cursor) : Except Diagnostic (α × Cursor) → Prop
  | ok {a rest} (h : rest.Follows c) : Within c (.ok (a, rest))
  | error {d t} (ht : c.Sees t) (h : d.Refuses t) : Within c (.error d)

theorem Within.mono {x : Except Diagnostic (α × Cursor)} (h : Within rest x) (hf : rest.Follows c) :
    Within c x := by
  cases h with
  | ok h => exact .ok (h.trans hf)
  | error ht h => exact .error (ht.of_follows hf) h

theorem Within.bind {x : Except Diagnostic (α × Cursor)} {f : α × Cursor → Except Diagnostic (β × Cursor)}
    (h : Within c x) (hf : ∀ a rest, Within rest (f (a, rest))) : Within c (x >>= f) := by
  cases h with
  | ok h => exact (hf _ _).mono h
  | error ht h => exact .error ht h

/-- The rule reads onwards from any cursor. -/
def Local (r : Rule α) : Prop := ∀ opened c, Within c (r opened c)

theorem refuses_malformed {code : Diagnostic.Code} (message : String) (t : Token)
    (hkind : code.kind = .malformed) (hne : code ≠ .unexpectedCharacter) :
    (Diagnostic.malformed code message t.span).Refuses t :=
  ⟨rfl, hkind, .inl rfl, hne⟩

theorem refuses_disallowed (construct : String) (t : Token) :
    (Diagnostic.disallowed construct t.span).Refuses t where
  span := rfl
  code := (by decide : Diagnostic.Code.disallowedConstruct.kind = .disallowedConstruct)
  kind := .inr rfl
  ne_unexpectedCharacter := (by decide : Diagnostic.Code.disallowedConstruct ≠ .unexpectedCharacter)

theorem unexpected_refuses (context : String) (opened : Nat) (c : Cursor) :
    (unexpected context opened c).Refuses c.token := by
  unfold unexpected
  split
  · exact refuses_disallowed _ _
  · split
    · split <;> exact refuses_malformed _ _ (by decide) (by decide)
    · exact refuses_malformed _ _ (by decide) (by decide)

theorem within_disallowed (construct : String) (c : Cursor) :
    Within c (.error (.disallowed construct c.span) : Except Diagnostic (α × Cursor)) :=
  .error c.sees_token (refuses_disallowed _ _)

theorem within_unexpected (context : String) (opened : Nat) (c : Cursor) :
    Within c (.error (unexpected context opened c) : Except Diagnostic (α × Cursor)) :=
  .error c.sees_token (unexpected_refuses _ _ _)

theorem closing_local : Local closing := by
  intro opened c
  unfold closing
  split
  · exact .ok (.next (.refl c))
  · exact within_unexpected _ _ _

section Chains

variable {op? : Lexeme → Option BinaryOp} {operand nested : Rule Expr}

theorem chain_within (ho : Local operand) (left : Expr) : Within c (chain op? operand opened left c) := by
  fun_induction chain op? operand opened left c with
  | case1 left c _ => exact .ok (.refl c)
  | case2 left c op _ d hd => exact hd ▸ (ho opened c.next).mono (.next (.refl c))
  | case3 left c op _ right rest hr _ ih =>
    have hrest := (ho opened c.next).mono (.next (.refl c))
    rw [hr] at hrest
    cases hrest with
    | ok h => exact ih.mono h
  | case4 left c op _ right rest hr _ =>
    have hrest := (ho opened c.next).mono (.next (.refl c))
    rw [hr] at hrest
    cases hrest with
    | ok h => exact .ok h

theorem leftAssociative_local (ho : Local operand) : Local (leftAssociative op? operand) := by
  intro opened c
  apply (ho opened c).bind
  intro first rest
  exact chain_within ho first

theorem sum_local (ho : Local operand) : Local (sum operand) :=
  leftAssociative_local (leftAssociative_local ho)

/-- The induction is on the tokens ahead: a comma is passed before the other arguments are read. -/
theorem arguments_within {item : Rule Expr} (hi : Local item) (opened : Nat) (c : Cursor) :
    Within c (arguments item opened c) := by
  induction hn : c.ahead.length using Nat.strongRecOn generalizing c with
  | _ n ih =>
  subst hn
  by_cases hclose : c.lexeme = .rightParen
  · rw [arguments.eq_def, hclose]
    exact .ok (.refl c)
  rw [arguments_eq_bind hclose]
  apply (hi opened c).bind
  intro first rest
  dsimp only
  split
  · exact within_disallowed _ _
  · split
    · next hless =>
      apply ((ih _ hless rest.next rfl).mono (.next (.refl rest))).bind
      intro others after
      exact .ok (.refl after)
    · exact .ok (.next (.refl rest))
  · exact .ok (.refl rest)

theorem primary_local (hn : Local nested) : Local (primary nested) := by
  intro opened c
  have hnext : c.next.Follows c := .next (.refl c)
  unfold primary
  split
  · exact .ok hnext
  · exact .ok hnext
  · exact .ok hnext
  · refine ((sum_local hn (opened + 1) c.next).mono hnext).bind fun inner rest => ?_
    dsimp only
    split
    · exact within_disallowed _ _
    · exact (closing_local _ _).bind fun close after => .ok (.refl after)
  · exact within_disallowed _ _
  · exact within_unexpected _ _ _

theorem call_local (hn : Local nested) : Local (call nested) := by
  intro opened c
  by_cases h : ∃ name, c.lexeme = .name name ∧ c.second = .leftParen
  · obtain ⟨name, hname, hparen⟩ := h
    rw [call_eq_bind nested opened hname hparen]
    have hnext : c.next.next.Follows c := .next (.next (.refl c))
    refine ((arguments_within (sum_local hn) _ _).mono hnext).bind fun args rest => ?_
    exact (closing_local _ _).bind fun close after => .ok (.refl after)
  · rw [call_eq_primary fun name hname hparen => h ⟨name, hname, hparen⟩]
    exact primary_local hn opened c

theorem power_local (hn : Local nested) : Local (power nested) := by
  intro opened c
  refine (call_local hn opened c).bind fun base rest => ?_
  dsimp only
  split
  · exact .ok (.refl rest)
  · exact ((hn opened rest.next).mono (.next (.refl rest))).bind fun exponent after => .ok (.refl after)

theorem unary_local (hn : Local nested) : Local (unary nested) := by
  intro opened c
  unfold unary
  split
  · exact power_local hn opened c
  · exact ((hn opened c.next).mono (.next (.refl c))).bind fun operand rest => .ok (.refl rest)

end Chains

theorem tooDeep_local (maxDepth : Nat) : Local (tooDeep maxDepth) :=
  fun _ c => .error c.sees_token (refuses_malformed _ _ (by decide) (by decide))

theorem level_local (maxDepth levels : Nat) : Local (level maxDepth levels) := by
  induction levels with
  | zero => exact tooDeep_local maxDepth
  | succ levels ih => exact unary_local ih

end Grammar

/-- A token sequence that is no expression is refused at one of its tokens. -/
theorem Expr.exists_refuses_of_ofTokens {maxDepth : UInt32} {tokens : List Token} {d : Diagnostic}
    (hne : tokens ≠ []) (h : ofTokens maxDepth tokens = .error d) : ∃ t ∈ tokens, d.Refuses t := by
  have hsum := Grammar.sum_local (Grammar.level_local maxDepth.toNat maxDepth.toNat) 0 (Cursor.ofTokens tokens)
  obtain hread | ⟨⟨e, rest⟩, hread, hend⟩ := bind_eq_error_iff.mp h
  · rw [hread] at hsum
    cases hsum with
    | error ht hd => exact ⟨_, Cursor.mem_of_sees_ofTokens hne ht, hd⟩
  · rw [hread] at hsum
    cases hsum with
    | ok hrest =>
      refine ⟨rest.token, Cursor.mem_of_sees_ofTokens hne (rest.sees_token.of_follows hrest), ?_⟩
      dsimp only at hend
      split at hend <;> cases hend
      · exact Grammar.refuses_disallowed _ _
      · exact Grammar.refuses_malformed _ _ (by decide) (by decide)
      · exact Grammar.unexpected_refuses _ _ _

end Reckoner
