import Reckoner.Proofs.Failure
import Reckoner.Proofs.Grammar.Reading

/-! What is read can be derived: the tokens that a rule takes derive the expression that it gives,
within the levels that it has. -/
namespace Reckoner.Grammar

/-- Past its tokens the cursor is at the end of input. -/
def Ended (c : Cursor) : Prop := c.final.lexeme = .endOfInput

/-- Whatever the rule reads, it reads from tokens in the relation to it. -/
def Sound {α : Type} (P : List Token → α → Prop) (r : Rule α) : Prop :=
  ∀ opened c a rest, Ended c → r opened c = .ok (a, rest) → ∃ used, c = before used rest ∧ P used a

/-- A derivation of a phrase that needs less than `n` levels. -/
def DerivesWithin (n : Nat) (p : Phrase) (ts : List Token) (e : Expr) : Prop :=
  Derives p ts e ∧ e.nesting < n

variable {maxDepth n opened : Nat} {p q : Phrase} {ts us : List Token} {t : Token} {c rest : Cursor}
  {e l r : Expr} {op : BinaryOp}

theorem Ended.of_eq_before (h : Ended c) (hc : c = before ts rest) : Ended rest := by
  subst hc
  exact h

theorem Ended.next (h : Ended c) : Ended c.next := h

theorem Ended.eq_before (hc : Ended c) (h : c.lexeme ≠ .endOfInput) : c = before [c.token] c.next := by
  obtain ⟨ahead, final⟩ := c
  cases ahead with
  | nil => exact absurd hc h
  | cons t ts => rfl

/-- One token and the tokens after it. -/
theorem Ended.eq_before_cons (hc : Ended c) (h : c.lexeme ≠ .endOfInput) (hn : c.next = before us rest) :
    c = before (c.token :: us) rest := by
  rw [← List.singleton_append, before_append, ← hn]
  exact hc.eq_before h

theorem Ended.second_eq (h : Ended c) : c.second = c.next.lexeme := by
  obtain ⟨ahead, final⟩ := c
  match ahead with
  | [] | [_] => exact h.symm
  | _ :: _ :: _ => rfl

section Chains

variable {op? : Lexeme → Option BinaryOp} {operand : Rule Expr} {P Q : List Token → Expr → Prop}

/-- The invariant of a chain: the tokens of the left operands derive the expression joined so far. -/
theorem chain_sound (hend : op? .endOfInput = none) (hoperand : Sound Q operand)
    (hstep : ∀ {ts us t l r op}, P ts l → op? t.lexeme = some op → Q us r → P (ts ++ t :: us) (l.join op r))
    (hc : Ended c) (hl : P ts l) (h : chain op? operand opened l c = .ok (e, rest)) :
    ∃ used, c = before used rest ∧ P (ts ++ used) e := by
  fun_induction chain op? operand opened l c generalizing ts with
  | case1 l c hop =>
    cases h
    exact ⟨[], rfl, by simpa using hl⟩
  | case2 l c op hop d hd => cases h
  | case3 l c op hop r after hr hless ih =>
    have hne : c.lexeme ≠ .endOfInput := by rintro he; rw [he, hend] at hop; cases hop
    obtain ⟨us, hus, hq⟩ := hoperand _ _ _ _ hc.next hr
    obtain ⟨used, hused, hp⟩ := ih (hc.next.of_eq_before hus) (hstep hl hop hq) h
    refine ⟨c.token :: (us ++ used), hc.eq_before_cons hne ?_, by simpa using hp⟩
    rw [before_append, ← hused, ← hus]
  | case4 l c op hop r after hr hless =>
    cases h
    have hne : c.lexeme ≠ .endOfInput := by rintro he; rw [he, hend] at hop; cases hop
    obtain ⟨us, hus, hq⟩ := hoperand _ _ _ _ hc.next hr
    exact ⟨c.token :: us, hc.eq_before_cons hne hus, hstep hl hop hq⟩

theorem leftAssociative_sound (hend : op? .endOfInput = none) (hoperand : Sound Q operand)
    (hfirst : ∀ {ts e}, Q ts e → P ts e)
    (hstep : ∀ {ts us t l r op}, P ts l → op? t.lexeme = some op → Q us r → P (ts ++ t :: us) (l.join op r)) :
    Sound P (leftAssociative op? operand) := by
  intro opened c e rest hc h
  obtain ⟨⟨first, after⟩, ho, hchain⟩ := bind_eq_ok_iff.mp h
  obtain ⟨us, hus, hq⟩ := hoperand _ _ _ _ hc ho
  obtain ⟨used, hused, hp⟩ := chain_sound hend hoperand hstep (hc.of_eq_before hus) (hfirst hq) hchain
  exact ⟨us ++ used, by rw [before_append, ← hused, ← hus], hp⟩

end Chains

theorem product_sound {operand : Rule Expr} (h : Sound (DerivesWithin n .unary) operand) :
    Sound (DerivesWithin n .product) (product operand) := by
  refine leftAssociative_sound rfl h (fun hq => ⟨.factor hq.1, hq.2⟩) fun hp hop hq => ?_
  have hj := (productOp?_eq_some_iff _ _).mp hop
  exact ⟨.product hp.1 hj hq.1, by simp [hj.ne_pow_of_product, Nat.max_lt.mpr ⟨hp.2, hq.2⟩]⟩

theorem sum_sound {operand : Rule Expr} (h : Sound (DerivesWithin n .unary) operand) :
    Sound (DerivesWithin n .sum) (sum operand) := by
  refine leftAssociative_sound rfl (product_sound h) (fun hq => ⟨.term hq.1, hq.2⟩) fun hp hop hq => ?_
  have hj := (sumOp?_eq_some_iff _ _).mp hop
  exact ⟨.sum hp.1 hj hq.1, by simp [hj.ne_pow_of_sum, Nat.max_lt.mpr ⟨hp.2, hq.2⟩]⟩

theorem closing_eq_ok_iff {close : Token} :
    closing opened c = .ok (close, rest) ↔ c.lexeme = .rightParen ∧ close = c.token ∧ rest = c.next := by
  unfold closing
  split
  · next h => simp [h, eq_comm]
  · next h =>
    constructor
    · intro hf; cases hf
    · intro hf; exact absurd hf.1 h

theorem Ended.eq_before_closing {close : Token} (hc : Ended c) (h : closing opened c = .ok (close, rest)) :
    c = before [close] rest ∧ close.lexeme = .rightParen := by
  obtain ⟨hclose, rfl, rfl⟩ := closing_eq_ok_iff.mp h
  exact ⟨hc.eq_before (by rw [hclose]; simp), hclose⟩

/-- The arguments in front of a closing parenthesis, each with its tokens. -/
theorem arguments_sound {item : Rule Expr} (hitem : Sound (DerivesWithin n .sum) item) {es : List Expr}
    (hc : Ended c) (h : arguments item opened c = .ok (es, rest)) :
    ∃ (args : List (List Token × Expr)) (inside : List Token), es = args.map Prod.snd ∧
      c = before inside rest ∧ Separated (args.map Prod.fst) inside ∧
      ∀ a ∈ args, DerivesWithin n .sum a.1 a.2 := by
  fun_induction arguments item opened c generalizing es with
  | case1 c hclose =>
    cases h
    exact ⟨[], [], rfl, rfl, .none, by simp⟩
  | case2 | case3 | case4 => cases h
  | case5 c first after hitem' hcomma hless others final hothers hclose ih =>
    cases h
    obtain ⟨ts, hts, hd⟩ := hitem _ _ _ _ hc hitem'
    have hafter : Ended after := hc.of_eq_before hts
    obtain ⟨args, inside, rfl, hinside, hsep, hargs⟩ := ih hafter.next hothers
    refine ⟨(ts, first) :: args, ts ++ after.token :: inside, rfl, ?_, .comma ts hcomma hsep, ?_⟩
    · rw [before_append, ← hafter.eq_before_cons (by rw [hcomma]; simp) hinside, ← hts]
    · exact List.forall_mem_cons.mpr ⟨hd, hargs⟩
  | case6 c first after hitem' hcomma hless hclose =>
    cases h
    obtain ⟨ts, hts, hd⟩ := hitem _ _ _ _ hc hitem'
    have hafter : Ended after := hc.of_eq_before hts
    refine ⟨[(ts, first)], ts ++ [after.token], rfl, ?_, .comma ts hcomma .none, by simpa using hd⟩
    rw [before_append, ← hafter.eq_before (by rw [hcomma]; simp), ← hts]
  | case7 c first after hitem' hclose hequals hcomma =>
    cases h
    obtain ⟨ts, hts, hd⟩ := hitem _ _ _ _ hc hitem'
    exact ⟨[(ts, first)], ts, rfl, hts, .last ts, by simpa using hd⟩

section Levels

variable {nested : Rule Expr} (hnested : Sound (DerivesWithin n .unary) nested)
include hnested

theorem primary_sound : Sound (DerivesWithin (n + 1) .primary) (primary nested) := by
  intro opened c e rest hc h
  unfold primary at h
  have leaf (hne : c.lexeme ≠ .endOfInput) (hd : Derives .primary [c.token] e) (hflat : e.nesting = 0)
      (hrest : c.next = rest) : ∃ used, c = before used rest ∧ DerivesWithin (n + 1) .primary used e :=
    ⟨[c.token], hrest ▸ hc.eq_before hne, hd, by omega⟩
  split at h
  · next k hk =>
    cases h
    exact leaf (by rw [hk]; simp) (.int hk) rfl rfl
  · next x hx =>
    cases h
    exact leaf (by rw [hx]; simp) (.float hx) rfl rfl
  · next s hs =>
    cases h
    exact leaf (by rw [hs]; simp) (.name hs) rfl rfl
  · next hopen =>
    obtain ⟨⟨inner, after⟩, hi, h⟩ := bind_eq_ok_iff.mp h
    obtain ⟨ts, hts, hd, hlt⟩ := sum_sound hnested _ _ _ _ hc.next hi
    have hafter : Ended after := hc.next.of_eq_before hts
    dsimp only at h
    split at h
    · cases h
    · obtain ⟨⟨close, final⟩, hclose, h⟩ := bind_eq_ok_iff.mp h
      cases h
      obtain ⟨hfinal, hlex⟩ := hafter.eq_before_closing hclose
      refine ⟨c.token :: (ts ++ [close]), hc.eq_before_cons (by rw [hopen]; simp) ?_,
        .paren hopen hd hlex, by simp only [Expr.nesting]; omega⟩
      rw [before_append, ← hfinal, ← hts]
  · cases h
  · cases h

theorem call_sound : Sound (DerivesWithin (n + 1) .call) (call nested) := by
  intro opened c e rest hc h
  unfold call at h
  split at h
  · next name hname hopen =>
    obtain ⟨⟨es, after⟩, ha, h⟩ := bind_eq_ok_iff.mp h
    obtain ⟨⟨close, final⟩, hclose, h⟩ := bind_eq_ok_iff.mp h
    cases h
    have hsecond : c.next.lexeme = .leftParen := hc.second_eq.symm.trans hopen
    obtain ⟨args, inside, rfl, hinside, hsep, hargs⟩ :=
      arguments_sound (sum_sound hnested) hc.next.next ha
    have hafter : Ended after := hc.next.next.of_eq_before hinside
    obtain ⟨hfinal, hlex⟩ := hafter.eq_before_closing hclose
    refine ⟨c.token :: c.next.token :: (inside ++ [close]), ?_,
      .call hname hsecond (fun a ha => (hargs a ha).1) hsep hlex, ?_⟩
    · refine hc.eq_before_cons (by rw [hname]; simp) (hc.next.eq_before_cons (by rw [hsecond]; simp) ?_)
      rw [before_append, ← hfinal, ← hinside]
    · rw [Expr.nesting, Nat.lt_succ_iff, Expr.nestingOfAll_le_iff]
      simpa using fun e ts he => (hargs (ts, e) he).2
  · obtain ⟨ts, hts, hd, hlt⟩ := primary_sound hnested _ _ _ _ hc h
    exact ⟨ts, hts, .primary hd, hlt⟩

theorem power_sound : Sound (DerivesWithin (n + 1) .power) (power nested) := by
  intro opened c e rest hc h
  obtain ⟨⟨base, after⟩, hb, h⟩ := bind_eq_ok_iff.mp h
  obtain ⟨ts, hts, hd, hlt⟩ := call_sound hnested _ _ _ _ hc hb
  have hafter : Ended after := hc.of_eq_before hts
  dsimp only at h
  split at h
  · cases h
    exact ⟨ts, hts, .base hd, hlt⟩
  · next op hop =>
    obtain ⟨⟨exponent, final⟩, hx, h⟩ := bind_eq_ok_iff.mp h
    cases h
    have hj := (powerOp?_eq_some_iff _ _).mp hop
    have hne : after.lexeme ≠ .endOfInput := by rintro he; rw [he] at hop; cases hop
    obtain ⟨us, hus, hdx, hltx⟩ := hnested _ _ _ _ hafter.next hx
    refine ⟨ts ++ after.token :: us, ?_, .power hd hj hdx, ?_⟩
    · rw [before_append, ← hafter.eq_before_cons hne hus, ← hts]
    · simp only [Expr.nesting_join, hj.eq_pow, if_true]
      omega

theorem unary_sound : Sound (DerivesWithin (n + 1) .unary) (unary nested) := by
  intro opened c e rest hc h
  unfold unary at h
  split at h
  · obtain ⟨ts, hts, hd, hlt⟩ := power_sound hnested _ _ _ _ hc h
    exact ⟨ts, hts, .unsigned hd, hlt⟩
  · next s hs =>
    obtain ⟨⟨operand, after⟩, ho, h⟩ := bind_eq_ok_iff.mp h
    cases h
    have hne : c.lexeme ≠ .endOfInput := by rintro he; rw [he] at hs; cases hs
    obtain ⟨ts, hts, hd, hlt⟩ := hnested _ _ _ _ hc.next ho
    refine ⟨c.token :: ts, hc.eq_before_cons hne hts, .sign ((sign?_eq_some_iff _ _).mp hs) hd, ?_⟩
    simp only [Expr.nesting]
    omega

end Levels

/-- The main statement, by induction on the levels: each one is sound if the next one is. -/
theorem level_sound (maxDepth n : Nat) : Sound (DerivesWithin n .unary) (level maxDepth n) := by
  induction n with
  | zero => intro opened c e rest _ h; cases h
  | succ n ih => exact unary_sound ih

end Reckoner.Grammar
