import Reckoner.Proofs.Grammar.Soundness
import Reckoner.Proofs.Grammar.Prefixes

/-! The rules along with the states of what they have read. A rule takes the tokens that the state has
steps for, and it fails at one without a step, with the diagnostic that this token deserves. -/
namespace Reckoner.Grammar
open State

/-- The lexemes of constructs that are no arithmetic; after an operand a comma would make a tuple. -/
def Foreign (s : State) (l : Lexeme) : Prop :=
  (construct? l).isSome ∨ l = .comma ∧ ∃ named, s.expected = .operator named

/-- The failure at a token that the state takes no step with. -/
inductive Blames (s : State) (c : Cursor) : Diagnostic → Prop
  | ended (message : String) (heof : c.lexeme = .endOfInput) (hopen : ∀ named, s ≠ ⟨[], .operator named⟩) :
      Blames s c (.malformed (if s.opened = [] then .unexpectedEnd else .unclosedParen) message c.span)
  | disallowed (construct : String) (hstuck : s.step c.lexeme = none) (h : Foreign s c.lexeme) :
      Blames s c (.disallowed construct c.span)
  | unexpected (message : String) (hstuck : s.step c.lexeme = none) (heof : c.lexeme ≠ .endOfInput)
      (h : ¬ Foreign s c.lexeme) : Blames s c (.malformed .unexpectedToken message c.span)

/-- A reading takes the state along, or fails at a token where the state is stuck. -/
inductive Traces {α : Type} (s : State) (c : Cursor) (done : State → Cursor → Prop) :
    Except Diagnostic (α × Cursor) → Prop
  | ok {a used rest s'} (hused : c = before used rest) (hrun : s.run used = some s') (hdone : done s' rest) :
      Traces s c done (.ok (a, rest))
  | error {d used rest s'} (hused : c = before used rest) (hrun : s.run used = some s')
      (h : Blames s' rest d) : Traces s c done (.error d)

/-- No more than `n` tokens are ahead, the last of them the end of input. -/
structure Bounded (n : Nat) (c : Cursor) : Prop where
  last : c.ahead.getLast? = some c.final
  ended : Ended c
  length_le : c.ahead.length ≤ n

variable {α β : Type} {n k : Nat} {c rest : Cursor} {s s' m : State} {l : Lexeme} {used : List Token}
  {done done' : State → Cursor → Prop} {closable named : Bool} {stack : List Opening}

theorem Foreign.ne_endOfInput (h : Foreign s l) : l ≠ .endOfInput := by
  rintro rfl
  obtain h | ⟨h, -⟩ := h <;> cases h

theorem Blames.stuck {d : Diagnostic} (h : Blames s c d) : s.step c.lexeme = none := by
  cases h with
  | ended _ heof => rw [heof, step_endOfInput]
  | disallowed _ hstuck | unexpected _ hstuck => exact hstuck

theorem Bounded.mono (h : Bounded n c) (hle : n ≤ k) : Bounded k c :=
  ⟨h.last, h.ended, Nat.le_trans h.length_le hle⟩

theorem Bounded.of_before (h : Bounded n c) (hused : c = before used rest)
    (hne : ∀ t ∈ used, t.lexeme ≠ .endOfInput) : Bounded (n - used.length) rest := by
  subst hused
  have hlast := h.last
  have hle := h.length_le
  rw [before_ahead_length] at hle
  simp only [before, List.getLast?_append] at hlast
  refine ⟨?_, h.ended, by omega⟩
  cases hrest : rest.ahead.getLast? with
  | some t => simpa [hrest] using hlast
  | none =>
    rw [hrest, Option.none_or] at hlast
    exact absurd h.ended (hne _ (List.mem_of_getLast? hlast))

theorem Bounded.next (h : Bounded n c) (hne : c.lexeme ≠ .endOfInput) : Bounded (n - 1) c.next :=
  h.of_before (h.ended.eq_before hne) (List.forall_mem_singleton.mpr hne)

theorem Bounded.pos (h : Bounded n c) : 0 < n := by
  have hne : c.ahead ≠ [] := by
    intro hnil
    have hlast := h.last
    rw [hnil] at hlast
    cases hlast
  exact Nat.lt_of_lt_of_le (List.length_pos_iff.mpr hne) h.length_le

theorem Bounded.next_length_lt (h : Bounded n c) : c.next.ahead.length < c.ahead.length := by
  have hpos : 0 < c.ahead.length := Bounded.pos ⟨h.last, h.ended, Nat.le_refl _⟩
  simp only [Cursor.next, List.length_tail]
  omega

namespace Traces

variable {x : Except Diagnostic (α × Cursor)} {f : α × Cursor → Except Diagnostic (β × Cursor)}

/-- Nothing is read. -/
theorem here {a : α} (h : done s c) : Traces s c done (.ok (a, c)) := .ok (before_nil c).symm rfl h

theorem fail {d : Diagnostic} (h : Blames s c d) :
    Traces s c done (.error d : Except Diagnostic (α × Cursor)) :=
  .error (before_nil c).symm rfl h

theorem after (hused : c = before used rest) (hrun : s.run used = some m) (h : Traces m rest done x) :
    Traces s c done x := by
  have join {more : List Token} {last : Cursor} (hmore : rest = before more last) :
      c = before (used ++ more) last := by
    rw [before_append, ← hmore, hused]
  cases h with
  | ok hmore hrest h => exact .ok (join hmore) ((run_append hrun).trans hrest) h
  | error hmore hrest h => exact .error (join hmore) ((run_append hrun).trans hrest) h

theorem step (hc : Bounded n c) (hl : c.lexeme = l) (hstep : Steps s l m) (h : Traces m c.next done x) :
    Traces s c done x :=
  h.after (hc.ended.eq_before (hl ▸ hstep.ne_endOfInput)) (run_cons hl hstep)

theorem bind (hc : Bounded n c) (h : Traces s c done x)
    (hf : ∀ a rest s', Bounded n rest → rest.ahead.length ≤ c.ahead.length → done s' rest →
      Traces s' rest done' (f (a, rest))) : Traces s c done' (x >>= f) := by
  cases h with
  | error hused hrun h => exact .error hused hrun h
  | ok hused hrun hdone =>
    have hrest := hc.of_before hused (ne_endOfInput_of_run hrun)
    refine (hf _ _ _ (hrest.mono (Nat.sub_le _ _)) ?_ hdone).after hused hrun
    rw [hused, before_ahead_length]
    omega

end Traces

/-- Where there is no step, the failure of the rules is the one for the token. -/
theorem unexpected_blames (context : String) (hstuck : s.step c.lexeme = none)
    (hend : c.lexeme = .endOfInput → ∀ named, s ≠ ⟨[], .operator named⟩)
    (hcomma : c.lexeme = .comma → ∀ named, s.expected ≠ .operator named) :
    Blames s c (unexpected context s.opened.length c) := by
  unfold unexpected
  split
  · next construct hc => exact .disallowed construct hstuck (.inl (by rw [hc]; rfl))
  · next hc =>
    split
    · next heof =>
      cases hs : s.opened with
      | nil => simpa [hs] using Blames.ended (s := s) (c := c) _ heof (hend heof)
      | cons o outer => simpa [hs] using Blames.ended (s := s) (c := c) _ heof (hend heof)
    · next hne =>
      refine .unexpected _ hstuck hne ?_
      rintro (hsome | ⟨hl, named, hs⟩)
      · rw [hc] at hsome
        cases hsome
      · exact hcomma hl named hs

/-- A lexeme that a phrase does not go on with. -/
def Settled : Phrase → Lexeme → Prop
  | .sum, l => sumOp? l = none ∧ productOp? l = none ∧ powerOp? l = none
  | .product, l => productOp? l = none ∧ powerOp? l = none
  | .unary, l | .power, l => powerOp? l = none
  | .call, _ | .primary, _ => True

/-- The state and the cursor after a phrase within some parentheses. -/
def Completes (p : Phrase) (stack : List Opening) (s : State) (c : Cursor) : Prop :=
  ∃ named, s = ⟨stack, .operator named⟩ ∧ (named → c.lexeme ≠ .leftParen) ∧ Settled p c.lexeme

/-- Nothing more is in the parenthesis `o`: it is closed, or the state is stuck. -/
structure Ends (o : Opening) (stack : List Opening) (s : State) (c : Cursor) : Prop where
  opened : s.opened = o :: stack
  closes : c.lexeme = .rightParen → Steps s .rightParen ⟨stack, .operator false⟩
  stuck : c.lexeme ≠ .rightParen → s.step c.lexeme = none ∧ c.lexeme ≠ .comma

theorem step_operand_eq_none (hsign : sign? l = none) (hclose : closable → l ≠ .rightParen)
    (hstart : ¬ StartsOperand l) : (⟨stack, .operand closable⟩ : State).step l = none := by
  cases l with
  | int _ | float _ | name _ | leftParen => exact absurd trivial hstart
  | plus | minus => cases hsign
  | rightParen =>
    cases closable with
    | false => rfl
    | true => exact absurd rfl (hclose rfl)
  | _ => rfl

theorem step_operator_eq_none (h : Settled .sum l) (hcall : named → l ≠ .leftParen) (hclose : l ≠ .rightParen)
    (hcomma : l ≠ .comma) : (⟨stack, .operator named⟩ : State).step l = none := by
  obtain ⟨hsum, hproduct, hpower⟩ := h
  cases l with
  | plus | minus => cases hsum
  | star | slash | slashSlash | percent => cases hproduct
  | starStar | caret => cases hpower
  | leftParen =>
    cases named with
    | false => rfl
    | true => exact absurd rfl (hcall rfl)
  | rightParen => exact absurd rfl hclose
  | comma => exact absurd rfl hcomma
  | _ => rfl

theorem Completes.ends {o : Opening} (h : Completes .sum (o :: stack) s c) (hcomma : c.lexeme ≠ .comma) :
    Ends o stack s c := by
  obtain ⟨named, rfl, hcall, hsettled⟩ := h
  exact ⟨rfl, fun _ => .closed, fun hclose => ⟨step_operator_eq_none hsettled hcall hclose hcomma, hcomma⟩⟩

/-- Outside of all parentheses nothing goes on with a whole sum. -/
theorem Completes.not_step (h : Completes .sum [] s c) : s.step c.lexeme = none := by
  obtain ⟨named, rfl, hcall, hsettled⟩ := h
  by_cases hclose : c.lexeme = .rightParen
  · rw [hclose]
    rfl
  by_cases hcomma : c.lexeme = .comma
  · rw [hcomma]
    rfl
  exact step_operator_eq_none hsettled hcall hclose hcomma

theorem closing_traces {o : Opening} (hc : Bounded n c) (h : Ends o stack s c) :
    Traces s c (fun s' _ => s' = ⟨stack, .operator false⟩) (closing (stack.length + 1) c) := by
  have hlength : stack.length + 1 = s.opened.length := by rw [h.opened, List.length_cons]
  unfold closing
  split
  · next hclose => exact .step hc hclose (h.closes hclose) (.here rfl)
  · next hclose =>
    obtain ⟨hstuck, hcomma⟩ := h.stuck hclose
    rw [hlength]
    refine .fail (unexpected_blames _ hstuck (fun _ named hs => ?_) (fun hl => absurd hl hcomma))
    have hopened := h.opened
    rw [hs] at hopened
    cases hopened

/-- The rule reads phrases of a kind wherever an operand is expected. -/
def Tracks (n : Nat) (p : Phrase) (r : Rule Expr) : Prop :=
  ∀ (stack : List Opening) (closable : Bool) (c : Cursor), Bounded n c → (closable → c.lexeme ≠ .rightParen) →
    Traces ⟨stack, .operand closable⟩ c (Completes p stack) (r stack.length c)

section Chains

variable {p q : Phrase} {op? : Lexeme → Option BinaryOp} {operand : Rule Expr}

/-- The invariant of a chain: the state is behind an operand of it. -/
theorem chain_traces (hjoins : ∀ l op, op? l = some op → Joins p l op)
    (hsettled : ∀ l, op? l = none → Settled q l → Settled p l) (ho : Tracks n q operand) (left : Expr)
    (hc : Bounded n c) (h : Completes q stack s c) :
    Traces s c (Completes p stack) (chain op? operand stack.length left c) := by
  induction hk : c.ahead.length using Nat.strongRecOn generalizing c s left with
  | _ k ih =>
  subst hk
  rw [chain_eq_bind]
  obtain ⟨named, rfl, hcall, hq⟩ := h
  cases hop : op? c.lexeme with
  | none => exact .here ⟨named, rfl, hcall, hsettled _ hop hq⟩
  | some op =>
    have hstep : Steps ⟨stack, .operator named⟩ c.lexeme ⟨stack, .operand false⟩ := .operator (hjoins _ _ hop)
    have hnext := (hc.next hstep.ne_endOfInput).mono (Nat.sub_le n 1)
    refine .step hc rfl hstep ((ho stack false c.next hnext (by simp)).bind hnext ?_)
    intro right rest s' hrest hle hdone
    have hless := Nat.lt_of_le_of_lt hle hc.next_length_lt
    simp only [hless, if_true]
    exact ih _ hless _ hrest hdone rfl

theorem leftAssociative_tracks (hjoins : ∀ l op, op? l = some op → Joins p l op)
    (hsettled : ∀ l, op? l = none → Settled q l → Settled p l) (ho : Tracks n q operand) :
    Tracks n p (leftAssociative op? operand) := by
  intro stack closable c hc hclose
  refine (ho stack closable c hc hclose).bind hc ?_
  intro first rest s' hrest _ hdone
  exact chain_traces hjoins hsettled ho first hrest hdone

theorem sum_tracks (ho : Tracks n .unary operand) : Tracks n .sum (sum operand) := by
  have hproduct : Tracks n .product (product operand) :=
    leftAssociative_tracks (fun l op => (productOp?_eq_some_iff l op).mp) (fun _ => And.intro) ho
  exact leftAssociative_tracks (fun l op => (sumOp?_eq_some_iff l op).mp) (fun _ => And.intro) hproduct

/-- Before the next argument, or the end of them, the parenthesis may be closed. -/
theorem arguments_traces {item : Rule Expr} (hitem : Tracks n .sum item) (stack : List Opening)
    (hc : Bounded n c) :
    Traces ⟨.call :: stack, .operand true⟩ c (Ends .call stack) (arguments item (stack.length + 1) c) := by
  induction hk : c.ahead.length using Nat.strongRecOn generalizing c with
  | _ k ih =>
  subst hk
  by_cases hclose : c.lexeme = .rightParen
  · rw [arguments.eq_def, hclose]
    exact .here ⟨rfl, fun _ => .ended, fun h => absurd hclose h⟩
  rw [arguments_eq_bind hclose]
  refine (hitem (.call :: stack) true c hc fun _ => hclose).bind hc ?_
  intro first rest s' hrest hle hdone
  dsimp only
  split
  · next hl =>
    obtain ⟨named, rfl, -, -⟩ := hdone
    exact .fail (.disallowed _ (by rw [hl]; rfl) (.inl (by rw [hl]; rfl)))
  · next hl =>
    obtain ⟨named, rfl, -, -⟩ := hdone
    have hnext := (hrest.next (by rw [hl]; simp)).mono (Nat.sub_le n 1)
    have hless := Nat.lt_of_lt_of_le hrest.next_length_lt hle
    simp only [hless, if_true]
    refine .step hrest hl .comma ((ih _ hless hnext rfl).bind hnext ?_)
    exact fun others after s'' _ _ hends => .here hends
  · next hl => exact .here (hdone.ends hl)

end Chains

section Levels

variable {nested : Rule Expr} (hnested : Tracks n .unary nested) (stack : List Opening)
  (hc : Bounded (n + 1) c) (hclose : closable → c.lexeme ≠ .rightParen)
include hnested hc hclose

theorem primary_traces (hsign : sign? c.lexeme = none)
    (hname : ∀ name, c.lexeme = .name name → c.next.lexeme ≠ .leftParen) :
    Traces ⟨stack, .operand closable⟩ c (Completes .primary stack) (primary nested stack.length c) := by
  have leaf {a : Expr} {named : Bool} {l : Lexeme} (hl : c.lexeme = l)
      (hstep : Steps ⟨stack, .operand closable⟩ l ⟨stack, .operator named⟩)
      (hnext : named → c.next.lexeme ≠ .leftParen) :
      Traces ⟨stack, .operand closable⟩ c (Completes .primary stack) (.ok (a, c.next)) :=
    .step hc hl hstep (.here ⟨named, rfl, hnext, trivial⟩)
  unfold primary
  split
  · next k hl => exact leaf hl (.int k) (by simp)
  · next x hl => exact leaf hl (.float x) (by simp)
  · next name hl => exact leaf hl (.name name) fun _ => hname name hl
  · next hl =>
    have hnext : Bounded n c.next := hc.next (by rw [hl]; simp)
    refine .step hc hl .group
      ((sum_tracks hnested (.group :: stack) false c.next hnext (by simp)).bind hnext ?_)
    intro inner rest s' hrest _ hdone
    dsimp only
    split
    · next hcomma =>
      obtain ⟨named, rfl, -, -⟩ := hdone
      refine .fail (.disallowed _ (by rw [hcomma]; rfl) (.inr ⟨hcomma, named, rfl⟩))
    · next hcomma =>
      refine (closing_traces hrest (hdone.ends hcomma)).bind hrest ?_
      rintro close after s'' - - rfl
      exact .here ⟨false, rfl, by simp, trivial⟩
  · next hl => exact .fail (.disallowed _ (by rw [hl]; rfl) (.inl (by rw [hl]; rfl)))
  · next hint hfloat hname' hparen _ =>
    have hstart : ¬ StartsOperand c.lexeme := by
      cases hl : c.lexeme with
      | int k => exact absurd hl (hint k)
      | float x => exact absurd hl (hfloat x)
      | name name => exact absurd hl (hname' name)
      | leftParen => exact absurd hl hparen
      | _ => exact id
    exact .fail (unexpected_blames (s := ⟨stack, .operand closable⟩) _
      (step_operand_eq_none hsign hclose hstart) (by simp) (by simp))

theorem call_traces (hsign : sign? c.lexeme = none) :
    Traces ⟨stack, .operand closable⟩ c (Completes .call stack) (call nested stack.length c) := by
  by_cases h : ∃ name, c.lexeme = .name name ∧ c.second = .leftParen
  · obtain ⟨name, hl, hparen⟩ := h
    have hlparen := hc.ended.second_eq.symm.trans hparen
    have hnext : Bounded n c.next := hc.next (by rw [hl]; simp)
    have hinside := (hnext.next (by rw [hlparen]; simp)).mono (Nat.sub_le n 1)
    rw [call_eq_bind nested _ hl hparen]
    refine .step hc hl (.name name) (.step hnext hlparen .call ?_)
    refine (arguments_traces (sum_tracks hnested) stack hinside).bind hinside ?_
    intro args rest s' hrest _ hends
    refine (closing_traces hrest hends).bind hrest ?_
    rintro close after s'' - - rfl
    exact .here ⟨false, rfl, by simp, trivial⟩
  · rw [call_eq_primary fun name hl hparen => h ⟨name, hl, hparen⟩]
    refine primary_traces hnested stack hc hclose hsign ?_
    intro name hl hparen
    exact h ⟨name, hl, hc.ended.second_eq.trans hparen⟩

theorem power_traces (hsign : sign? c.lexeme = none) :
    Traces ⟨stack, .operand closable⟩ c (Completes .power stack) (power nested stack.length c) := by
  refine (call_traces hnested stack hc hclose hsign).bind hc ?_
  rintro base rest s' hrest - ⟨named, rfl, hcall, -⟩
  dsimp only
  split
  · next hop => exact .here ⟨named, rfl, hcall, hop⟩
  · next op hop =>
    have hstep : Steps ⟨stack, .operator named⟩ rest.lexeme ⟨stack, .operand false⟩ :=
      .operator ((powerOp?_eq_some_iff _ _).mp hop)
    have hnext : Bounded n rest.next := hrest.next hstep.ne_endOfInput
    refine .step hrest rfl hstep ((hnested stack false rest.next hnext (by simp)).bind hnext ?_)
    exact fun exponent after s'' _ _ hdone => .here hdone

theorem unary_traces :
    Traces ⟨stack, .operand closable⟩ c (Completes .unary stack) (unary nested stack.length c) := by
  unfold unary
  split
  · next hsign => exact power_traces hnested stack hc hclose hsign
  · next sign hsign =>
    have hstep : Steps ⟨stack, .operand closable⟩ c.lexeme ⟨stack, .operand false⟩ :=
      .sign ((sign?_eq_some_iff _ _).mp hsign)
    have hnext : Bounded n c.next := hc.next hstep.ne_endOfInput
    refine .step hc rfl hstep ((hnested stack false c.next hnext (by simp)).bind hnext ?_)
    exact fun operand rest s' _ _ hdone => .here hdone

end Levels

/-- Every level down is behind a token, so the levels do not run out before the tokens. -/
theorem level_tracks (maxDepth n : Nat) : Tracks n .unary (level maxDepth n) := by
  induction n with
  | zero => exact fun stack closable c hc _ => absurd hc.pos (Nat.lt_irrefl 0)
  | succ n ih => exact fun stack closable c hc hclose => unary_traces ih stack hc hclose

end Reckoner.Grammar
