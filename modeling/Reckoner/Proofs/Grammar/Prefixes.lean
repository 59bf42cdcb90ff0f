import Reckoner.Proofs.Grammar.Derivation

/-! Beginnings of expressions. All that matters of a beginning is which parentheses it leaves open and
what it expects next; a token takes such a state to another one, or no expression goes on with it. -/
namespace Reckoner

def Lexeme.isLeftParen : Lexeme → Bool
  | .leftParen => true
  | _ => false

def Lexeme.isRightParen : Lexeme → Bool
  | .rightParen => true
  | _ => false

namespace Grammar

/-- Tokens that an expression begins with. -/
def Viable (ts : List Token) : Prop := ∃ us e, Derives .sum (ts ++ us) e

/-- Tokens whose last ones are an operand: a literal, a name, a call or a parenthesis. -/
def EndsOperand (ts : List Token) : Prop := ∃ front operand e, ts = front ++ operand ∧ Derives .call operand e

/-- What an open parenthesis encloses. -/
inductive Opening where
  | group
  /-- The arguments of the name before it. -/
  | call
  deriving DecidableEq

/-- The parentheses open after some tokens, the innermost first. Some are open before the tokens
already, and the token before them is a name or not. -/
def openingsFrom (opened : List Opening) (named : Bool) : List Token → List Opening
  | [] => opened
  | t :: ts =>
    match t.lexeme with
    | .name _ => openingsFrom opened true ts
    | .leftParen => openingsFrom ((if named then .call else .group) :: opened) false ts
    | .rightParen => openingsFrom opened.tail false ts
    | _ => openingsFrom opened false ts

def openings (ts : List Token) : List Opening := openingsFrom [] false ts

/-- What comes next in an expression. -/
inductive Expected where
  /-- An operand, or no more arguments where the parenthesis is `closable`. -/
  | operand (closable : Bool)
  /-- An operator, a comma or the closing parenthesis; the arguments if the operand is a name. -/
  | operator (named : Bool)

structure State where
  opened : List Opening
  expected : Expected

namespace State

def start : State := ⟨[], .operand false⟩

/-- The last token is a name. -/
def named (s : State) : Bool :=
  match s.expected with
  | .operand _ => false
  | .operator named => named

/-- A closed parenthesis is an operand. -/
def close : List Opening → Option State
  | [] => none
  | _ :: outer => some ⟨outer, .operator false⟩

/-- After a comma the next argument may be missing. -/
def separate : List Opening → Option State
  | .call :: outer => some ⟨.call :: outer, .operand true⟩
  | _ => none

def step : State → Lexeme → Option State
  | ⟨opened, .operand closable⟩, l =>
    match l with
    | .int _ | .float _ => some ⟨opened, .operator false⟩
    | .name _ => some ⟨opened, .operator true⟩
    | .plus | .minus => some ⟨opened, .operand false⟩
    | .leftParen => some ⟨.group :: opened, .operand false⟩
    | .rightParen => if closable then close opened else none
    | _ => none
  | ⟨opened, .operator named⟩, l =>
    match l with
    | .plus | .minus | .star | .slash | .slashSlash | .percent | .starStar | .caret =>
      some ⟨opened, .operand false⟩
    | .leftParen => if named then some ⟨.call :: opened, .operand true⟩ else none
    | .rightParen => close opened
    | .comma => separate opened
    | _ => none

def run (s : State) (ts : List Token) : Option State := ts.foldlM (fun s t => s.step t.lexeme) s

/-- The steps by the part that the token plays. -/
inductive Steps : State → Lexeme → State → Prop
  | int {opened closable} (n : Int) : Steps ⟨opened, .operand closable⟩ (.int n) ⟨opened, .operator false⟩
  | float {opened closable} (x : Float) : Steps ⟨opened, .operand closable⟩ (.float x) ⟨opened, .operator false⟩
  | name {opened closable} (text : String) :
      Steps ⟨opened, .operand closable⟩ (.name text) ⟨opened, .operator true⟩
  | sign {opened closable l s} (hsign : Signs l s) :
      Steps ⟨opened, .operand closable⟩ l ⟨opened, .operand false⟩
  | group {opened closable} :
      Steps ⟨opened, .operand closable⟩ .leftParen ⟨.group :: opened, .operand false⟩
  | ended {opened o} : Steps ⟨o :: opened, .operand true⟩ .rightParen ⟨opened, .operator false⟩
  | operator {opened named p l op} (hjoins : Joins p l op) :
      Steps ⟨opened, .operator named⟩ l ⟨opened, .operand false⟩
  | call {opened} : Steps ⟨opened, .operator true⟩ .leftParen ⟨.call :: opened, .operand true⟩
  | closed {opened named o} : Steps ⟨o :: opened, .operator named⟩ .rightParen ⟨opened, .operator false⟩
  | comma {opened named} :
      Steps ⟨.call :: opened, .operator named⟩ .comma ⟨.call :: opened, .operand true⟩

variable {s m s' : State} {t : Token} {ts us : List Token} {l : Lexeme}

theorem step_eq_some_iff : s.step l = some s' ↔ Steps s l s' := by
  constructor
  · intro h
    obtain ⟨opened, closable | named⟩ := s
    · cases l with
      | int n => cases h; exact .int n
      | float x => cases h; exact .float x
      | name text => cases h; exact .name text
      | plus => cases h; exact .sign .plus
      | minus => cases h; exact .sign .minus
      | leftParen => cases h; exact .group
      | rightParen =>
        match closable, opened with
        | true, _ :: _ => cases h; exact .ended
        | true, [] | false, _ => cases h
      | _ => cases h
    · cases l with
      | plus => cases h; exact .operator .plus
      | minus => cases h; exact .operator .minus
      | star => cases h; exact .operator .star
      | slash => cases h; exact .operator .slash
      | slashSlash => cases h; exact .operator .slashSlash
      | percent => cases h; exact .operator .percent
      | starStar => cases h; exact .operator .starStar
      | caret => cases h; exact .operator .caret
      | leftParen =>
        cases named with
        | true => cases h; exact .call
        | false => cases h
      | rightParen =>
        cases opened with
        | nil => cases h
        | cons o outer => cases h; exact .closed
      | comma =>
        match opened with
        | [] | .group :: _ => cases h
        | .call :: _ => cases h; exact .comma
      | _ => cases h
  · intro h
    cases h with
    | sign hsign => cases hsign <;> rfl
    | operator hjoins => cases hjoins <;> rfl
    | _ => rfl

@[simp] theorem run_nil (s : State) : s.run [] = some s := rfl

theorem run_cons (hl : t.lexeme = l) (h : Steps s l m) : s.run (t :: ts) = m.run ts := by
  simp [run, hl, step_eq_some_iff.mpr h]

theorem run_append (h : s.run ts = some m) : s.run (ts ++ us) = m.run us := by
  rw [run, List.foldlM_append, ← run, h]
  rfl

theorem run_cons_eq_some_iff :
    s.run (t :: ts) = some s' ↔ ∃ m, Steps s t.lexeme m ∧ m.run ts = some s' := by
  simp only [← step_eq_some_iff]
  rw [run, List.foldlM_cons]
  exact Option.bind_eq_some_iff

theorem run_append_eq_some_iff :
    s.run (ts ++ us) = some s' ↔ ∃ m, s.run ts = some m ∧ m.run us = some s' := by
  rw [run, List.foldlM_append]
  exact Option.bind_eq_some_iff

/-- Where there is no step, no more tokens are run. -/
theorem run_of_stuck (hrun : s.run ts = some m) (hstuck : m.step t.lexeme = none) (us : List Token) :
    s.run (ts ++ t :: us) = none := by
  rw [run_append hrun, run, List.foldlM_cons, hstuck]
  rfl

theorem run_singleton_eq_some_iff : s.run [t] = some s' ↔ Steps s t.lexeme s' := by
  simp [run_cons_eq_some_iff]

theorem step_endOfInput (s : State) : s.step .endOfInput = none := by
  obtain ⟨opened, _ | _⟩ := s <;> rfl

theorem Steps.ne_endOfInput (h : Steps s l s') : l ≠ .endOfInput := by
  rintro rfl
  cases (step_endOfInput s).symm.trans (step_eq_some_iff.mpr h)

theorem ne_endOfInput_of_run (h : s.run ts = some s') : ∀ t ∈ ts, t.lexeme ≠ .endOfInput := by
  induction ts generalizing s with
  | nil => simp
  | cons t ts ih =>
    obtain ⟨m, hm, hrun⟩ := run_cons_eq_some_iff.mp h
    exact List.forall_mem_cons.mpr ⟨hm.ne_endOfInput, ih hrun⟩

/-- A step opens one parenthesis, closes one or leaves them alone. -/
theorem Steps.length_opened (h : Steps s l s') :
    s.opened.length + l.isLeftParen.toNat = s'.opened.length + l.isRightParen.toNat := by
  cases h with
  | sign hsign => cases hsign <;> rfl
  | operator hjoins => cases hjoins <;> rfl
  | _ => rfl

/-- As many parentheses are open as were opened and not closed. -/
theorem length_opened_of_run (h : s.run ts = some s') :
    s.opened.length + ts.countP (·.lexeme.isLeftParen) =
      s'.opened.length + ts.countP (·.lexeme.isRightParen) := by
  induction ts generalizing s with
  | nil =>
    cases h
    rfl
  | cons t ts ih =>
    obtain ⟨m, hm, hrun⟩ := run_cons_eq_some_iff.mp h
    have hstep := hm.length_opened
    have hrest := ih hrun
    rw [List.countP_cons, List.countP_cons]
    cases hl : t.lexeme.isLeftParen <;> cases hr : t.lexeme.isRightParen <;>
      simp only [hl, hr, Bool.toNat_true, Bool.toNat_false, if_true, Bool.false_eq_true, if_false] at hstep ⊢ <;>
      omega

theorem Steps.openingsFrom_cons (h : Steps s t.lexeme m) :
    openingsFrom s.opened s.named (t :: ts) = openingsFrom m.opened m.named ts := by
  generalize hl : t.lexeme = l at h
  cases h with
  | sign hsign => cases hsign <;> simp only [openingsFrom, hl, named]
  | operator hjoins => cases hjoins <;> simp only [openingsFrom, hl, named]
  | _ => simp [openingsFrom, hl, named]

theorem openingsFrom_of_run (h : s.run ts = some s') : openingsFrom s.opened s.named ts = s'.opened := by
  induction ts generalizing s with
  | nil =>
    cases h
    rfl
  | cons t ts ih =>
    obtain ⟨m, hm, hrun⟩ := run_cons_eq_some_iff.mp h
    rw [hm.openingsFrom_cons, ih hrun]

theorem openings_of_run (h : start.run ts = some s) : openings ts = s.opened := openingsFrom_of_run h

/-- Any state leads to the end of an expression: an operand, if one is missing, and the parentheses. -/
theorem exists_run (s : State) : ∃ ts named, s.run ts = some ⟨[], .operator named⟩ := by
  have closed (opened : List Opening) (named : Bool) :
      ∃ ts named', (⟨opened, .operator named⟩ : State).run ts = some ⟨[], .operator named'⟩ := by
    induction opened generalizing named with
    | nil => exact ⟨[], named, rfl⟩
    | cons o outer ih =>
      obtain ⟨ts, named', h⟩ := ih false
      exact ⟨⟨.rightParen, .point 0⟩ :: ts, named', (run_cons rfl .closed).trans h⟩
  obtain ⟨opened, closable | named⟩ := s
  · obtain ⟨ts, named, h⟩ := closed opened false
    exact ⟨⟨.int 0, .point 0⟩ :: ts, named, (run_cons rfl (.int 0)).trans h⟩
  · exact closed opened named

end State

section Derivations
open State

variable {p : Phrase} {ts us : List Token} {t : Token} {e : Expr} {l : Lexeme} {s s' : State}

/-- The inside of a call's parentheses is run to where they may be closed. -/
theorem Separated.run {parts : List (List Token)} {inside : List Token} (h : Separated parts inside)
    (opened : List Opening) (hparts : ∀ part ∈ parts, ∀ closable, ∃ named,
      State.run ⟨.call :: opened, .operand closable⟩ part = some ⟨.call :: opened, .operator named⟩) :
    ∃ s, State.run ⟨.call :: opened, .operand true⟩ inside = some s ∧
      Steps s .rightParen ⟨opened, .operator false⟩ := by
  induction h with
  | none => exact ⟨_, rfl, .ended⟩
  | last part =>
    obtain ⟨named, hpart⟩ := hparts part (List.mem_singleton_self part) true
    exact ⟨_, hpart, .closed⟩
  | comma part hcomma _ ih =>
    obtain ⟨hpart, hmore⟩ := List.forall_mem_cons.mp hparts
    obtain ⟨named, hpart⟩ := hpart true
    obtain ⟨s, hs, hclose⟩ := ih hmore
    refine ⟨s, ?_, hclose⟩
    rw [run_append hpart, run_cons hcomma .comma, hs]

/-- A phrase is run from where an operand is expected, and leaves the same parentheses open. -/
theorem Derives.run (h : Derives p ts e) (opened : List Opening) (closable : Bool) :
    ∃ named, State.run ⟨opened, .operand closable⟩ ts = some ⟨opened, .operator named⟩ := by
  induction h generalizing opened closable with
  | term _ ih | factor _ ih | unsigned _ ih | base _ ih | primary _ ih => exact ih opened closable
  | sum _ operator _ ihl ihr | product _ operator _ ihl ihr | power _ operator _ ihl ihr =>
    obtain ⟨_, hl⟩ := ihl opened closable
    obtain ⟨named, hr⟩ := ihr opened false
    exact ⟨named, by rw [run_append hl, run_cons rfl (.operator operator), hr]⟩
  | sign hsign _ ih =>
    obtain ⟨named, h⟩ := ih opened false
    exact ⟨named, by rw [run_cons rfl (.sign hsign), h]⟩
  | call hcallee hopening _ separated hclosing ih =>
    obtain ⟨s, hs, hclose⟩ := separated.run opened (by
      simp only [List.forall_mem_map]
      exact fun a ha => ih a ha (.call :: opened))
    refine ⟨false, ?_⟩
    rw [run_cons hcallee (.name _), run_cons hopening .call, run_append hs, run_cons hclosing hclose, run_nil]
  | int h => exact ⟨false, run_cons h (.int _)⟩
  | float h => exact ⟨false, run_cons h (.float _)⟩
  | name h => exact ⟨true, run_cons h (.name _)⟩
  | paren hopening _ hclosing ih =>
    obtain ⟨_, h⟩ := ih (.group :: opened) false
    exact ⟨false, by rw [run_cons hopening .group, run_append h, run_cons hclosing .closed, run_nil]⟩

theorem Viable.run (h : Viable ts) : ∃ s, start.run ts = some s := by
  obtain ⟨us, e, hd⟩ := h
  obtain ⟨named, hrun⟩ := hd.run [] false
  obtain ⟨s, hs, -⟩ := run_append_eq_some_iff.mp hrun
  exact ⟨s, hs⟩

/-- The lexemes that an operand ends with. -/
def Closes : Lexeme → Prop
  | .int _ | .float _ | .name _ | .rightParen => True
  | _ => False

theorem Joins.not_closes {op : BinaryOp} (h : Joins p l op) : ¬ Closes l := by
  cases h <;> exact id

theorem Signs.not_closes {s : Sign} (h : Signs l s) : ¬ Closes l := by
  cases h <;> exact id

theorem State.Steps.closes_iff (h : Steps s l s') : Closes l ↔ ∃ named, s'.expected = .operator named := by
  cases h with
  | sign hsign => simp [hsign.not_closes]
  | operator hjoins => simp [hjoins.not_closes]
  | _ => simp [Closes]

/-- After some tokens an operator is expected just if the last of them closes an operand. -/
theorem State.closes_iff_of_run (h : start.run ts = some s) :
    (∃ us t, ts = us ++ [t] ∧ Closes t.lexeme) ↔ ∃ named, s.expected = .operator named := by
  obtain rfl | ⟨us, t, rfl⟩ := ts.eq_nil_or_concat
  · cases h
    simp [start]
  · rw [List.concat_eq_append] at h ⊢
    obtain ⟨m, -, hlast⟩ := run_append_eq_some_iff.mp h
    rw [← (run_singleton_eq_some_iff.mp hlast).closes_iff]
    constructor
    · rintro ⟨us', t', heq, ht⟩
      obtain ⟨-, rfl⟩ := List.append_singleton_inj.mp heq
      exact ht
    · exact fun ht => ⟨us, t, rfl, ht⟩

theorem Derives.closes (h : Derives p ts e) : ∃ us t, ts = us ++ [t] ∧ Closes t.lexeme := by
  induction h with
  | term _ ih | factor _ ih | unsigned _ ih | base _ ih | primary _ ih => exact ih
  | sum _ _ _ _ ih | product _ _ _ _ ih | power _ _ _ _ ih =>
    obtain ⟨us, t, rfl, ht⟩ := ih
    exact ⟨_, t, by rw [← List.cons_append, ← List.append_assoc], ht⟩
  | sign _ _ ih =>
    obtain ⟨us, t, rfl, ht⟩ := ih
    exact ⟨_, t, (List.cons_append ..).symm, ht⟩
  | call _ _ _ _ hclosing => exact ⟨_, _, by rw [← List.cons_append, ← List.cons_append], by rw [hclosing]; trivial⟩
  | paren _ _ hclosing => exact ⟨_, _, (List.cons_append ..).symm, by rw [hclosing]; trivial⟩
  | int h | float h | name h => exact ⟨[], _, rfl, by rw [h]; trivial⟩

theorem EndsOperand.append (h : EndsOperand ts) (front : List Token) : EndsOperand (front ++ ts) := by
  obtain ⟨first, operand, e, rfl, hd⟩ := h
  exact ⟨front ++ first, operand, e, (List.append_assoc ..).symm, hd⟩

theorem EndsOperand.cons (h : EndsOperand ts) (t : Token) : EndsOperand (t :: ts) := h.append [t]

theorem Derives.endsOperand (h : Derives .call ts e) : EndsOperand ts := ⟨[], ts, e, rfl, h⟩

/-- Wherever some tokens are cut behind one that closes an operand, the whole operand stands there. -/
def EndsOperands (ts : List Token) : Prop :=
  ∀ us t more, ts = us ++ t :: more → Closes t.lexeme → EndsOperand (us ++ [t])

theorem EndsOperands.nil : EndsOperands [] := by
  intro us t more h
  simp at h

theorem EndsOperands.cons (h : EndsOperands ts) (ht : ¬ Closes t.lexeme) : EndsOperands (t :: ts) := by
  intro us t' more heq hclose
  cases us with
  | nil =>
    cases heq
    exact absurd hclose ht
  | cons u us =>
    cases heq
    exact (h us t' more rfl hclose).cons _

theorem EndsOperands.append (hts : EndsOperands ts) (hus : EndsOperands us) : EndsOperands (ts ++ us) := by
  intro vs t more heq hclose
  obtain ⟨between, rfl, hmore⟩ | ⟨between, rfl, hmore⟩ := List.append_eq_append_iff.mp heq
  · rw [List.append_assoc]
    exact (hus between t more hmore hclose).append ts
  · cases between with
    | nil => simpa using (hus [] t more hmore.symm hclose).append vs
    | cons u between =>
      cases hmore
      exact hts vs t between rfl hclose

theorem EndsOperands.snoc (h : EndsOperands ts) (hall : EndsOperand (ts ++ [t])) :
    EndsOperands (ts ++ [t]) := by
  intro us t' more heq hclose
  obtain ⟨between, rfl, hmore⟩ | ⟨between, rfl, hmore⟩ := List.append_eq_append_iff.mp heq
  · cases between with
    | nil =>
      cases hmore
      simpa using hall
    | cons u between => simp at hmore
  · cases between with
    | nil =>
      cases hmore
      simpa using hall
    | cons u between =>
      cases hmore
      exact h us t' between rfl hclose

theorem Separated.endsOperands {parts : List (List Token)} {inside : List Token} (h : Separated parts inside)
    (hparts : ∀ part ∈ parts, EndsOperands part) : EndsOperands inside := by
  induction h with
  | none => exact .nil
  | last part => exact hparts part (List.mem_singleton_self part)
  | comma part hcomma _ ih =>
    obtain ⟨hpart, hmore⟩ := List.forall_mem_cons.mp hparts
    exact hpart.append ((ih hmore).cons (by rw [hcomma]; exact id))

theorem Derives.endsOperands (h : Derives p ts e) : EndsOperands ts := by
  induction h with
  | term _ ih | factor _ ih | unsigned _ ih | base _ ih | primary _ ih => exact ih
  | sum _ operator _ ihl ihr | product _ operator _ ihl ihr | power _ operator _ ihl ihr =>
    exact ihl.append (ihr.cons operator.not_closes)
  | sign hsign _ ih => exact ih.cons hsign.not_closes
  | @call callee opening closing name inside args hcallee hopening hargs separated hclosing ih =>
    have hinside := separated.endsOperands (by
      simp only [List.forall_mem_map]
      exact ih)
    have hname : EndsOperands [callee] :=
      EndsOperands.nil.snoc (Derives.primary (.name hcallee)).endsOperand
    exact (hname.append (hinside.cons (by rw [hopening]; exact id))).snoc
      (Derives.call hcallee hopening hargs separated hclosing).endsOperand
  | int h => exact EndsOperands.nil.snoc (Derives.primary (.int h)).endsOperand
  | float h => exact EndsOperands.nil.snoc (Derives.primary (.float h)).endsOperand
  | name h => exact EndsOperands.nil.snoc (Derives.primary (.name h)).endsOperand
  | paren hopening inner hclosing ih =>
    exact (ih.cons (by rw [hopening]; exact id)).snoc
      (Derives.primary (.paren hopening inner hclosing)).endsOperand

end Derivations
end Grammar
end Reckoner
