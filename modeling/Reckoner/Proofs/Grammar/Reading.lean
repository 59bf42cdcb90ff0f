import Reckoner.Proofs.Grammar.Derivation

/-! What can be derived is read: on the tokens of a derivation the rules give its tree if they have
more levels left than the tree is nested, and the error of the nesting limit if not. -/
namespace Reckoner.Grammar

/-- The rule for the phrases of a kind with a number of levels left. -/
def reader (maxDepth : Nat) : Phrase → Nat → Rule Expr
  | .sum, n => sum (level maxDepth n)
  | .product, n => product (level maxDepth n)
  | .unary, n => level maxDepth n
  | .power, n + 1 => power (level maxDepth n)
  | .call, n + 1 => call (level maxDepth n)
  | .primary, n + 1 => primary (level maxDepth n)
  | _, 0 => tooDeep maxDepth

/-- What happens after the tokens of a phrase: sums and products look for more operands. -/
def resume (maxDepth : Nat) : Phrase → Nat → Nat → Expr → Cursor → Except Diagnostic (Expr × Cursor)
  | .sum, n, opened, e, c => chain sumOp? (product (level maxDepth n)) opened e c
  | .product, n, opened, e, c => chain productOp? (level maxDepth n) opened e c
  | _, _, _, e, c => .ok (e, c)

/-- A lexeme that ends the last operand of a phrase. -/
def Stops : Phrase → Lexeme → Prop
  | .sum, l => productOp? l = none ∧ powerOp? l = none ∧ l ≠ .leftParen
  | .product, l | .unary, l | .power, l => powerOp? l = none ∧ l ≠ .leftParen
  | .call, l | .primary, l => l ≠ .leftParen

def nestingError (maxDepth : Nat) (span : Span) : Diagnostic :=
  .malformed .nestingLimitExceeded s!"maximum nesting depth is {maxDepth}" span

/-- A reading with `n` levels of something with `height` levels: `expected`, unless the levels run out. -/
structure Outcome {α : Type} (maxDepth n height : Nat) (expected actual : Except Diagnostic α) : Prop where
  within : height < n → actual = expected
  beyond : n ≤ height → ∃ span, actual = .error (nestingError maxDepth span)

/-- The cursor with some tokens before what another one has ahead. -/
def before (ts : List Token) (c : Cursor) : Cursor := ⟨ts ++ c.ahead, c.final⟩

@[simp] theorem before_cons_token (t : Token) (ts : List Token) (c : Cursor) :
    (before (t :: ts) c).token = t := rfl

@[simp] theorem before_cons_lexeme (t : Token) (ts : List Token) (c : Cursor) :
    (before (t :: ts) c).lexeme = t.lexeme := rfl

@[simp] theorem before_cons_span (t : Token) (ts : List Token) (c : Cursor) :
    (before (t :: ts) c).span = t.span := rfl

@[simp] theorem before_cons_next (t : Token) (ts : List Token) (c : Cursor) :
    (before (t :: ts) c).next = before ts c := rfl

@[simp] theorem before_nil (c : Cursor) : before [] c = c := rfl

@[simp] theorem before_append (ts us : List Token) (c : Cursor) :
    before (ts ++ us) c = before ts (before us c) := by
  simp [before, List.append_assoc]

@[simp] theorem before_ahead_length (ts : List Token) (c : Cursor) :
    (before ts c).ahead.length = ts.length + c.ahead.length := by simp [before]

variable {maxDepth n opened : Nat} {p : Phrase} {ts us : List Token} {t : Token} {e l r : Expr}
  {op : BinaryOp} {s : Sign}

theorem Outcome.zero {α : Type} {height : Nat} {expected actual : Except Diagnostic α} (span : Span)
    (h : actual = .error (nestingError maxDepth span)) : Outcome maxDepth 0 height expected actual :=
  ⟨fun h0 => absurd h0 (Nat.not_lt_zero _), fun _ => ⟨span, h⟩⟩

/-- Nothing is read a level further down. -/
theorem Outcome.done {α : Type} {a : Except Diagnostic α} : Outcome maxDepth (n + 1) 0 a a :=
  ⟨fun _ => rfl, fun h => absurd h (Nat.not_succ_le_zero n)⟩

theorem Outcome.succ {α : Type} {height : Nat} {expected actual : Except Diagnostic α}
    (h : Outcome maxDepth n height expected actual) :
    Outcome maxDepth (n + 1) (1 + height) expected actual :=
  ⟨fun hn => h.within (by omega), fun hn => h.beyond (by omega)⟩

/-- The levels run out in the first part of a reading or in what follows it. -/
theorem Outcome.bind {α β : Type} {height more : Nat} {x : Except Diagnostic α} {a : α}
    {f : α → Except Diagnostic β} {expected : Except Diagnostic β}
    (first : Outcome maxDepth n height (.ok a) x) (second : Outcome maxDepth n more expected (f a)) :
    Outcome maxDepth n (max height more) expected (x >>= f) := by
  refine ⟨fun hn => ?_, fun hn => ?_⟩
  · rw [first.within (by omega)]
    apply second.within
    omega
  · by_cases hf : n ≤ height
    · obtain ⟨span, hs⟩ := first.beyond hf
      rw [hs]
      exact ⟨span, rfl⟩
    · rw [first.within (by omega)]
      apply second.beyond
      omega

theorem chain_stops {op? : Lexeme → Option BinaryOp} {operand : Rule Expr} {c : Cursor}
    (h : op? c.lexeme = none) : chain op? operand opened e c = .ok (e, c) := by
  rw [chain, h]

theorem chain_fails {op? : Lexeme → Option BinaryOp} {operand : Rule Expr} {op : BinaryOp} {c : Cursor}
    {d : Diagnostic} (hop : op? c.lexeme = some op) (h : operand opened c.next = .error d) :
    chain op? operand opened e c = .error d := by
  rw [chain, hop]
  simp only [h]

theorem chain_steps {op? : Lexeme → Option BinaryOp} {operand : Rule Expr} {op : BinaryOp} {r : Expr}
    {c rest : Cursor} (hop : op? c.lexeme = some op) (h : operand opened c.next = .ok (r, rest))
    (hless : rest.ahead.length < c.ahead.length) :
    chain op? operand opened e c = chain op? operand opened (e.join op r) rest := by
  rw [chain, hop]
  simp only [h, hless, if_true]

/-- The operand after an operator, and the chain that goes on behind it. -/
theorem chain_eq_bind (op? : Lexeme → Option BinaryOp) (operand : Rule Expr) (opened : Nat) (left : Expr)
    (c : Cursor) :
    chain op? operand opened left c =
      match op? c.lexeme with
      | none => .ok (left, c)
      | some op => (do
        let (right, rest) ← operand opened c.next
        if rest.ahead.length < c.ahead.length then chain op? operand opened (left.join op right) rest
        else .ok (left.join op right, rest)) := by
  rw [chain]
  cases op? c.lexeme with
  | none => rfl
  | some op => cases operand opened c.next <;> rfl

/-- The lexemes that an unsigned operand starts with. -/
def StartsOperand : Lexeme → Prop
  | .int _ | .float _ | .name _ | .leftParen => True
  | _ => False

def Starts : Phrase → Lexeme → Prop
  | .sum, l | .product, l | .unary, l => StartsOperand l ∨ ∃ s, sign? l = some s
  | .power, l | .call, l | .primary, l => StartsOperand l

theorem Derives.starts (h : Derives p ts e) : ∃ t us, ts = t :: us ∧ Starts p t.lexeme := by
  induction h with
  | term _ ih | factor _ ih | base _ ih | primary _ ih => exact ih
  | sum _ _ _ ih _ | product _ _ _ ih _ | power _ _ _ ih _ =>
    obtain ⟨t, us, rfl, ht⟩ := ih
    exact ⟨t, _, rfl, ht⟩
  | sign hsign _ _ => exact ⟨_, _, rfl, .inr ⟨_, (sign?_eq_some_iff _ _).mpr hsign⟩⟩
  | unsigned _ ih =>
    obtain ⟨t, us, rfl, ht⟩ := ih
    exact ⟨t, us, rfl, .inl ht⟩
  | call h _ _ _ _ | int h | float h | name h | paren h _ _ => exact ⟨_, _, rfl, by rw [h]; trivial⟩

theorem StartsOperand.sign?_eq_none {l : Lexeme} (h : StartsOperand l) : sign? l = none := by
  cases l <;> first | rfl | exact h.elim

theorem Starts.ne_rightParen {l : Lexeme} (h : Starts .sum l) : l ≠ .rightParen := by
  rintro rfl
  obtain h | ⟨s, h⟩ := h
  · exact h
  · cases h

theorem Joins.stops_sum {l : Lexeme} {op : BinaryOp} (h : Joins .sum l op) : Stops .sum l := by
  cases h <;> simp [Stops, productOp?, powerOp?]

theorem Joins.stops_product {l : Lexeme} {op : BinaryOp} (h : Joins .product l op) : Stops .product l := by
  cases h <;> simp [Stops, powerOp?]

theorem Joins.stops_call {l : Lexeme} {op : BinaryOp} (h : Joins .power l op) : Stops .call l := by
  cases h <;> simp [Stops]

theorem Joins.ne_pow_of_sum {l : Lexeme} {op : BinaryOp} (h : Joins .sum l op) : op ≠ .pow := by
  cases h <;> simp

theorem Joins.ne_pow_of_product {l : Lexeme} {op : BinaryOp} (h : Joins .product l op) : op ≠ .pow := by
  cases h <;> simp

theorem Joins.eq_pow {l : Lexeme} {op : BinaryOp} (h : Joins .power l op) : op = .pow := by
  cases h <;> rfl

theorem call_eq_primary {nested : Rule Expr} {c : Cursor}
    (h : ∀ name, c.lexeme = .name name → c.second ≠ .leftParen) :
    call nested opened c = primary nested opened c := by
  unfold call
  split
  · next hname hparen => exact absurd hparen (h _ hname)
  · rfl

theorem call_eq_bind (nested : Rule Expr) (opened : Nat) {c : Cursor} {name : String}
    (hname : c.lexeme = .name name) (hparen : c.second = .leftParen) :
    call nested opened c = (do
      let (args, rest) ← arguments (sum nested) (opened + 1) c.next.next
      let (close, after) ← closing (opened + 1) rest
      return (.call name c.span args (c.span.merge close.span), after)) := by
  unfold call
  split
  · next hname' _ =>
    cases hname.symm.trans hname'
    rfl
  · next hno => exact absurd hparen (hno _ hname)

section Chains

variable {op? : Lexeme → Option BinaryOp} {operand : Rule Expr} {c rest : Cursor}

theorem leftAssociative_first (h : Outcome maxDepth n e.nesting (.ok (e, rest)) (operand opened c)) :
    Outcome maxDepth n e.nesting (chain op? operand opened e rest)
      (leftAssociative op? operand opened c) := by
  refine ⟨fun hn => ?_, fun hn => ?_⟩
  · rw [leftAssociative, h.within hn]
    rfl
  · obtain ⟨span, hs⟩ := h.beyond hn
    rw [leftAssociative, hs]
    exact ⟨span, rfl⟩

/-- One more operand, which is read where the chain stands after the left ones. -/
theorem leftAssociative_next (hop : op? t.lexeme = some op) (hpow : op ≠ .pow)
    (left : Outcome maxDepth n l.nesting (chain op? operand opened l (before (t :: us) rest))
      (leftAssociative op? operand opened c))
    (right : Outcome maxDepth n r.nesting (.ok (r, rest)) (operand opened (before us rest))) :
    Outcome maxDepth n (l.join op r).nesting (chain op? operand opened (l.join op r) rest)
      (leftAssociative op? operand opened c) := by
  have hj : (l.join op r).nesting = max l.nesting r.nesting := by simp [hpow]
  rw [hj]
  refine ⟨fun hn => ?_, fun hn => ?_⟩
  · rw [left.within (by omega)]
    exact chain_steps hop (right.within (by omega)) (by simp)
  · by_cases hl : n ≤ l.nesting
    · exact left.beyond hl
    · obtain ⟨span, hs⟩ := right.beyond (by omega)
      rw [left.within (by omega)]
      exact ⟨span, chain_fails hop hs⟩

end Chains

/-- The tokens are read as the expression, whatever follows them, as far as the levels reach. -/
def Reads (maxDepth : Nat) (p : Phrase) (ts : List Token) (e : Expr) : Prop :=
  ∀ n opened rest, Stops p rest.lexeme →
    Outcome maxDepth n e.nesting (resume maxDepth p n opened e rest)
      (reader maxDepth p n opened (before ts rest))

theorem Reads.term (h : Reads maxDepth .product ts e) : Reads maxDepth .sum ts e := by
  intro n opened rest hrest
  have ho := h n opened rest hrest.2
  rw [resume, chain_stops hrest.1] at ho
  exact leftAssociative_first ho

theorem Reads.sum (left : Reads maxDepth .sum ts l) (operator : Joins .sum t.lexeme op)
    (right : Reads maxDepth .product us r) : Reads maxDepth .sum (ts ++ t :: us) (l.join op r) := by
  intro n opened rest hrest
  have hr := right n opened rest hrest.2
  rw [resume, chain_stops hrest.1] at hr
  rw [before_append]
  exact leftAssociative_next ((sumOp?_eq_some_iff _ _).mpr operator) operator.ne_pow_of_sum
    (left n opened (before (t :: us) rest) operator.stops_sum) hr

theorem Reads.factor (h : Reads maxDepth .unary ts e) : Reads maxDepth .product ts e := by
  intro n opened rest hrest
  exact leftAssociative_first (h n opened rest hrest)

theorem Reads.product (left : Reads maxDepth .product ts l) (operator : Joins .product t.lexeme op)
    (right : Reads maxDepth .unary us r) : Reads maxDepth .product (ts ++ t :: us) (l.join op r) := by
  intro n opened rest hrest
  rw [before_append]
  exact leftAssociative_next ((productOp?_eq_some_iff _ _).mpr operator) operator.ne_pow_of_product
    (left n opened (before (t :: us) rest) operator.stops_product) (right n opened rest hrest)

theorem Reads.sign (hsign : Signs t.lexeme s) (operand : Reads maxDepth .unary ts e) :
    Reads maxDepth .unary (t :: ts) (.signed s e (t.span.merge e.span)) := by
  intro n opened rest hrest
  cases n with
  | zero => exact .zero t.span rfl
  | succ n =>
    have hs := (sign?_eq_some_iff _ _).mpr hsign
    have ho := (operand n opened rest hrest).succ.bind
      (f := fun x => .ok (Expr.signed s x.1 (t.span.merge x.1.span), x.2)) .done
    simp only [reader, level, unary, before_cons_lexeme, hs]
    rwa [Nat.max_zero] at ho

theorem Reads.unsigned (h : Reads maxDepth .power ts e)
    (hstart : ∃ t us, ts = t :: us ∧ Starts .power t.lexeme) : Reads maxDepth .unary ts e := by
  obtain ⟨t, us, rfl, ht⟩ := hstart
  intro n opened rest hrest
  cases n with
  | zero => exact .zero t.span rfl
  | succ n =>
    have hs : sign? t.lexeme = none := StartsOperand.sign?_eq_none ht
    simp only [reader, level, unary, before_cons_lexeme, hs]
    exact h (n + 1) opened rest hrest

theorem Reads.power (base : Reads maxDepth .call ts l) (operator : Joins .power t.lexeme op)
    (exponent : Reads maxDepth .unary us r) : Reads maxDepth .power (ts ++ t :: us) (l.join op r) := by
  intro n opened rest hrest
  rw [before_append]
  have hb := base n opened (before (t :: us) rest) operator.stops_call
  cases n with
  | zero =>
    obtain ⟨span, hs⟩ := hb.beyond (Nat.zero_le _)
    exact .zero span hs
  | succ n =>
    have hop := (powerOp?_eq_some_iff _ _).mpr operator
    have hx := (exponent n opened rest hrest).succ.bind
      (f := fun x => .ok (l.join op x.1, x.2)) .done
    have hj : (l.join op r).nesting = max l.nesting (max (1 + r.nesting) 0) := by
      simp [operator.eq_pow]
    rw [hj]
    apply hb.bind
    simp only [before_cons_lexeme, hop]
    exact hx

theorem Reads.base (h : Reads maxDepth .call ts e) : Reads maxDepth .power ts e := by
  intro n opened rest hrest
  have ho := h n opened rest hrest.2
  cases n with
  | zero =>
    obtain ⟨span, hs⟩ := ho.beyond (Nat.zero_le _)
    exact .zero span hs
  | succ n =>
    rw [← Nat.max_zero e.nesting]
    apply ho.bind
    simp only [hrest.1]
    exact .done

theorem Reads.primary (hreads : Reads maxDepth .primary ts e) (operand : Derives .primary ts e) :
    Reads maxDepth .call ts e := by
  intro n opened rest hrest
  have ho := hreads n opened rest hrest
  cases n with
  | zero =>
    obtain ⟨span, hs⟩ := ho.beyond (Nat.zero_le _)
    exact .zero span hs
  | succ n =>
    have hc : call (level maxDepth n) opened (before ts rest) =
        Grammar.primary (level maxDepth n) opened (before ts rest) := by
      refine call_eq_primary fun name hname => ?_
      cases operand with
      | int h | float h | paren h _ _ => cases h.symm.trans hname
      | name _ =>
        rw [before, Cursor.second]
        cases hr : rest.ahead with
        | nil => simp
        | cons u us => simpa [Cursor.lexeme, Cursor.token, hr, Stops] using hrest
    change Outcome _ _ _ _ (call (level maxDepth n) opened (before ts rest))
    rw [hc]
    exact ho

theorem Reads.leaf (hflat : e.nesting = 0)
    (h : ∀ nested opened rest, Grammar.primary nested opened (before [t] rest) = .ok (e, rest)) :
    Reads maxDepth .primary [t] e := by
  intro n opened rest _
  cases n with
  | zero => exact .zero t.span rfl
  | succ n =>
    change Outcome _ _ _ _ (Grammar.primary (level maxDepth n) opened (before [t] rest))
    rw [h, hflat]
    exact .done

theorem closing_before {rest : Cursor} (h : t.lexeme = .rightParen) :
    closing opened (before [t] rest) = .ok (t, rest) := by
  simp [closing, h]

theorem Reads.paren {opening close : Token} (hopening : opening.lexeme = .leftParen)
    (inner : Reads maxDepth .sum ts e) (hclosing : close.lexeme = .rightParen) :
    Reads maxDepth .primary (opening :: (ts ++ [close]))
      (.paren e (opening.span.merge close.span)) := by
  intro n opened rest _
  cases n with
  | zero => exact .zero opening.span rfl
  | succ n =>
    have hi := inner n (opened + 1) (before [close] rest) (by simp [Stops, hclosing, productOp?, powerOp?])
    rw [resume, chain_stops (by simp [hclosing, sumOp?])] at hi
    rw [Expr.nesting, ← Nat.max_zero (1 + e.nesting)]
    simp only [reader, Grammar.primary, before_cons_lexeme, hopening, before_cons_next, before_append]
    apply hi.succ.bind
    simp only [before_cons_lexeme, hclosing, closing_before hclosing]
    exact .done

/-- An argument, and the others if there is a comma after it. -/
theorem arguments_eq_bind {item : Rule Expr} {c : Cursor} (h : c.lexeme ≠ .rightParen) :
    arguments item opened c = (do
      let (first, rest) ← item opened c
      match rest.lexeme with
      | .equals => .error (.disallowed "keyword argument" rest.span)
      | .comma =>
        if rest.next.ahead.length < c.ahead.length then do
          let (others, after) ← arguments item opened rest.next
          return (first :: others, after)
        else .ok ([first], rest.next)
      | _ => .ok ([first], rest)) := by
  rw [arguments.eq_def]
  split
  · contradiction
  · cases item opened c with
    | error d => rfl
    | ok x =>
      obtain ⟨first, rest⟩ := x
      simp only [bind, Except.bind]
      cases rest.lexeme with
      | comma =>
        by_cases hless : rest.next.ahead.length < c.ahead.length
        · simp only [hless, if_true]
          cases arguments item opened rest.next <;> rfl
        · simp only [hless, if_false]
      | _ => rfl

/-- The arguments of a call are read one by one, up to the closing parenthesis. -/
theorem arguments_reads (n opened : Nat) {args : List (List Token × Expr)} {inside : List Token}
    {rest : Cursor} (hargs : ∀ a ∈ args, Derives .sum a.1 a.2 ∧ Reads maxDepth .sum a.1 a.2)
    (separated : Separated (args.map Prod.fst) inside) (hrest : rest.lexeme = .rightParen) :
    Outcome maxDepth (n + 1) (Expr.nestingOfAll (args.map Prod.snd))
      (.ok (args.map Prod.snd, rest))
      (arguments (Grammar.sum (level maxDepth n)) opened (before inside rest)) := by
  generalize hparts : args.map Prod.fst = parts at separated
  induction separated generalizing args with
  | none =>
    obtain rfl := List.map_eq_nil_iff.mp hparts
    rw [arguments]
    simp [hrest]
    exact .done
  | last part =>
    obtain ⟨a, rfl, rfl⟩ := List.map_eq_singleton_iff.mp hparts
    obtain ⟨hd, hr⟩ := hargs a (List.mem_singleton_self a)
    have ha := hr n opened rest (by simp [Stops, hrest, productOp?, powerOp?])
    rw [resume, chain_stops (by simp [hrest, sumOp?])] at ha
    obtain ⟨t, us, hts, ht⟩ := hd.starts
    rw [arguments_eq_bind (by rw [hts]; exact ht.ne_rightParen)]
    apply ha.succ.bind
    simp only [hrest]
    exact .done
  | @comma comma part parts tail hcomma _ ih =>
    obtain ⟨a, as, rfl, rfl, rfl⟩ := List.map_eq_cons_iff.mp hparts
    obtain ⟨hd, hr⟩ := hargs a List.mem_cons_self
    have ha := hr n opened (before (comma :: tail) rest) (by simp [Stops, hcomma, productOp?, powerOp?])
    rw [resume, chain_stops (by simp [hcomma, sumOp?])] at ha
    have hmore := ih (fun b hb => hargs b (List.mem_cons_of_mem a hb)) rfl
    obtain ⟨t, us, hts, ht⟩ := hd.starts
    rw [arguments_eq_bind (by rw [hts]; exact ht.ne_rightParen), before_append]
    apply ha.succ.bind
    have hless : (before tail rest).ahead.length <
        (before a.1 (before (comma :: tail) rest)).ahead.length := by
      simp only [before_ahead_length, List.length_cons]
      omega
    simp only [before_cons_lexeme, hcomma, before_cons_next, hless, if_true]
    rw [← Nat.max_zero (Expr.nestingOfAll _)]
    exact hmore.bind .done

theorem Reads.call {callee opening close : Token} {name : String} {inside : List Token}
    {args : List (List Token × Expr)} (hcallee : callee.lexeme = .name name)
    (hopening : opening.lexeme = .leftParen)
    (hargs : ∀ a ∈ args, Derives .sum a.1 a.2 ∧ Reads maxDepth .sum a.1 a.2)
    (separated : Separated (args.map Prod.fst) inside) (hclosing : close.lexeme = .rightParen) :
    Reads maxDepth .call (callee :: opening :: (inside ++ [close]))
      (.call name callee.span (args.map Prod.snd) (callee.span.merge close.span)) := by
  intro n opened rest _
  cases n with
  | zero => exact .zero callee.span rfl
  | succ n =>
    have hlast : (before [close] rest).lexeme = .rightParen := hclosing
    have ha := arguments_reads n (opened + 1) hargs separated hlast
    have hc := call_eq_bind (level maxDepth n) opened
      (c := before (callee :: opening :: (inside ++ [close])) rest) hcallee
      (by simp [before, Cursor.second, hopening])
    change Outcome _ _ _ _ (Grammar.call (level maxDepth n) opened _)
    rw [hc, Expr.nesting, ← Nat.max_zero (Expr.nestingOfAll _)]
    simp only [before_cons_next, before_append]
    apply ha.bind
    simp only [closing_before hclosing]
    exact .done

/-- The main statement, by induction on the derivation. -/
theorem Derives.reads (maxDepth : Nat) (h : Derives p ts e) : Reads maxDepth p ts e := by
  induction h with
  | term _ ih => exact ih.term
  | sum _ operator _ ihl ihr => exact ihl.sum operator ihr
  | factor _ ih => exact ih.factor
  | product _ operator _ ihl ihr => exact ihl.product operator ihr
  | sign hsign _ ih => exact ih.sign hsign
  | unsigned operand ih => exact ih.unsigned operand.starts
  | power _ operator _ ihb ihx => exact ihb.power operator ihx
  | base _ ih => exact ih.base
  | call hcallee hopening hargs separated hclosing ih =>
    exact .call hcallee hopening (fun a ha => ⟨hargs a ha, ih a ha⟩) separated hclosing
  | primary operand ih => exact ih.primary operand
  | int h | float h | name h => exact .leaf rfl fun _ _ _ => by simp [Grammar.primary, h]
  | paren hopening _ hclosing ih => exact ih.paren hopening hclosing

end Reckoner.Grammar
