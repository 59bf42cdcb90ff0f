import Reckoner.Proofs.Calculation.Naming
import Reckoner.Proofs.Grammar.Relabelling

/-! Texts put together: what they have become is evaluated to what their values give. -/
namespace Reckoner
open Grammar Token Lexeme

variable {p : Phrase} {limits : Limits} {s : String} {e : Expr} {ts : List Token} {l : Lexeme} {op : BinaryOp}
  {after rest : List Char} {n : Nat}

theorem mapError_bind {ε ε' α β : Type} (x : Except ε α) (f : α → Except ε β) (g : ε → ε') :
    (x >>= f).mapError g = x.mapError g >>= fun a => (f a).mapError g := by
  cases x <;> rfl

theorem map_intercalate {α β : Type} (f : α → β) (sep : List α) (xs : List (List α)) :
    (sep.intercalate xs).map f = (sep.map f).intercalate (xs.map (List.map f)) := by
  induction xs with
  | nil => rfl
  | cons x xs ih =>
    cases xs with
    | nil => simp
    | cons y xs => simpa [List.intercalate] using ih

namespace Grammar

theorem Joins.lexes (h : Joins p l op) (rest : List Char) : Lexes l.text.toList l ('(' :: rest) := by
  cases h <;> exact lexes_of_scan rfl

end Grammar

theorem Function.lexes (f : Function) (rest : List Char) :
    Lexes f.name.toList (.name f.name) ('(' :: rest) := by
  cases f <;> exact lexes_of_scan rfl

namespace Calculation

/-- A text that can be read, all of whose names may be used. -/
def Valid (s : String) : Prop :=
  ∃ (maxDepth : UInt32) (tokens : List Token) (e : Expr), Token.ofText s = .ok tokens ∧
    Expr.ofTokens maxDepth tokens = .ok e ∧ Whitelist.validate e = .ok ()

/-- The tokens of a valid text and their expression. -/
structure Reading (s : String) (ts : List Token) (e : Expr) : Prop where
  tokens : ∃ eof, eof.lexeme = .endOfInput ∧ Token.ofText s = .ok (ts ++ [eof])
  derived : Derives .sum ts e
  allowed : e.Allowed

theorem Valid.reading (h : Valid s) : ∃ ts e, Reading s ts e := by
  obtain ⟨maxDepth, tokens, e, ht, hp, hv⟩ := h
  obtain ⟨ts, eof, rfl, hts, heof⟩ := scanFrom_shape ht
  exact ⟨ts, e, ⟨eof, heof, ht⟩, (derivesWithin_of_ofTokens hts heof hp).1, Whitelist.validate_eq_ok_iff.mp hv⟩

/-- The tokens of a text derive this expression. -/
def HasTree (s : String) (tree : Expr) : Prop :=
  ∃ ts eof, eof.lexeme = .endOfInput ∧ Token.ofText s = .ok (ts ++ [eof]) ∧ Derives .sum ts tree

/-- A text and its expression are within the limits on their size. -/
structure Fits (limits : Limits) (s : String) (tree : Expr) : Prop where
  length : s.length ≤ limits.maxInputLength.toNat
  depth : tree.depth ≤ limits.maxDepth.toNat
  nodes : tree.nodes ≤ limits.gasLimit.toNat

theorem Reading.hasTree (h : Reading s ts e) : HasTree s e := by
  obtain ⟨eof, heof, ht⟩ := h.tokens
  exact ⟨ts, eof, heof, ht, h.derived⟩

/-- What is read of a text is the expression that its tokens derive. -/
theorem HasTree.eq_of_read {tree : Expr} (h : HasTree s tree) (hread : read limits s = .ok e) : tree = e := by
  obtain ⟨ts, eof, heof, ht, hd⟩ := h
  obtain ⟨-, tokens, ht', hp⟩ := read_eq_ok_iff.mp hread
  obtain ⟨us, eof', rfl, hus, heof'⟩ := scanFrom_shape ht'
  obtain ⟨rfl, -⟩ := List.append_inj' (Except.ok.inj (ht.symm.trans ht')) rfl
  exact hd.unique (derivesWithin_of_ofTokens hus heof' hp).1

/-- Within the limits on its size, a text is evaluated to the value of its expression. -/
theorem Reading.evaluate (h : Reading s ts e) (limits : Limits) (hfits : Fits limits s e) :
    Calculation.evaluate limits s = (Evaluator.value limits.maxIntBits e).mapError EvalError.diagnostic := by
  obtain ⟨eof, heof, ht⟩ := h.tokens
  have hread : read limits s = .ok e :=
    read_eq_ok_iff.mpr ⟨hfits.length, _, ht, h.derived.ofTokens heof hfits.depth⟩
  have hle := (Evaluator.entered_le_nodes limits.maxIntBits e).trans hfits.nodes
  rw [evaluate_of_read hread, Whitelist.validate_eq_ok_iff.mpr h.allowed, Evaluator.run_eq, Nat.zero_add,
    if_pos hle]
  rfl

/-- A text that is scanned to the lexemes of a derivation has its expression, up to places. -/
theorem reading_of_scans {us : List Token} (h : Scans 0 s.toList [] (us.map Token.lexeme) 0)
    (hd : Derives .sum us e) (ha : e.Allowed) : ∃ ts e', Reading s ts e' ∧ e'.bare = e.bare := by
  obtain ⟨ts, end_, hsame, hs⟩ := h 0
  obtain ⟨e', hd', hbare⟩ := hd.relabel hsame
  rw [List.append_nil, scanFrom] at hs
  refine ⟨ts, e', ⟨⟨_, rfl, hs⟩, hd', ?_⟩, hbare⟩
  rw [← Expr.allowed_bare, hbare, Expr.allowed_bare]
  exact ha

theorem Reading.scans (h : Reading s ts e) (hn : 0 < n) (hafter : Delimited after) :
    Scans n s.toList after (ts.map Token.lexeme) n := by
  obtain ⟨eof, -, ht⟩ := h.tokens
  exact .of_scanned (scanFrom_eq_ok_iff.mp ht) rfl (h.derived.stays hn) hafter

/-- A token of a lexeme without a place. -/
def loose (l : Lexeme) : Token := ⟨l, Expr.noSpan⟩

theorem Reading.paren (h : Reading s ts e) : ∃ span,
    Derives .primary (loose .leftParen :: (ts ++ [loose .rightParen])) (.paren e span) :=
  ⟨_, .paren rfl h.derived rfl⟩

/-- Places matter neither for the size of a valid text's expression nor for its value. -/
theorem Reading.same {tree : Expr} (h : Reading s ts tree) (hbare : tree.bare = e.bare) (ha : e.Allowed) :
    tree.depth = e.depth ∧ tree.nodes = e.nodes ∧
      ∀ bits, Evaluator.value bits tree = Evaluator.value bits e := by
  refine ⟨?_, ?_, fun bits => ?_⟩
  · rw [Expr.depth, ← Expr.nesting_bare tree, hbare, Expr.nesting_bare, Expr.depth]
  · rw [← Expr.nodes_bare tree, hbare, Expr.nodes_bare]
  · rw [← Evaluator.value_bare bits tree h.allowed, hbare, Evaluator.value_bare bits e ha]

end Calculation

namespace Grammar

theorem Derives.of_primary (h : Derives .primary ts e) (p : Phrase) : Derives p ts e := by
  have hpower : Derives .power ts e := .base (.primary h)
  cases p with
  | sum => exact .term (.factor (.unsigned hpower))
  | product => exact .factor (.unsigned hpower)
  | unary => exact .unsigned hpower
  | power => exact hpower
  | call => exact .primary h
  | primary => exact h

theorem Joins.derives {t : Token} {us : List Token} {a b : Expr} (h : Joins p t.lexeme op)
    (ha : Derives .primary ts a) (hb : Derives .primary us b) : Derives .sum (ts ++ t :: us) (a.join op b) := by
  cases p with
  | sum => exact .sum (ha.of_primary _) h (hb.of_primary _)
  | product => exact .term (.product (ha.of_primary _) h (hb.of_primary _))
  | power => exact .term (.factor (.unsigned (.power (ha.of_primary _) h (hb.of_primary _))))
  | unary | call | primary => cases h

end Grammar

namespace Calculation

/-- The text that joins two texts in parentheses by an operator. -/
def joinText (s o t : String) : String := "(" ++ s ++ ")" ++ o ++ "(" ++ t ++ ")"

/-- The text that calls a function with texts as its arguments. -/
def callText (f : Function) (args : List String) : String := f.name ++ "(" ++ ",".intercalate args ++ ")"

theorem join_reading {s t : String} {ts us : List Token} {a b : Expr} (hop : Joins p l op)
    (hs : Reading s ts a) (ht : Reading t us b) :
    ∃ vs tree sa sb, Reading (joinText s l.text t) vs tree ∧
      tree.bare = (Expr.join (.paren a sa) op (.paren b sb)).bare := by
  obtain ⟨sa, ha⟩ := hs.paren
  obtain ⟨sb, hb⟩ := ht.paren
  have hd := Joins.derives (t := loose l) hop ha hb
  have hscans : Scans 0 (joinText s l.text t).toList []
      ((loose .leftParen :: (ts ++ [loose .rightParen]) ++
        loose l :: (loose .leftParen :: (us ++ [loose .rightParen]))).map Token.lexeme) 0 := by
    have hleft := Scans.paren (fun after hafter => hs.scans (Nat.succ_pos 0) hafter)
      (l.text.toList ++ ('(' :: (t.toList ++ [')'])) ++ [])
    have hmiddle := Scans.lexeme (n := 0) (hop.lexes (t.toList ++ [')']))
    have hright := Scans.paren (fun after hafter => ht.scans (Nat.succ_pos 0) hafter) []
    rw [hop.parensAfter] at hmiddle
    rw [← List.append_nil ('(' :: (t.toList ++ [')']))] at hmiddle
    have hall := hleft.append (hmiddle.append hright)
    simpa [joinText, loose] using hall
  have hallowed := List.forall_mem_append.mpr ⟨hs.allowed, ht.allowed⟩
  obtain ⟨vs, tree, hr, hbare⟩ := reading_of_scans hscans hd hallowed
  exact ⟨vs, tree, sa, sb, hr, hbare⟩

/-- The expression of a call with these arguments. -/
def callOf (f : Function) (args : List Expr) : Expr := .call f.name Expr.noSpan args Expr.noSpan

theorem callOf_allowed (f : Function) {es : List Expr} (h : ∀ e ∈ es, e.Allowed) : (callOf f es).Allowed := by
  refine List.forall_mem_cons.mpr ⟨by cases f <;> rfl, ?_⟩
  rw [Expr.identifiersOfAll_eq]
  intro i hi
  obtain ⟨e, he, hmem⟩ := List.mem_flatMap.mp hi
  exact h e he i hmem

theorem call_derived (f : Function) {args : List (String × List Token × Expr)}
    (h : ∀ a ∈ args, Reading a.1 a.2.1 a.2.2) : ∃ e,
      Derives .sum (loose (.name f.name) :: loose .leftParen ::
        ([loose .comma].intercalate (args.map fun a => a.2.1) ++ [loose .rightParen])) e ∧
      e.bare = (callOf f (args.map fun a => a.2.2)).bare := by
  have hargs : ∀ a ∈ args.map Prod.snd, Derives .sum a.1 a.2 :=
    List.forall_mem_map.mpr fun a ha => (h a ha).derived
  have hsep : Separated ((args.map Prod.snd).map Prod.fst)
      ([loose .comma].intercalate (args.map fun a => a.2.1)) := by
    rw [List.map_map]
    exact .intercalate rfl _
  refine ⟨_, .term (.factor (.unsigned (.base (.call rfl rfl hargs hsep rfl)))), ?_⟩
  rw [List.map_map]
  rfl

theorem call_reading (f : Function) {args : List (String × List Token × Expr)}
    (h : ∀ a ∈ args, Reading a.1 a.2.1 a.2.2) :
    ∃ vs tree, Reading (callText f (args.map Prod.fst)) vs tree ∧
      tree.bare = (callOf f (args.map fun a => a.2.2)).bare := by
  obtain ⟨e, hd, he⟩ := call_derived f h
  have ha : e.Allowed := by
    rw [← Expr.allowed_bare, he, Expr.allowed_bare]
    exact callOf_allowed f (List.forall_mem_map.mpr fun a ha => (h a ha).allowed)
  have hinside : ∀ x ∈ args.map fun a => (a.1.toList, a.2.1.map Token.lexeme), ∀ after, Delimited after →
      Scans 1 x.1 after x.2 1 :=
    List.forall_mem_map.mpr fun a ha after hafter => (h a ha).scans Nat.one_pos hafter
  have hparen := Scans.paren (n := 0) (fun after hafter => Scans.intercalate hinside hafter) []
  have hname (inside : List Char) :
      Scans 0 f.name.toList ('(' :: (inside ++ [')']) ++ []) [.name f.name] 0 := .lexeme (f.lexes _)
  have hall := (hname _).append hparen
  obtain ⟨vs, tree, hr, hbare⟩ := reading_of_scans (s := callText f (args.map Prod.fst))
    (by simpa [callText, loose, map_intercalate, Function.comp_def] using hall) hd ha
  exact ⟨vs, tree, hr, hbare.trans he⟩

theorem values_mapError {bits : UInt64} {args : List (String × List Token × Expr)}
    (h : ∀ a ∈ args, evaluate limits a.1 = (Evaluator.value bits a.2.2).mapError EvalError.diagnostic) :
    (Evaluator.values bits (args.map fun a => a.2.2)).mapError EvalError.diagnostic =
      (args.map Prod.fst).mapM (evaluate limits) := by
  induction args with
  | nil => rfl
  | cons a args ih =>
    obtain ⟨hfirst, hmore⟩ := List.forall_mem_cons.mp h
    rw [List.map_cons, List.map_cons, List.mapM_cons, hfirst, ← ih hmore, Evaluator.values]
    cases Evaluator.value bits a.2.2 with
    | error d => rfl
    | ok x => cases Evaluator.values bits (args.map fun a => a.2.2) <;> rfl

/-- The spellings of the operators between two operands. -/
def spellings : List (String × BinaryOp) :=
  [("+", .add), ("-", .sub), ("*", .mul), ("/", .div), ("//", .floorDiv), ("%", .mod), ("**", .pow),
    ("^", .pow)]

theorem joins_of_mem_spellings {o : String} (h : (o, op) ∈ spellings) : ∃ p l, Joins p l op ∧ l.text = o := by
  simp only [spellings, List.mem_cons, Prod.mk.injEq, List.not_mem_nil, or_false] at h
  obtain ⟨rfl, rfl⟩ | ⟨rfl, rfl⟩ | ⟨rfl, rfl⟩ | ⟨rfl, rfl⟩ | ⟨rfl, rfl⟩ | ⟨rfl, rfl⟩ | ⟨rfl, rfl⟩ |
    ⟨rfl, rfl⟩ := h
  · exact ⟨_, _, .plus, rfl⟩
  · exact ⟨_, _, .minus, rfl⟩
  · exact ⟨_, _, .star, rfl⟩
  · exact ⟨_, _, .slash, rfl⟩
  · exact ⟨_, _, .slashSlash, rfl⟩
  · exact ⟨_, _, .percent, rfl⟩
  · exact ⟨_, _, .starStar, rfl⟩
  · exact ⟨_, _, .caret, rfl⟩

theorem evaluate_join {o t : String} (ho : (o, op) ∈ spellings) (hs : Valid s) (ht : Valid t) :
    ∃ tree, HasTree (joinText s o t) tree ∧ (Fits limits (joinText s o t) tree →
      evaluate limits (joinText s o t) = do
        let x ← evaluate limits s
        let y ← evaluate limits t
        (Number.binary op x y limits.maxIntBits).mapError EvalError.diagnostic) := by
  obtain ⟨p, l, hop, rfl⟩ := joins_of_mem_spellings ho
  obtain ⟨ts, a, hs⟩ := hs.reading
  obtain ⟨us, b, ht⟩ := ht.reading
  obtain ⟨vs, tree, sa, sb, hu, hbare⟩ := join_reading hop hs ht
  refine ⟨tree, hu.hasTree, fun hfits => ?_⟩
  have hallowed : (Expr.join (.paren a sa) op (.paren b sb)).Allowed :=
    List.forall_mem_append.mpr ⟨hs.allowed, ht.allowed⟩
  obtain ⟨hdepth, hnodes, hvalue⟩ := hu.same hbare hallowed
  have hlength : s.length ≤ (joinText s l.text t).length ∧ t.length ≤ (joinText s l.text t).length := by
    simp only [joinText, String.length_append]
    omega
  have hd := hfits.depth
  have hn := hfits.nodes
  have hl := hfits.length
  rw [hdepth, Expr.depth, Expr.nesting_join, Expr.nesting, Expr.nesting] at hd
  rw [hnodes, Expr.join, Expr.nodes, Expr.nodes, Expr.nodes] at hn
  have hs' := hs.evaluate limits ⟨by omega, by rw [Expr.depth]; omega, by omega⟩
  have ht' := ht.evaluate limits ⟨by omega, by rw [Expr.depth]; split at hd <;> omega, by omega⟩
  rw [hu.evaluate limits hfits, hvalue, hs', ht']
  simp only [Expr.join, Evaluator.value, mapError_bind]

theorem exists_readings {args : List String} (h : ∀ s ∈ args, Valid s) :
    ∃ rs : List (String × List Token × Expr), rs.map Prod.fst = args ∧
      ∀ r ∈ rs, Reading r.1 r.2.1 r.2.2 := by
  induction args with
  | nil => exact ⟨[], rfl, List.forall_mem_nil _⟩
  | cons s args ih =>
    obtain ⟨hfirst, hmore⟩ := List.forall_mem_cons.mp h
    obtain ⟨ts, e, hr⟩ := hfirst.reading
    obtain ⟨rs, rfl, hrs⟩ := ih hmore
    exact ⟨(s, ts, e) :: rs, rfl, List.forall_mem_cons.mpr ⟨hr, hrs⟩⟩

theorem length_le_intercalate (sep : String) {args : List String} (h : s ∈ args) :
    s.length ≤ (sep.intercalate args).length := by
  induction args with
  | nil => cases h
  | cons t args ih =>
    cases args with
    | nil =>
      cases List.mem_singleton.mp h
      simp
    | cons u args =>
      rw [String.intercalate_cons_cons, String.length_append, String.length_append]
      obtain rfl | h := List.mem_cons.mp h
      · omega
      · have := ih h
        omega

theorem value_callOf (bits : UInt64) (f : Function) (es : List Expr) :
    Evaluator.value bits (callOf f es) = Evaluator.values bits es >>= f.call := by
  have hcallee : Evaluator.callee f.name Expr.noSpan = .ok f := by cases f <;> rfl
  rw [callOf, Evaluator.value, hcallee]
  rfl

theorem evaluate_call (f : Function) {args : List String} (h : ∀ s ∈ args, Valid s) :
    ∃ tree, HasTree (callText f args) tree ∧ (Fits limits (callText f args) tree →
      evaluate limits (callText f args) = do
        let xs ← args.mapM (evaluate limits)
        (f.call xs).mapError EvalError.diagnostic) := by
  obtain ⟨rs, rfl, hrs⟩ := exists_readings h
  obtain ⟨vs, tree, hu, hbare⟩ := call_reading f hrs
  refine ⟨tree, hu.hasTree, fun hfits => ?_⟩
  have hallowed := callOf_allowed f (List.forall_mem_map.mpr fun r hr => (hrs r hr).allowed)
  obtain ⟨hdepth, hnodes, hvalue⟩ := hu.same hbare hallowed
  have hd := hfits.depth
  have hn := hfits.nodes
  have hl := hfits.length
  rw [hdepth, Expr.depth, callOf, Expr.nesting] at hd
  rw [hnodes, callOf, Expr.nodes] at hn
  have hfit : ∀ r ∈ rs, Fits limits r.1 r.2.2 := fun r hr => by
    have hlength := length_le_intercalate "," (List.mem_map_of_mem (f := Prod.fst) hr)
    have hmem := List.mem_map_of_mem (f := fun r : String × List Token × Expr => r.2.2) hr
    have hdeep := (Expr.nestingOfAll_le_iff _ _).mp (Nat.le_refl _) _ hmem
    have hsize := Expr.nodes_le_nodesOfAll hmem
    simp only [callText, String.length_append] at hl
    exact ⟨by omega, by rw [Expr.depth]; omega, by omega⟩
  rw [hu.evaluate limits hfits, hvalue, value_callOf, mapError_bind,
    values_mapError fun r hr => (hrs r hr).evaluate limits (hfit r hr)]

/-- Texts that are valid on their own are evaluated on their own wherever they are put together: joined by
an operator, each in parentheses, or as the arguments of a function. The result is that of the values from
the left to the right, or the first failure among them. -/
theorem evaluate_is_compositional (limits : Limits) :
    (∀ o op s t, (o, op) ∈ spellings → Valid s → Valid t →
      ∃ tree, HasTree (joinText s o t) tree ∧ (Fits limits (joinText s o t) tree →
        evaluate limits (joinText s o t) = do
          let x ← evaluate limits s
          let y ← evaluate limits t
          (Number.binary op x y limits.maxIntBits).mapError EvalError.diagnostic)) ∧
    (∀ f args, (∀ s ∈ args, Valid s) →
      ∃ tree, HasTree (callText f args) tree ∧ (Fits limits (callText f args) tree →
        evaluate limits (callText f args) = do
          let xs ← args.mapM (evaluate limits)
          (f.call xs).mapError EvalError.diagnostic)) :=
  ⟨fun _ _ _ _ => evaluate_join, fun f _ => evaluate_call f⟩

/-- A difference as a whole is taken from another number, and is one argument of a function. -/
theorem difference_evaluated_as_operand_and_argument :
    evaluate .standard "(1)-(2-3)" = .ok (.int 2) ∧ evaluate .standard "round(1,2-3)" = .ok (.int 0) := by
  have hone : Valid "1" := ⟨1, _, _, by cbv, by cbv, by cbv⟩
  have hdifference : Valid "2-3" := ⟨1, _, _, by cbv, by cbv, by cbv⟩
  obtain ⟨hjoin, hcall⟩ := evaluate_is_compositional .standard
  constructor
  · obtain ⟨tree, htree, h⟩ := hjoin "-" .sub "1" "2-3" (by simp [spellings]) hone hdifference
    have hread : read .standard (joinText "1" "-" "2-3") = .ok (.binary .sub (.paren (.int 1 ⟨1, 2⟩) ⟨0, 3⟩)
        (.paren (.binary .sub (.int 2 ⟨5, 6⟩) (.int 3 ⟨7, 8⟩) ⟨5, 8⟩) ⟨4, 9⟩) ⟨0, 9⟩) := by
      cbv
    cases htree.eq_of_read hread
    exact (h ⟨by decide, by decide, by decide⟩).trans (by cbv)
  · obtain ⟨tree, htree, h⟩ := hcall .round ["1", "2-3"] (by simp [hone, hdifference])
    have hread : read .standard (callText .round ["1", "2-3"]) = .ok (.call "round" ⟨0, 5⟩
        [.int 1 ⟨6, 7⟩, .binary .sub (.int 2 ⟨8, 9⟩) (.int 3 ⟨10, 11⟩) ⟨8, 11⟩] ⟨0, 12⟩) := by
      cbv
    cases htree.eq_of_read hread
    have hargs : ["1", "2-3"].mapM (evaluate .standard) = .ok [.int 1, .int (-1)] := by cbv
    have hround : Number.roundInt 1 (-1) = 0 := by decide +kernel
    refine (h ⟨by decide, by decide, by decide⟩).trans ?_
    rw [hargs]
    exact congrArg (fun r => Except.ok (Number.int r)) hround

end Calculation
end Reckoner
