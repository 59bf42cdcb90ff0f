import Reckoner.Proofs.Calculation.Diagnostics

/-! A text that may be read at all is evaluated with less gas than it has characters: a node is entered
once at most, every node has a token of its own, and every token has a character of its own. -/
namespace Reckoner

variable {limits : Limits} {source : String} {d : Diagnostic} {e : Expr}

namespace Grammar

variable {p : Phrase} {ts : List Token}

theorem nodesOfAll_le {args : List (List Token × Expr)} (h : ∀ a ∈ args, a.2.nodes ≤ a.1.length) :
    Expr.nodesOfAll (args.map Prod.snd) ≤ (args.map Prod.fst).flatten.length := by
  induction args with
  | nil => exact Nat.le_refl 0
  | cons a args ih =>
    obtain ⟨hfirst, hmore⟩ := List.forall_mem_cons.mp h
    simp only [List.map_cons, Expr.nodesOfAll, List.flatten_cons, List.length_append]
    exact Nat.add_le_add hfirst (ih hmore)

/-- Every node of a derived expression has a token of its own: an operator, a sign, a literal, a name, or
the parenthesis that opens it. -/
theorem Derives.nodes_le (h : Derives p ts e) : e.nodes ≤ ts.length := by
  induction h with
  | term _ ih | factor _ ih | unsigned _ ih | base _ ih | primary _ ih => exact ih
  | sum _ _ _ ihl ihr | product _ _ _ ihl ihr | power _ _ _ ihl ihr =>
    simp only [Expr.join, Expr.nodes, List.length_append, List.length_cons]
    omega
  | sign _ _ ih =>
    simp only [Expr.nodes, List.length_cons]
    omega
  | call _ _ _ separated _ ih =>
    have hargs := Nat.le_trans (nodesOfAll_le ih) separated.flatten_sublist.length_le
    simp only [Expr.nodes, List.length_cons, List.length_append]
    omega
  | int _ | float _ | name _ => exact Nat.le_refl 1
  | paren _ _ _ ih =>
    simp only [Expr.nodes, List.length_cons, List.length_append]
    omega

end Grammar

/-- Every token but the end of input has a character of its own. -/
theorem Token.Scanned.length_le {offset opened : Nat} {cs : List Char} {tokens : List Token}
    (h : Scanned offset opened cs tokens) : tokens.length ≤ cs.length + 1 := by
  induction h with
  | done _ _ => exact Nat.le_refl 1
  | skip _ _ ih => exact Nat.le_succ_of_le ih
  | lexeme h _ ih =>
    have hless := h.length_lt
    rw [List.length_cons]
    omega

theorem Diagnostic.ne_gasExhausted_of_kind (h : d.code.kind ≠ .evaluation) : d.code ≠ .gasExhausted := by
  intro hcode
  rw [hcode] at h
  exact h rfl

theorem EvalError.OfOperands.ne_gasExhausted {failure : EvalError} (h : failure.OfOperands) :
    failure.diagnostic.code ≠ .gasExhausted := by
  cases failure with
  | gasExhausted => exact h.elim
  | _ => simp only [diagnostic, Diagnostic.code]; decide

namespace Calculation

/-- Reading reports what is wrong with the text, and never the meter. -/
theorem read_ne_gasExhausted (h : read limits source = .error d) : d.code ≠ .gasExhausted := by
  have hmalformed : Diagnostic.Kind.malformed ≠ .evaluation := by decide
  have hdisallowed : Diagnostic.Kind.disallowedConstruct ≠ .evaluation := by decide
  apply Diagnostic.ne_gasExhausted_of_kind
  unfold read at h
  dsimp only at h
  split at h
  · cases h
    exact hmalformed
  obtain htokens | ⟨tokens, htokens, hparse⟩ := bind_eq_error_iff.mp h
  · have hscan : Token.scanFrom (Token.byteCount []) 0 source.toList = .error d := htokens
    obtain ⟨fault, gap, w, after, hf⟩ := Token.scanFrom_eq_error hscan
    rw [hf.diagnostic]
    exact ne_of_eq_of_ne fault.code_kind hmalformed
  · have hne : tokens ≠ [] := by
      obtain ⟨ts, eof, rfl, -⟩ := Token.scanFrom_shape htokens
      simp
    obtain ⟨t, -, hd⟩ := Expr.exists_refuses_of_ofTokens hne hparse
    rw [hd.code]
    obtain hk | hk := hd.kind <;> rw [hk]
    · exact hmalformed
    · exact hdisallowed

/-- The meter stands at the number of nodes entered, or at one past the limit if there are more. -/
theorem run_gas_le_nodes (limits : Limits) (e : Expr) : (Evaluator.run limits 0 e).2 ≤ e.nodes := by
  have hle := Evaluator.entered_le_nodes limits.maxIntBits e
  rw [Evaluator.run_eq]
  split
  · dsimp only
    omega
  · dsimp only
    omega

/-- The tree of a text has at most as many nodes as the text has tokens, and no more tokens than characters. -/
theorem exists_tokens_of_read (h : read limits source = .ok e) :
    ∃ ts eof, Token.ofText source = .ok (ts ++ [eof]) ∧ (∀ t ∈ ts, t.lexeme ≠ .endOfInput) ∧
      eof.lexeme = .endOfInput ∧ e.nodes ≤ ts.length ∧ ts.length ≤ source.length := by
  obtain ⟨-, tokens, htokens, hparse⟩ := read_eq_ok_iff.mp h
  obtain ⟨ts, eof, rfl, hts, heof⟩ := Token.scanFrom_shape htokens
  have hlength := (Token.scanFrom_eq_ok_iff.mp htokens).length_le
  rw [List.length_append, List.length_singleton] at hlength
  exact ⟨ts, eof, htokens, hts, heof, (Grammar.derivesWithin_of_ofTokens hts heof hparse).1.nodes_le,
    Nat.le_of_succ_le_succ hlength⟩

/-- Where the gas covers the longest text, the meter changes nothing. -/
theorem run_eq_value (hgas : limits.maxInputLength ≤ limits.gasLimit) (h : read limits source = .ok e) :
    (Evaluator.run limits 0 e).1 = Evaluator.value limits.maxIntBits e := by
  obtain ⟨ts, _, -, -, -, hnodes, hlength⟩ := exists_tokens_of_read h
  have hentered : Evaluator.entered limits.maxIntBits e ≤ limits.gasLimit.toNat :=
    calc Evaluator.entered limits.maxIntBits e
      _ ≤ e.nodes := Evaluator.entered_le_nodes _ e
      _ ≤ ts.length := hnodes
      _ ≤ source.length := hlength
      _ ≤ limits.maxInputLength.toNat := (read_eq_ok_iff.mp h).1
      _ ≤ limits.gasLimit.toNat := UInt64.le_iff_toNat_le.mp hgas
  rw [Evaluator.run_eq, Nat.zero_add, if_pos hentered]

/-- With gas for as many nodes as a text may have characters, the gas never runs out. The meter counts the
nodes that are entered; the tree has at least as many, the text as many tokens, and as many characters. -/
theorem gas_suffices (limits : Limits) (hgas : limits.maxInputLength ≤ limits.gasLimit) (source : String) :
    (∀ d, evaluate limits source = .error d → d.code ≠ .gasExhausted) ∧
    ∀ e, read limits source = .ok e →
      (Evaluator.run limits 0 e).1 = Evaluator.value limits.maxIntBits e ∧
      (Evaluator.run limits 0 e).2 ≤ e.nodes ∧
      ∃ ts eof, Token.ofText source = .ok (ts ++ [eof]) ∧ (∀ t ∈ ts, t.lexeme ≠ .endOfInput) ∧
        eof.lexeme = .endOfInput ∧ e.nodes ≤ ts.length ∧ ts.length ≤ source.length := by
  refine ⟨fun d h => ?_,
    fun e hread => ⟨run_eq_value hgas hread, run_gas_le_nodes limits e, exists_tokens_of_read hread⟩⟩
  cases hread : read limits source with
  | error d' =>
    rw [evaluate, result, hread] at h
    cases h
    exact read_ne_gasExhausted hread
  | ok e =>
    rw [evaluate_of_read hread, run_eq_value hgas hread] at h
    obtain hvalid | ⟨_, hvalid, hvalue⟩ := bind_eq_error_iff.mp h
    · rw [Whitelist.validate_eq] at hvalid
      split at hvalid <;> cases hvalid
      exact Diagnostic.ne_gasExhausted_of_kind (by simp [Diagnostic.code]; decide)
    · cases hfailure : Evaluator.value limits.maxIntBits e with
      | ok v =>
        rw [hfailure] at hvalue
        cases hvalue
      | error failure =>
        rw [hfailure] at hvalue
        cases hvalue
        apply EvalError.OfOperands.ne_gasExhausted
        exact Evaluator.value_arithmetic limits.maxIntBits e (Whitelist.validate_eq_ok_iff.mp hvalid) failure hfailure

/-- The standard limits are such limits. The meter of a failed division stands at five of six nodes. -/
theorem division_by_zero_within_gas :
    Limits.standard.maxInputLength ≤ Limits.standard.gasLimit ∧
    evaluate .standard "(1/0) - 2" = .error .divisionByZero ∧
    Diagnostic.divisionByZero.code ≠ .gasExhausted ∧
    ∃ e, read .standard "(1/0) - 2" = .ok e ∧ (Evaluator.run .standard 0 e).2 = 5 ∧ e.nodes = 6 ∧
      (Evaluator.run .standard 0 e).2 ≤ e.nodes := by
  have hgas : Limits.standard.maxInputLength ≤ Limits.standard.gasLimit := by decide
  have hfailed : evaluate .standard "(1/0) - 2" = .error .divisionByZero := by cbv
  obtain ⟨e, hread, hcount, hnodes⟩ : ∃ e, read .standard "(1/0) - 2" = .ok e ∧
      (Evaluator.run .standard 0 e).2 = 5 ∧ e.nodes = 6 := ⟨_, by cbv, by cbv, by cbv⟩
  obtain ⟨hcode, htree⟩ := gas_suffices .standard hgas "(1/0) - 2"
  exact ⟨hgas, hfailed, hcode _ hfailed, e, hread, hcount, hnodes, (htree e hread).2.1⟩

end Calculation
end Reckoner
