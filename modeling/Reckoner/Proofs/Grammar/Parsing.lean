import Reckoner.Proofs.Grammar.Soundness

/-! The expression of a whole token sequence: exactly the tree that its tokens derive, if that is not
deeper than allowed. -/
namespace Reckoner.Grammar

/-- The lexemes that occur in expressions. -/
def Occurs : Lexeme → Prop
  | .reserved _ | .equals | .dot | .leftBracket | .rightBracket | .leftBrace | .rightBrace | .semicolon
  | .colon | .endOfInput => False
  | _ => True

variable {p : Phrase} {ts : List Token} {e : Expr} {eof : Token}

theorem Joins.occurs {l : Lexeme} {op : BinaryOp} (h : Joins p l op) : Occurs l := by
  cases h <;> trivial

theorem Signs.occurs {l : Lexeme} {s : Sign} (h : Signs l s) : Occurs l := by
  cases h <;> trivial

theorem Separated.occurs {parts : List (List Token)} {inside : List Token} (h : Separated parts inside)
    (hparts : ∀ part ∈ parts, ∀ t ∈ part, Occurs t.lexeme) : ∀ t ∈ inside, Occurs t.lexeme := by
  induction h with
  | none => simp
  | last part => exact hparts part (List.mem_singleton_self part)
  | comma part hcomma _ ih =>
    obtain ⟨hpart, hmore⟩ := List.forall_mem_cons.mp hparts
    refine List.forall_mem_append.mpr ⟨hpart, List.forall_mem_cons.mpr ⟨?_, ih hmore⟩⟩
    rw [hcomma]
    trivial

theorem Derives.occurs (h : Derives p ts e) : ∀ t ∈ ts, Occurs t.lexeme := by
  induction h with
  | term _ ih | factor _ ih | unsigned _ ih | base _ ih | primary _ ih => exact ih
  | sum _ operator _ ihl ihr | product _ operator _ ihl ihr | power _ operator _ ihl ihr =>
    exact List.forall_mem_append.mpr ⟨ihl, List.forall_mem_cons.mpr ⟨operator.occurs, ihr⟩⟩
  | sign hsign _ ih => exact List.forall_mem_cons.mpr ⟨hsign.occurs, ih⟩
  | call hcallee hopening _ separated hclosing ih =>
    have hinside := separated.occurs (by simpa using fun ts e h => ih (ts, e) h)
    simp only [List.forall_mem_cons, List.forall_mem_append, hcallee, hopening, hclosing]
    exact ⟨trivial, trivial, hinside, trivial, List.forall_mem_nil _⟩
  | int h | float h | name h =>
    rw [List.forall_mem_singleton, h]
    trivial
  | paren hopening _ hclosing ih =>
    simp only [List.forall_mem_cons, List.forall_mem_append, hopening, hclosing]
    exact ⟨trivial, ih, trivial, List.forall_mem_nil _⟩

theorem ofTokens_append (ts : List Token) (eof : Token) :
    Cursor.ofTokens (ts ++ [eof]) = ⟨ts ++ [eof], eof⟩ := by
  simp [Cursor.ofTokens]

/-- Derived tokens with the end of input after them are read to this end, if the levels suffice. -/
theorem Derives.outcome (h : Derives .sum ts e) (heof : eof.lexeme = .endOfInput) (maxDepth n : Nat) :
    Outcome maxDepth n e.nesting (.ok (e, ⟨[eof], eof⟩))
      (Grammar.sum (level maxDepth n) 0 ⟨ts ++ [eof], eof⟩) := by
  have hend : (⟨[eof], eof⟩ : Cursor).lexeme = .endOfInput := heof
  have hr := h.reads maxDepth n 0 ⟨[eof], eof⟩ (by simp [Stops, hend, productOp?, powerOp?])
  rwa [resume, chain_stops (by simp [hend, sumOp?])] at hr

theorem Derives.unique {e' : Expr} (h : Derives .sum ts e) (h' : Derives .sum ts e') : e = e' := by
  -- with levels enough for both, the rule reads each of them
  let n := e.nesting + e'.nesting + 1
  have heof : (⟨.endOfInput, Span.between 0 0⟩ : Token).lexeme = .endOfInput := rfl
  have h1 := (h.outcome heof n n).within (by omega)
  have h2 := (h'.outcome heof n n).within (by omega)
  cases h1.symm.trans h2
  rfl

/-- Tokens that are read to their only end of input derive what is read. -/
theorem derivesWithin_of_sum_eq_ok {maxDepth n : Nat} {rest : Cursor}
    (hts : ∀ t ∈ ts, t.lexeme ≠ .endOfInput) (heof : eof.lexeme = .endOfInput)
    (h : sum (level maxDepth n) 0 ⟨ts ++ [eof], eof⟩ = .ok (e, rest)) (hrest : rest.lexeme = .endOfInput) :
    DerivesWithin n .sum ts e := by
  obtain ⟨used, hused, hd⟩ :=
    sum_sound (level_sound maxDepth n) 0 ⟨ts ++ [eof], eof⟩ _ _ heof h
  have hahead : ts ++ [eof] = used ++ rest.ahead := congrArg Cursor.ahead hused
  obtain ⟨more, rfl, hmore⟩ | ⟨left, rfl, hleft⟩ := List.append_eq_append_iff.mp hahead
  · cases more with
    | nil => simpa using hd
    | cons t more =>
      obtain ⟨rfl, -⟩ := List.cons.inj hmore
      have hoccurs := hd.1.occurs eof (by simp)
      rw [heof] at hoccurs
      exact hoccurs.elim
  · cases left with
    | nil => simpa using hd
    | cons t left =>
      have ht : rest.lexeme = t.lexeme := by simp [Cursor.lexeme, Cursor.token, hleft]
      exact absurd (ht.symm.trans hrest) (hts t (by simp))

end Reckoner.Grammar

namespace Reckoner
open Grammar

theorem Expr.ofTokens_eq_ok_iff {maxDepth : UInt32} {tokens : List Token} {e : Expr} :
    Expr.ofTokens maxDepth tokens = .ok e ↔ ∃ rest : Cursor, rest.lexeme = .endOfInput ∧
      sum (level maxDepth.toNat maxDepth.toNat) 0 (Cursor.ofTokens tokens) = .ok (e, rest) := by
  unfold Expr.ofTokens
  rw [bind_eq_ok_iff]
  constructor
  · rintro ⟨⟨e', rest⟩, hs, h⟩
    dsimp only at h
    split at h
    · next hend =>
      cases h
      exact ⟨rest, hend, hs⟩
    · cases h
    · cases h
    · cases h
  · rintro ⟨rest, hend, hs⟩
    refine ⟨(e, rest), hs, ?_⟩
    simp only [hend]
    rfl

theorem Grammar.derivesWithin_of_ofTokens {maxDepth : UInt32} {ts : List Token} {eof : Token} {e : Expr}
    (hts : ∀ t ∈ ts, t.lexeme ≠ .endOfInput) (heof : eof.lexeme = .endOfInput)
    (h : Expr.ofTokens maxDepth (ts ++ [eof]) = .ok e) : DerivesWithin maxDepth.toNat .sum ts e := by
  obtain ⟨rest, hend, hs⟩ := Expr.ofTokens_eq_ok_iff.mp h
  rw [ofTokens_append] at hs
  exact derivesWithin_of_sum_eq_ok hts heof hs hend

theorem Grammar.Derives.ofTokens {maxDepth : UInt32} {ts : List Token} {eof : Token} {e : Expr}
    (h : Derives .sum ts e) (heof : eof.lexeme = .endOfInput) (hle : e.depth ≤ maxDepth.toNat) :
    Expr.ofTokens maxDepth (ts ++ [eof]) = .ok e := by
  rw [Expr.depth] at hle
  rw [Expr.ofTokens_eq_ok_iff, ofTokens_append]
  exact ⟨⟨[eof], eof⟩, heof, (h.outcome heof _ _).within (by omega)⟩

/-- Tokens before the only end of input derive at most one expression. They are parsed as exactly that
expression if it is not too deep, and rejected for its depth if it is. -/
theorem ofTokens_parses_derived (maxDepth : UInt32) (ts : List Token) (eof : Token)
    (hts : ∀ t ∈ ts, t.lexeme ≠ .endOfInput) (heof : eof.lexeme = .endOfInput) :
    (∀ e, Expr.ofTokens maxDepth (ts ++ [eof]) = .ok e ↔
      Derives .sum ts e ∧ e.depth ≤ maxDepth.toNat) ∧
    (∀ e e', Derives .sum ts e → Derives .sum ts e' → e = e') ∧
    (∀ e, Derives .sum ts e → maxDepth.toNat < e.depth →
      ∃ span, Expr.ofTokens maxDepth (ts ++ [eof]) = .error (nestingError maxDepth.toNat span)) := by
  have hcursor : Cursor.ofTokens (ts ++ [eof]) = ⟨ts ++ [eof], eof⟩ := by simp [Cursor.ofTokens]
  refine ⟨fun e => ?_, fun e e' h h' => ?_, fun e h hdeep => ?_⟩
  · constructor
    · intro h
      obtain ⟨hd, hlt⟩ := derivesWithin_of_ofTokens hts heof h
      exact ⟨hd, by rw [Expr.depth]; omega⟩
    · rintro ⟨hd, hle⟩
      exact hd.ofTokens heof hle
  · exact h.unique h'
  · rw [Expr.depth] at hdeep
    obtain ⟨span, hs⟩ := (h.outcome heof maxDepth.toNat maxDepth.toNat).beyond (by omega)
    refine ⟨span, ?_⟩
    rw [Expr.ofTokens, hcursor, hs]
    rfl

/-- A sign stands before a whole power, and the tree is three levels deep. -/
theorem signed_power_parses :
    let ts : List Token := [⟨.minus, ⟨0, 1⟩⟩, ⟨.int 2, ⟨1, 2⟩⟩, ⟨.caret, ⟨2, 3⟩⟩, ⟨.int 3, ⟨3, 4⟩⟩]
    let e : Expr := .signed .negative (.binary .pow (.int 2 ⟨1, 2⟩) (.int 3 ⟨3, 4⟩) ⟨1, 4⟩) ⟨0, 4⟩
    Expr.ofTokens 3 (ts ++ [⟨.endOfInput, ⟨4, 4⟩⟩]) = .ok e ∧
      ∃ span, Expr.ofTokens 2 (ts ++ [⟨.endOfInput, ⟨4, 4⟩⟩]) = .error (nestingError 2 span) := by
  intro ts e
  have hd : Derives .sum ts e := .term (.factor (.sign .minus (.unsigned
    (.power (.primary (.int rfl)) .caret (.unsigned (.base (.primary (.int rfl))))))))
  have hts : ∀ t ∈ ts, t.lexeme ≠ .endOfInput := by simp [ts]
  exact ⟨((ofTokens_parses_derived 3 ts _ hts rfl).1 e).mpr ⟨hd, by decide⟩,
    (ofTokens_parses_derived 2 ts _ hts rfl).2.2 e hd (by decide)⟩

end Reckoner
