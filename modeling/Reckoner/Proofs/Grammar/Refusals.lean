import Reckoner.Proofs.Grammar.Parsing
import Reckoner.Proofs.Grammar.Tracing

/-! Where tokens are refused: at the first one with which no expression goes on. -/
namespace Reckoner.Grammar
open State

variable {n : Nat} {c rest : Cursor} {s s' : State} {t eof : Token} {l : Lexeme} {ts used : List Token}
  {named : Bool}

/-- All tokens are read up to the end of input, or the cursor is at one of them. -/
theorem token_of_before (hused : (⟨ts ++ [eof], eof⟩ : Cursor) = before used rest)
    (hrun : s.run used = some s') (heof : eof.lexeme = .endOfInput) :
    used = ts ∧ rest.token = eof ∨ ∃ more, ts = used ++ rest.token :: more := by
  have hahead : ts ++ [eof] = used ++ rest.ahead := congrArg Cursor.ahead hused
  obtain ⟨more, rfl, hmore⟩ | ⟨left, rfl, hleft⟩ := List.append_eq_append_iff.mp hahead
  · cases more with
    | nil => exact .inl ⟨by simp, by simp [Cursor.token, show rest.ahead = [eof] from hmore.symm]⟩
    | cons t more =>
      obtain ⟨rfl, -⟩ := List.cons.inj hmore
      exact absurd heof (ne_endOfInput_of_run hrun eof (by simp))
  · cases left with
    | nil => exact .inl ⟨by simp, by simp [Cursor.token, hleft]⟩
    | cons t left => exact .inr ⟨left, by simp [Cursor.token, hleft]⟩

theorem sum_traces (ts : List Token) (heof : eof.lexeme = .endOfInput) (maxDepth : Nat) (hle : ts.length + 1 ≤ n) :
    Traces start ⟨ts ++ [eof], eof⟩ (Completes .sum [])
      (sum (level maxDepth n) 0 ⟨ts ++ [eof], eof⟩) := by
  refine sum_tracks (level_tracks maxDepth n) [] false _ ⟨?_, heof, ?_⟩ (by simp)
  · simp
  · simpa using hle

/-- Tokens that leave nothing open and nothing missing are read, and so they derive what is read. -/
theorem exists_derives_of_run (h : start.run ts = some ⟨[], .operator named⟩) : ∃ e, Derives .sum ts e := by
  obtain ⟨eof, heof⟩ : ∃ eof : Token, eof.lexeme = .endOfInput := ⟨⟨.endOfInput, .point 0⟩, rfl⟩
  have htraces := sum_traces ts heof 0 (Nat.le_refl _)
  -- the run goes on behind every prefix, so the reading stops at the end
  have hend {used : List Token} {rest : Cursor} {s' : State} (hused : ⟨ts ++ [eof], eof⟩ = before used rest)
      (hrun : start.run used = some s') (hstuck : s'.step rest.lexeme = none) :
      used = ts ∧ rest.lexeme = .endOfInput := by
    obtain ⟨rfl, htoken⟩ | ⟨more, rfl⟩ := token_of_before hused hrun heof
    · exact ⟨rfl, (congrArg Token.lexeme htoken).trans heof⟩
    · cases (run_of_stuck (t := rest.token) hrun hstuck more).symm.trans h
  cases hsum : sum (level 0 (ts.length + 1)) 0 ⟨ts ++ [eof], eof⟩ with
  | ok result =>
    rw [hsum] at htraces
    cases htraces with
    | ok hused hrun hdone =>
      have hrest := (hend hused hrun hdone.not_step).2
      exact ⟨_, (derivesWithin_of_sum_eq_ok (ne_endOfInput_of_run h) heof hsum hrest).1⟩
  | error d =>
    rw [hsum] at htraces
    cases htraces with
    | error hused hrun hblames =>
      obtain ⟨rfl, hrest⟩ := hend hused hrun hblames.stuck
      cases hrun.symm.trans h
      cases hblames with
      | ended _ _ hopen => exact absurd rfl (hopen named)
      | disallowed _ _ hforeign => exact absurd hrest hforeign.ne_endOfInput
      | unexpected _ _ hne => exact absurd hrest hne

theorem viable_iff : Viable ts ↔ ∃ s, start.run ts = some s := by
  refine ⟨Viable.run, ?_⟩
  rintro ⟨s, hs⟩
  obtain ⟨us, named, hus⟩ := exists_run s
  obtain ⟨e, hd⟩ := exists_derives_of_run ((run_append hs).trans hus)
  exact ⟨us, e, hd⟩

/-- A token, after some that an expression begins with, that calls for another construct: a reserved
word, its punctuation, or a comma after an operand that is not an argument of a call. -/
def Disallowed (lead : List Token) (t : Token) : Prop :=
  (∃ word, t.lexeme = .reserved word) ∨ t.lexeme.isDisallowedPunctuation ∨
    t.lexeme = .comma ∧ EndsOperand lead ∧ (openings lead).head? ≠ some .call

/-- The failure of tokens with the end of input behind them: at the first token, or else at the end,
such that no expression begins with the tokens up to there. -/
inductive Refused (ts : List Token) (eof : Token) : Diagnostic → Prop
  | atEnd (message : String) (hviable : Viable ts) :
      Refused ts eof (.malformed
        (if ts.countP (·.lexeme.isRightParen) < ts.countP (·.lexeme.isLeftParen) then .unclosedParen
          else .unexpectedEnd) message eof.span)
  | disallowed {lead t rest} (construct : String) (hts : ts = lead ++ t :: rest) (hlead : Viable lead)
      (hfirst : ¬ Viable (lead ++ [t])) (h : Disallowed lead t) : Refused ts eof (.disallowed construct t.span)
  | unexpected {lead t rest} (message : String) (hts : ts = lead ++ t :: rest) (hlead : Viable lead)
      (hfirst : ¬ Viable (lead ++ [t])) (h : ¬ Disallowed lead t) :
      Refused ts eof (.malformed .unexpectedToken message t.span)

theorem isSome_construct?_iff :
    (construct? l).isSome ↔ (∃ word, l = .reserved word) ∨ l.isDisallowedPunctuation := by
  cases l <;> simp [construct?, Lexeme.isDisallowedPunctuation]

theorem foreign_iff (hrun : start.run ts = some s) (hstuck : s.step t.lexeme = none) :
    Foreign s t.lexeme ↔ Disallowed ts t := by
  have hends : EndsOperand ts ↔ ∃ named, s.expected = .operator named := by
    rw [← closes_iff_of_run hrun]
    constructor
    · rintro ⟨front, operand, e, rfl, hd⟩
      obtain ⟨us, t, rfl, ht⟩ := hd.closes
      exact ⟨front ++ us, t, (List.append_assoc ..).symm, ht⟩
    · rintro ⟨us, t, rfl, ht⟩
      obtain ⟨more, e, hd⟩ := viable_iff.mpr ⟨s, hrun⟩
      exact hd.endsOperands us t more (by simp) ht
  rw [Foreign, Disallowed, isSome_construct?_iff, or_assoc, hends, openings_of_run hrun]
  refine or_congr_right (or_congr_right (and_congr_right fun hcomma => (and_iff_left_of_imp ?_).symm))
  -- a comma between arguments is a step
  rintro ⟨named, hs⟩ hcall
  obtain ⟨opened, expected⟩ := s
  cases hs
  obtain ⟨outer, rfl⟩ := List.head?_eq_some_iff.mp hcall
  rw [hcomma] at hstuck
  cases hstuck

theorem Refused.of_blames {d : Diagnostic} (hts : ∀ t ∈ ts, t.lexeme ≠ .endOfInput)
    (heof : eof.lexeme = .endOfInput) (hused : (⟨ts ++ [eof], eof⟩ : Cursor) = before used rest)
    (hrun : start.run used = some s) (h : Blames s rest d) : Refused ts eof d := by
  have hviable : Viable used := viable_iff.mpr ⟨s, hrun⟩
  obtain ⟨rfl, htoken⟩ | ⟨more, heq⟩ := token_of_before hused hrun heof
  · have hrest : rest.lexeme = .endOfInput := (congrArg Token.lexeme htoken).trans heof
    cases h with
    | ended message _ _ =>
      have hopen : s.opened = [] ↔ ¬ used.countP (·.lexeme.isRightParen) < used.countP (·.lexeme.isLeftParen) := by
        have hcount := length_opened_of_run hrun
        rw [← List.length_eq_zero_iff]
        simp only [start, List.length_nil] at hcount
        omega
      rw [Cursor.span, htoken]
      simpa only [hopen, ite_not] using Refused.atEnd message hviable
    | disallowed _ _ hforeign => exact absurd hrest hforeign.ne_endOfInput
    | unexpected _ _ hne => exact absurd hrest hne
  · have hfirst : ¬ Viable (used ++ [rest.token]) := by
      rw [viable_iff, run_of_stuck hrun h.stuck]
      simp
    have hiff := foreign_iff (t := rest.token) hrun h.stuck
    cases h with
    | ended _ hend => exact absurd hend (hts rest.token (by simp [heq]))
    | disallowed construct _ hforeign => exact .disallowed construct heq hviable hfirst (hiff.mp hforeign)
    | unexpected message _ _ hnot => exact .unexpected message heq hviable hfirst (mt hiff.mpr hnot)

/-- A sum is over, but the tokens are not. -/
theorem end_blames (h : Completes .sum [] s c) (hne : c.lexeme ≠ .endOfInput) (context : String) :
    (c.lexeme = .comma → Blames s c (.disallowed "tuple" c.span)) ∧
    (c.lexeme = .rightParen → Blames s c (.malformed .unexpectedToken "unmatched ')'" c.span)) ∧
    (c.lexeme ≠ .comma → Blames s c (unexpected context 0 c)) := by
  have hstuck := h.not_step
  obtain ⟨named, rfl, -, -⟩ := h
  refine ⟨fun hl => ?_, fun hl => ?_, fun hl => ?_⟩
  · exact .disallowed _ hstuck (.inr ⟨hl, named, rfl⟩)
  · refine .unexpected _ hstuck hne ?_
    rw [hl]
    rintro (hsome | ⟨hcomma, -⟩)
    · cases hsome
    · cases hcomma
  · exact unexpected_blames context hstuck (fun hend => absurd hend hne) (fun hcomma => absurd hcomma hl)

/-- Tokens that derive no expression are refused, if the nesting cannot be too deep, at the first of them
with which no expression goes on, or at the end of input where one is missing that does. -/
theorem refused_where_no_expression_goes_on (maxDepth : UInt32) (ts : List Token) (eof : Token)
    (hts : ∀ t ∈ ts, t.lexeme ≠ .endOfInput) (heof : eof.lexeme = .endOfInput)
    (hnot : ∀ e, ¬ Derives .sum ts e) (hdepth : ts.length + 1 ≤ maxDepth.toNat) :
    ∃ d, Expr.ofTokens maxDepth (ts ++ [eof]) = .error d ∧ Refused ts eof d := by
  have htraces := sum_traces ts heof maxDepth.toNat hdepth
  rw [Expr.ofTokens, ofTokens_append]
  cases hsum : sum (level maxDepth.toNat maxDepth.toNat) 0 ⟨ts ++ [eof], eof⟩ with
  | error d =>
    rw [hsum] at htraces
    cases htraces with
    | error hused hrun hblames => exact ⟨d, rfl, .of_blames hts heof hused hrun hblames⟩
  | ok result =>
    rw [hsum] at htraces
    cases htraces with
    | @ok e used rest s hused hrun hdone =>
      have hne : rest.lexeme ≠ .endOfInput := fun hend =>
        hnot e (derivesWithin_of_sum_eq_ok hts heof hsum hend).1
      obtain ⟨hcomma, hclose, hother⟩ := end_blames hdone hne "expected an operator or end of input"
      have refused {d : Diagnostic} (h : Blames s rest d) : Refused ts eof d := .of_blames hts heof hused hrun h
      simp only [bind, Except.bind]
      split
      · next hend => exact absurd hend hne
      · next hl => exact ⟨_, rfl, refused (hcomma hl)⟩
      · next hl => exact ⟨_, rfl, refused (hclose hl)⟩
      · next hl _ => exact ⟨_, rfl, refused (hother hl)⟩

/-- In `f(1,(2,3` the second comma stands in a group, though inside of a call. -/
theorem comma_in_group_refused :
    let ts : List Token := [⟨.name "f", ⟨0, 1⟩⟩, ⟨.leftParen, ⟨1, 2⟩⟩, ⟨.int 1, ⟨2, 3⟩⟩, ⟨.comma, ⟨3, 4⟩⟩,
      ⟨.leftParen, ⟨4, 5⟩⟩, ⟨.int 2, ⟨5, 6⟩⟩, ⟨.comma, ⟨6, 7⟩⟩, ⟨.int 3, ⟨7, 8⟩⟩]
    let eof : Token := ⟨.endOfInput, ⟨8, 8⟩⟩
    (∀ e, ¬ Derives .sum ts e) ∧ ∃ d, Expr.ofTokens 9 (ts ++ [eof]) = .error d ∧ Refused ts eof d := by
  intro ts eof
  have hnot : ∀ e, ¬ Derives .sum ts e := by
    intro e hd
    obtain ⟨named, hrun⟩ := hd.run [] false
    cases hrun
  exact ⟨hnot, refused_where_no_expression_goes_on 9 ts eof (by simp [ts]) rfl hnot (by decide)⟩

end Reckoner.Grammar
