import Reckoner.Proofs.Token.Scanning

/-! A text within parentheses is scanned to the same lexemes as on its own. -/
namespace Reckoner
open Lexeme Token

variable {w after cs ds : List Char} {c : Char} {l : Lexeme} {ls ks : List Lexeme} {ts : List Token}
  {n m k : Nat}

/-- A text that goes on with a delimiter. -/
def Delimited (after : List Char) : Prop := ∃ c rest, after = c :: rest ∧ Delimiter c

namespace Lexeme

/-- Delimiters are in no longer lexeme, so they end all lexemes before them. -/
theorem Lexes.append (h : Lexes w l cs) (hafter : Delimited after) : Lexes w l (cs ++ after) := by
  obtain ⟨d, rest, rfl, hd⟩ := hafter
  have hne := h.spells.ne_nil
  refine ⟨h.spells, ⟨⟨l, h.spells⟩, List.prefix_append _ _, fun w' l' hl' hw' => ?_⟩, h.separate.zeros, ?_⟩
  · rw [← List.append_assoc] at hw'
    obtain hshort | ⟨v, rfl⟩ := List.prefix_or_prefix_of_prefix hw' (List.prefix_append (w ++ cs) (d :: rest))
    · exact h.longest.length_le w' l' hl' hshort
    · cases v with
      | nil => exact h.longest.length_le _ l' hl' (by simp)
      | cons d' v =>
        obtain ⟨rfl, -⟩ := List.cons_prefix_cons.mp ((List.prefix_append_right_inj _).mp hw')
        have hsingle := congrArg List.length (hl'.eq_singleton (c := d') (by simp) hd)
        have hpos := List.length_pos_iff.mpr hne
        simp only [List.length_append, List.length_cons, List.length_nil] at hsingle
        omega
  · intro hw c hc
    cases cs with
    | nil =>
      cases hc
      obtain rfl | rfl | rfl := hd <;> decide
    | cons d' cs => exact h.separate.apart hw c hc

theorem lexes_of_scan {rest : List Char} (h : scan c (rest ++ after) = (.ok l, c :: rest)) :
    Lexes (c :: rest) l after := by
  obtain ⟨after', heq, hl⟩ := scan_eq_ok_iff.mp h
  rw [← List.cons_append] at heq
  cases List.append_cancel_left heq
  exact hl

theorem lexes_leftParen (after : List Char) : Lexes ['('] .leftParen after := by
  cases after <;> exact lexes_of_scan rfl

theorem lexes_rightParen (after : List Char) : Lexes [')'] .rightParen after := by
  cases after <;> exact lexes_of_scan rfl

theorem lexes_comma (after : List Char) : Lexes [','] .comma after := by
  cases after <;> exact lexes_of_scan rfl

end Lexeme

namespace Token

/-- Lexemes that never close the last parenthesis, from `n` open ones to `m`. -/
inductive Stays : Nat → List Lexeme → Nat → Prop
  | nil {i : Nat} (h : 0 < i) : Stays i [] i
  | cons {i j : Nat} {first : Lexeme} {rest : List Lexeme} (h : 0 < i)
      (more : Stays (first.parensAfter i) rest j) : Stays i (first :: rest) j

theorem Stays.pos (h : Stays n ls m) : 0 < n := by
  cases h with
  | nil h => exact h
  | cons h => exact h

theorem Stays.append (h : Stays n ls m) (h' : Stays m ks k) : Stays n (ls ++ ks) k := by
  induction h with
  | nil => exact h'
  | cons h _ ih => exact .cons h (ih h')

/-- The characters `cs` before `after` are scanned to the lexemes `ls`, from `n` open parentheses to `m`. -/
def Scans (n : Nat) (cs after : List Char) (ls : List Lexeme) (m : Nat) : Prop :=
  ∀ offset, ∃ ts end_, ts.map Token.lexeme = ls ∧
    scanFrom offset n (cs ++ after) = (scanFrom end_ m after).map (ts ++ ·)

namespace Scans

theorem nil (n : Nat) (after : List Char) : Scans n [] after [] n := fun offset => by
  refine ⟨[], offset, rfl, ?_⟩
  cases h : scanFrom offset n after <;> simp [h, Except.map]

theorem append (h : Scans n cs (ds ++ after) ls m) (h' : Scans m ds after ks k) :
    Scans n (cs ++ ds) after (ls ++ ks) k := fun offset => by
  obtain ⟨ts, mid, hts, hs⟩ := h offset
  obtain ⟨us, end_, hus, hs'⟩ := h' mid
  refine ⟨ts ++ us, end_, by simp [hts, hus], ?_⟩
  rw [List.append_assoc, hs, hs']
  cases scanFrom end_ k after <;> simp [Except.map]

theorem lexeme (h : Lexes w l after) : Scans n w after [l] (l.parensAfter n) := fun offset => by
  refine ⟨[⟨l, Span.between offset (offset + byteCount w)⟩], offset + byteCount w, rfl, ?_⟩
  rw [scanFrom_lexeme h]
  cases scanFrom (offset + byteCount w) (l.parensAfter n) after <;> rfl

theorem skip (hskip : Skipped n c (cs ++ after)) (h : Scans n cs after ls m) : Scans n (c :: cs) after ls m :=
  fun offset => by
    rw [List.cons_append, scanFrom_skipped hskip]
    exact h (offset + 1)

/-- A text that is scanned on its own is scanned to the same lexemes within parentheses. -/
theorem of_scanned {offset opened : Nat} {tokens : List Token} {eof : Token}
    (h : Scanned offset opened cs tokens) (htokens : tokens = ts ++ [eof])
    (hstays : Stays n (ts.map Token.lexeme) m) (hafter : Delimited after) :
    Scans n cs after (ts.map Token.lexeme) m := by
  induction h generalizing ts n with
  | done offset opened =>
    obtain ⟨rfl, -⟩ : [] = ts ∧ _ := List.append_inj' htokens rfl
    cases hstays
    exact nil _ after
  | @skip _ _ c cs _ hskip _ ih =>
    have hwithin : Skipped n c (cs ++ after) := hskip.imp_right fun h => ⟨h.1, .inl hstays.pos⟩
    exact skip hwithin (ih htokens hstays)
  | lexeme hl more ih =>
    obtain ⟨us, _, rfl, -, -⟩ := more.shape
    obtain ⟨rfl, heof⟩ : _ :: us = ts ∧ _ := List.append_inj' htokens rfl
    cases hstays with
    | cons _ hstays => exact (lexeme (hl.append hafter)).append (ih (congrArg (us ++ ·) heof) hstays)

/-- Texts with commas between them. -/
theorem intercalate {xs : List (List Char × List Lexeme)}
    (h : ∀ x ∈ xs, ∀ after, Delimited after → Scans n x.1 after x.2 n) (hafter : Delimited after) :
    Scans n ([','].intercalate (xs.map Prod.fst)) after ([.comma].intercalate (xs.map Prod.snd)) n := by
  induction xs with
  | nil => simpa using nil n after
  | cons x xs ih =>
    obtain ⟨hfirst, hmore⟩ := List.forall_mem_cons.mp h
    cases xs with
    | nil => simpa using hfirst after hafter
    | cons y xs =>
      have hcomma : Scans n [','] (([','].intercalate ((y :: xs).map Prod.fst)) ++ after) [.comma] n :=
        lexeme (lexes_comma _)
      have hall := (hfirst _ ⟨',', _, rfl, .inr (.inr rfl)⟩).append (hcomma.append (ih hmore))
      simpa [List.intercalate] using hall

/-- A text within parentheses of its own. -/
theorem paren (h : ∀ after, Delimited after → Scans (n + 1) cs after ls (n + 1)) (after : List Char) :
    Scans n ('(' :: (cs ++ [')'])) after (.leftParen :: (ls ++ [.rightParen])) n := by
  have hinside : Scans (n + 1) cs ([')'] ++ after) ls (n + 1) := h _ ⟨')', after, rfl, .inr (.inl rfl)⟩
  have hopening : Scans n ['('] (cs ++ [')'] ++ after) [.leftParen] (n + 1) := lexeme (lexes_leftParen _)
  exact hopening.append (hinside.append (lexeme (lexes_rightParen after)))

end Scans
end Token
end Reckoner
