import Reckoner.Proofs.Token.Scanning

/-! The places of tokens, and of the faults that stop the scanner: whole characters of the text. -/
namespace Reckoner
open Lexeme Token

variable {before rest after w : List Char} {c : Char} {s : Span} {t : Token} {text : String}
  {tokens : List Token} {d : Diagnostic}

/-- The span covers these characters of the text. -/
def Span.Selects (s : Span) (text : String) (w : List Char) : Prop :=
  ∃ before after, text.toList = before ++ w ++ after ∧ Covers s before w

namespace Span.Selects

theorem start_le_stop (h : s.Selects text w) : s.start.toNat ≤ s.stop.toNat := by
  obtain ⟨before, after, -, hstart, hstop⟩ := h
  rw [hstart, hstop, byteCount_append]
  exact Nat.le_add_right _ _

theorem stop_le (h : s.Selects text w) : s.stop.toNat ≤ text.utf8ByteSize := by
  obtain ⟨before, after, htext, -, hstop⟩ := h
  rw [hstop, ← byteCount_toList, htext, byteCount_append (before ++ w)]
  exact Nat.le_add_right _ _

theorem start_isValid (h : s.Selects text w) : String.Pos.Raw.IsValid text ⟨s.start.toNat⟩ := by
  obtain ⟨before, after, htext, hstart, -⟩ := h
  rw [hstart]
  exact isValid_byteCount (htext.trans (List.append_assoc ..))

theorem stop_isValid (h : s.Selects text w) : String.Pos.Raw.IsValid text ⟨s.stop.toNat⟩ := by
  obtain ⟨before, after, htext, -, hstop⟩ := h
  rw [hstop]
  exact isValid_byteCount htext

theorem extract_eq (h : s.Selects text w) :
    String.Pos.Raw.extract text ⟨s.start.toNat⟩ ⟨s.stop.toNat⟩ = String.ofList w := by
  obtain ⟨before, after, htext, hstart, hstop⟩ := h
  have hlen (cs : List Char) : byteCount cs = String.utf8Len cs := by
    rw [← String.utf8ByteSize_ofList, ← byteCount_toList, String.toList_ofList]
  rw [hstart, hstop, byteCount_append, hlen, hlen, ← String.ofList_toList (s := text), htext]
  exact String.extract_of_valid before w after

theorem between (htext : text.toList = before ++ w ++ after) (hsize : text.utf8ByteSize < UInt32.size) :
    (Span.between (byteCount before) (byteCount (before ++ w))).Selects text w := by
  refine ⟨before, after, htext, covers_between (Nat.lt_of_le_of_lt ?_ hsize)⟩
  rw [← byteCount_toList, htext, byteCount_append (before ++ w)]
  exact Nat.le_add_right _ _

end Span.Selects

theorem Lexeme.Spells.eq_name {name : String} (h : Spells w (.name name)) : w = name.toList := by
  cases h with
  | name => exact String.toList_ofList.symm
  | symbol h => exact h.elim

/-- An unexpected character is taken alone: numbers have other faults, and words have none. -/
theorem Lexeme.scan_unexpected {u : Char} (h : (scan c rest).1 = .error (.unexpectedCharacter u)) :
    (scan c rest).2 = [u] := by
  by_cases hnum : Decimal.Numeral.Starts c rest
  · exfalso
    obtain ⟨w, after, -, hnumeric, -, hscan, hs⟩ := scan_number hnum
    rw [hs, scanNumber_eq hnumeric hscan] at h
    split at h
    · cases h
    · split at h
      · split at h <;> cases h
      · cases h
  · rw [scan_other hnum] at h ⊢
    split at h
    · cases h
    next hword =>
    rw [if_neg hword]
    unfold scanSymbol at h ⊢
    split at h
    · cases h
    · split at h
      · cases h
      · cases h
        rfl

namespace Token

/-- The scanner stopped at a fault in some characters; an unexpected one stands alone. -/
structure FaultIn (before rest : List Char) (d : Diagnostic) (fault : Fault) (gap w after : List Char) : Prop where
  text : rest = gap ++ w ++ after
  diagnostic : d = fault.at (Span.between (byteCount (before ++ gap)) (byteCount (before ++ gap ++ w)))
  single : ∀ u, fault = .unexpectedCharacter u → w = [u]

theorem scanFrom_eq_error {opened : Nat} (h : scanFrom (byteCount before) opened rest = .error d) :
    ∃ fault gap w after, FaultIn before rest d fault gap w after := by
  induction hn : rest.length using Nat.strong_induction_on generalizing before opened rest with
  | _ n ih =>
  subst hn
  cases rest with
  | nil =>
    rw [scanFrom] at h
    cases h
  | cons c rest =>
  by_cases hskip : Skipped opened c rest
  · rw [scanFrom_skipped hskip, ← byteCount_append_space hskip.isSpace] at h
    obtain ⟨fault, gap, w, after, hf⟩ := ih rest.length (Nat.lt_succ_self _) h rfl
    refine ⟨fault, c :: gap, w, after, by rw [hf.text]; rfl, ?_, hf.single⟩
    rw [hf.diagnostic, List.append_cons before c gap]
  by_cases hc : isSpace c
  · rw [scanFrom_lineBreak hc hskip, ← byteCount_append_space hc] at h
    cases h
    exact ⟨.lineBreak, [], [c], rest, rfl, by rw [List.append_nil], fun u hu => by cases hu⟩
  by_cases hlex : ∃ w l after, c :: rest = w ++ after ∧ Lexes w l after
  · obtain ⟨w, l, after, heq, hl⟩ := hlex
    rw [heq, scanFrom_lexeme hl, ← byteCount_append] at h
    obtain h | ⟨more, -, h⟩ := bind_eq_error_iff.mp h
    · obtain ⟨fault, gap, w', after', hf⟩ := ih after.length (heq ▸ hl.length_lt) h rfl
      refine ⟨fault, w ++ gap, w', after', by rw [heq, hf.text]; simp, ?_, hf.single⟩
      rw [hf.diagnostic, ← List.append_assoc]
    · cases h
  · obtain ⟨fault, hscan, hs⟩ := scanFrom_fault (byteCount before) opened hc
      fun w l after heq hl => hlex ⟨w, l, after, heq, hl⟩
    rw [hs, ← byteCount_append] at h
    obtain rfl := Except.error.inj h
    obtain ⟨after, hafter⟩ := (scan_isPrefix c rest).1
    refine ⟨fault, [], (scan c rest).2, after, hafter.symm, by rw [List.append_nil], fun u hu => ?_⟩
    exact scan_unexpected (hscan.trans (congrArg _ hu))

/-- A text without tokens has a fault in some of its characters; an unexpected one is that character. -/
theorem exists_selects_of_ofText_error (hsize : text.utf8ByteSize < UInt32.size) (h : ofText text = .error d) :
    ∃ (fault : Fault) (s : Span) (w : List Char), d = fault.at s ∧ s.Selects text w ∧
      ∀ u, fault = .unexpectedCharacter u → w = [u] := by
  have hfrom : scanFrom (byteCount []) 0 text.toList = .error d := h
  obtain ⟨fault, gap, w, after, hf⟩ := scanFrom_eq_error hfrom
  exact ⟨fault, _, w, hf.diagnostic, .between hf.text hsize, hf.single⟩

/-- Tokens cover characters of the text, and a name covers its own. -/
theorem exists_selects_of_ofText (hsize : text.utf8ByteSize < UInt32.size) (h : ofText text = .ok tokens)
    (ht : t ∈ tokens) :
    ∃ w, t.span.Selects text w ∧ ∀ name, t.lexeme = .name name → w = name.toList := by
  rw [← byteCount_toList] at hsize
  obtain ⟨ts, rfl, htokens⟩ := (scanFrom_eq_ok_iff.mp h).tokenization [] rfl rfl hsize
  rw [byteCount_toList] at hsize
  obtain ht | ht := List.mem_append.mp ht
  · obtain ⟨gap, w, after, htext, hcov, hl⟩ := htokens.stands t ht
    exact ⟨w, ⟨gap, after, htext, hcov⟩, fun name hname => (hname ▸ hl.spells).eq_name⟩
  · obtain rfl := List.mem_singleton.mp ht
    refine ⟨[], ?_, fun name hname => by cases hname⟩
    have hend := Span.Selects.between (by simp : text.toList = text.toList ++ [] ++ []) hsize
    rwa [List.append_nil] at hend

end Token
end Reckoner
