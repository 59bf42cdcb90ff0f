import Reckoner.Proofs.Calculation.Outcome
import Reckoner.Proofs.Grammar.Failures
import Reckoner.Proofs.Token.Faults

/-! Every diagnostic of a calculation is well formed: its code is one of its kind, and its place, where
it has one, is in the text that was read. -/
namespace Reckoner
open Lexeme

variable {source text : String} {s : Span} {w : List Char} {d : Diagnostic} {e : Expr} {limits : Limits}

namespace Span

/-- The span starts and stops at characters of the text. -/
structure Inside (s : Span) (source : String) : Prop where
  start_le_stop : s.start.toNat ≤ s.stop.toNat
  stop_le : s.stop.toNat ≤ source.utf8ByteSize
  start_isValid : String.Pos.Raw.IsValid source ⟨s.start.toNat⟩
  stop_isValid : String.Pos.Raw.IsValid source ⟨s.stop.toNat⟩

/-- The text at the bytes of the span. -/
def slice (s : Span) (source : String) : String :=
  String.Pos.Raw.extract source ⟨s.start.toNat⟩ ⟨s.stop.toNat⟩

theorem Selects.inside (h : s.Selects source w) : s.Inside source :=
  ⟨h.start_le_stop, h.stop_le, h.start_isValid, h.stop_isValid⟩

theorem Selects.slice_eq (h : s.Selects source w) : s.slice source = String.ofList w := h.extract_eq

end Span

namespace Lexeme.Fault

theorem code_kind (fault : Fault) : fault.code.kind = .malformed := by
  cases fault <;> simp only [code] <;> decide

theorem exists_unexpected {fault : Fault} (h : fault.code = .unexpectedCharacter) :
    ∃ u, fault = .unexpectedCharacter u := by
  cases fault with
  | unexpectedCharacter u => exact ⟨u, rfl⟩
  | _ => exact absurd h (by simp only [code]; decide)

end Lexeme.Fault

namespace Diagnostic

/-- What a diagnostic owes to the text that it is about. -/
structure WellFormed (source : String) (d : Diagnostic) : Prop where
  code : d.code.kind = d.kind
  located : d.span?.isSome ↔ d.kind ∈ [.malformed, .disallowedConstruct, .nameNotAllowed]
  inside : ∀ s, d.span? = some s → s.Inside source
  name : ∀ name s, d = .nameNotAllowed name s → s.slice source = name
  character : d.code = .unexpectedCharacter →
    ∃ c s, d = (Fault.unexpectedCharacter c).at s ∧ s.slice source = String.singleton c

theorem located_iff (d : Diagnostic) :
    d.span?.isSome ↔ d.kind ∈ [.malformed, .disallowedConstruct, .nameNotAllowed] := by
  cases d <;> simp [span?, kind]

/-- A diagnostic about characters of the text, neither for a name nor for a single character. -/
theorem WellFormed.of_selects (hs : d.span? = some s) (hsel : s.Selects source w) (hcode : d.code.kind = d.kind)
    (hkind : d.kind ≠ .nameNotAllowed) (hcharacter : d.code ≠ .unexpectedCharacter) :
    d.WellFormed source where
  code := hcode
  located := d.located_iff
  inside s' hs' := by
    cases hs.symm.trans hs'
    exact hsel.inside
  name name s' hd := absurd (hd ▸ rfl) hkind
  character h := absurd h hcharacter

theorem WellFormed.of_nameNotAllowed {name : String} (h : s.Selects source name.toList) :
    (nameNotAllowed name s).WellFormed source where
  code := (by decide : Code.nameNotAllowed.kind = .nameNotAllowed)
  located := located_iff _
  inside s' hs' := by
    cases hs'
    exact h.inside
  name name' s' hd := by
    cases hd
    rw [h.slice_eq, String.ofList_toList]
  character hc := absurd hc (by decide : Code.nameNotAllowed ≠ .unexpectedCharacter)

theorem WellFormed.of_fault {fault : Fault} (h : s.Selects source w)
    (hsingle : ∀ u, fault = .unexpectedCharacter u → w = [u]) : (fault.at s).WellFormed source where
  code := fault.code_kind
  located := located_iff _
  inside s' hs' := by
    cases hs'
    exact h.inside
  name name s' hd := by cases hd
  character hc := by
    obtain ⟨u, rfl⟩ := fault.exists_unexpected hc
    cases hsingle u rfl
    exact ⟨u, s, rfl, h.slice_eq⟩

end Diagnostic

/-- Failures after validation have no place. -/
theorem EvalError.diagnostic_wellFormed {failure : EvalError} (source : String)
    (h : ∀ name s, failure ≠ .nameNotAllowed name s) : failure.diagnostic.WellFormed source := by
  have hspan : failure.diagnostic.span? = none := by
    cases failure with
    | nameNotAllowed name s => exact absurd rfl (h name s)
    | _ => rfl
  have hcode : failure.diagnostic.code.kind = failure.diagnostic.kind ∧
      failure.diagnostic.code ≠ .unexpectedCharacter := by
    cases failure <;> simp only [diagnostic, Diagnostic.code, Diagnostic.kind] <;> decide
  exact {
    code := hcode.1
    located := failure.diagnostic.located_iff
    inside := fun s hs => by cases hspan.symm.trans hs
    name := fun name s hd => absurd hd (diagnostic_ne_nameNotAllowed h name s)
    character := fun hc => absurd hc hcode.2 }

theorem Display.number_arithmetic (v : Number) : Arithmetic (number v) := by
  cases v with
  | int n => exact .ite (.error trivial) (.ite (.error trivial) (.ok _))
  | float x =>
    unfold number float
    dsimp only
    split
    · exact .error trivial
    · exact .ok _
    · exact .ok _

theorem Glyph.normalize_utf8ByteSize_le (text : String) :
    (normalize text).utf8ByteSize ≤ text.utf8ByteSize := by
  have hchar (c : Char) : (canonical c).utf8Size ≤ c.utf8Size := by
    unfold canonical
    split
    · decide
    · decide
    · decide
    · exact Nat.le_refl _
  rw [← Token.byteCount_toList, ← Token.byteCount_toList, normalize, String.toList_map]
  induction text.toList with
  | nil => exact Nat.le_refl 0
  | cons c cs ih => exact Nat.add_le_add (hchar c) ih

namespace Calculation

/-- A text that is not read is too long, or has no tokens, or they are no expression. -/
theorem read_wellFormed (hsize : source.utf8ByteSize < UInt32.size) (h : read limits source = .error d) :
    d.WellFormed source := by
  unfold read at h
  dsimp only at h
  split at h
  · cases h
    have hall := Span.Selects.between (by simp : source.toList = [] ++ source.toList ++ []) hsize
    rw [List.nil_append, Token.byteCount_toList] at hall
    exact .of_selects rfl hall (by decide : Diagnostic.Code.inputTooLong.kind = .malformed)
      (by simp [Diagnostic.kind]) (by decide : Diagnostic.Code.inputTooLong ≠ .unexpectedCharacter)
  obtain htokens | ⟨tokens, htokens, hparse⟩ := bind_eq_error_iff.mp h
  · obtain ⟨fault, s, w, rfl, hsel, hsingle⟩ := Token.exists_selects_of_ofText_error hsize htokens
    exact .of_fault hsel hsingle
  · have hne : tokens ≠ [] := by
      obtain ⟨ts, eof, rfl, -⟩ := Token.scanFrom_shape htokens
      simp
    obtain ⟨t, ht, hd⟩ := Expr.exists_refuses_of_ofTokens hne hparse
    obtain ⟨w, hsel, -⟩ := Token.exists_selects_of_ofText hsize htokens ht
    refine .of_selects hd.span hsel hd.code (fun hname => ?_) hd.ne_unexpectedCharacter
    obtain hk | hk := hd.kind <;> cases hk.symm.trans hname

/-- The places of the names of an expression are those of its name tokens. -/
theorem selects_identifier (hsize : source.utf8ByteSize < UInt32.size) (h : read limits source = .ok e)
    {i : Identifier} (hi : i ∈ e.identifiers) : i.span.Selects source i.name.toList := by
  obtain ⟨-, tokens, htokens, hparse⟩ := read_eq_ok_iff.mp h
  obtain ⟨ts, eof, rfl, hts, heof⟩ := Token.scanFrom_shape htokens
  rw [Expr.identifiers_of_ofTokens hts heof hparse] at hi
  obtain ⟨t, ht, hid⟩ := List.mem_filterMap.mp hi
  obtain ⟨w, hsel, hname⟩ := Token.exists_selects_of_ofText hsize htokens (List.mem_append_left _ ht)
  unfold Token.identifier? at hid
  split at hid
  · next name hlexeme =>
    cases hid
    exact hname name hlexeme ▸ hsel
  · cases hid

theorem validate_wellFormed (hsize : source.utf8ByteSize < UInt32.size) (hread : read limits source = .ok e)
    (h : Whitelist.validate e = .error d) : d.WellFormed source := by
  rw [Whitelist.validate_eq] at h
  split at h
  · cases h
  · next i hfind =>
    cases h
    exact .of_nameNotAllowed (selects_identifier hsize hread (List.mem_of_find?_eq_some hfind))

theorem evaluate_wellFormed (hsize : source.utf8ByteSize < UInt32.size)
    (h : evaluate limits source = .error d) : d.WellFormed source := by
  cases hread : read limits source with
  | error d' =>
    rw [evaluate, result, hread] at h
    cases h
    exact read_wellFormed hsize hread
  | ok e =>
    rw [evaluate_of_read hread] at h
    obtain hvalid | ⟨_, hvalid, hrun⟩ := bind_eq_error_iff.mp h
    · exact validate_wellFormed hsize hread hvalid
    · cases hfailure : (Evaluator.run limits 0 e).1 with
      | ok v =>
        rw [hfailure] at hrun
        cases hrun
      | error failure =>
        rw [hfailure] at hrun
        cases hrun
        refine failure.diagnostic_wellFormed source fun name s hname => ?_
        exact Evaluator.run_ne_nameNotAllowed hvalid limits 0 (hfailure.trans (congrArg Except.error hname))

/-- Whatever goes wrong with a text is reported under a code of its kind and, if it has a place, at whole
characters of the text that was read: a rejected name at that name, an unexpected character at itself. -/
theorem diagnostics_are_well_formed (limits : Limits) (text : String) (hsize : text.utf8ByteSize < UInt32.size)
    (d : Diagnostic) (h : calculate limits text = .error d) : d.WellFormed (Glyph.normalize text) := by
  have hsize := Nat.lt_of_le_of_lt (Glyph.normalize_utf8ByteSize_le text) hsize
  unfold calculate at h
  dsimp only at h
  split at h
  · cases h
  obtain hvalue | ⟨v, -, hshow⟩ := bind_eq_error_iff.mp h
  · exact evaluate_wellFormed hsize hvalue
  · cases hfailure : Display.number v with
    | ok shown =>
      rw [hfailure] at hshow
      cases hshow
    | error failure =>
      rw [hfailure] at hshow
      cases hshow
      refine failure.diagnostic_wellFormed _ fun name s hname => ?_
      have harithmetic := Display.number_arithmetic v failure hfailure
      rw [hname] at harithmetic
      exact harithmetic

/-- A name after a keypad sign, which took one byte more, is found where it stands in the text that was read. -/
theorem unknown_name_after_glyph : "2×nope".utf8ByteSize < UInt32.size ∧
    calculate .standard "2×nope" = .error (.nameNotAllowed "nope" ⟨2, 6⟩) ∧
    (Diagnostic.nameNotAllowed "nope" ⟨2, 6⟩).WellFormed (Glyph.normalize "2×nope") := by
  have hsize : "2×nope".utf8ByteSize < UInt32.size := by decide
  have h : calculate .standard "2×nope" = .error (.nameNotAllowed "nope" ⟨2, 6⟩) := by cbv
  exact ⟨hsize, h, diagnostics_are_well_formed .standard "2×nope" hsize _ h⟩

end Calculation
end Reckoner
