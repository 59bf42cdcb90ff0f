import Reckoner.Proofs.Calculation.Outcome
import Reckoner.Proofs.Display.Integers
import Reckoner.Proofs.Token.Layout

/-! What is shown is a literal, perhaps with a sign before it, and is shown again when it is calculated. -/
namespace Reckoner
open Decimal Binary64 Display Grammar Token

variable {w whole fraction : List Char} {l : Lexeme} {limits : Limits} {s d : String} {v : Number} {m : ℕ}
  {e : ℤ} {negative : Bool}

namespace Lexeme

theorem lexes_minus (after : List Char) : Lexes ['-'] .minus after := by
  cases after <;> exact lexes_of_scan rfl

theorem lexes_plain (h : Plain w) : Lexes w (.int (value w)) [] := by
  refine Alone.lexes ⟨.int h.all, fun _ hhead => ?_⟩ fun _ hc => nomatch hc
  rw [h.head hhead]
  exact List.forall_mem_singleton.mpr rfl

theorem lexes_pointed (h : Tidy whole fraction) (hne : fraction ≠ []) :
    Lexes (positional whole fraction) (.float ((⟨whole, fraction, 0⟩ : Numeral).toFloat false)) [] := by
  rw [positional_pointed whole hne]
  have hdigits : Digits (whole ++ fraction) :=
    ⟨List.append_ne_nil_of_left_ne_nil h.plain.all.1 _, List.forall_mem_append.mpr ⟨h.plain.all.2, h.digits⟩⟩
  have hnumeric : Numeric (whole ++ '.' :: fraction) := by simpa using Numeric.intro (.pointed hdigits) .none
  have hpoint : ¬ Digits (whole ++ '.' :: fraction) := fun hd =>
    absurd (hd.2 '.' (List.mem_append_right _ List.mem_cons_self)) (by decide)
  have hscan : (Numeral.scan (whole ++ '.' :: fraction)).2 = ⟨whole, fraction, 0⟩ := by
    have hall := Numeral.scan_pointed (r := []) h.plain.all.2 h.digits fun _ hc => nomatch hc
    rw [List.append_nil] at hall
    rw [hall]
    rfl
  have hread := readFloat?_numeric hnumeric
  rw [hscan] at hread
  exact Alone.lexes ⟨.float hnumeric hpoint hread, fun hd => absurd hd hpoint⟩ fun _ hc => nomatch hc

/-- The lexeme of a number without a sign. -/
def literal : Number → Lexeme
  | .int n => .int n
  | .float x => .float x

end Lexeme

namespace Calculation
open Lexeme

/-- A text that is scanned to the lexemes of a derivation has the value of its expression. -/
theorem evaluate_of_scans {ts : List Token} {tree : Expr} (h : Scans 0 s.toList [] (ts.map Token.lexeme) 0)
    (hd : Derives .sum ts tree) (ha : tree.Allowed) (hfits : Fits limits s tree) :
    evaluate limits s = (Evaluator.value limits.maxIntBits tree).mapError EvalError.diagnostic := by
  obtain ⟨us, tree', hr, hbare⟩ := reading_of_scans h hd ha
  obtain ⟨hdepth, hnodes, hvalue⟩ := hr.same hbare ha
  rw [hr.evaluate limits ⟨hfits.length, hdepth ▸ hfits.depth, hnodes ▸ hfits.nodes⟩, hvalue]

theorem derives_literal (v : Number) : ∃ tree, Derives .primary [loose (literal v)] tree ∧ tree.Allowed ∧
    tree.nesting = 0 ∧ tree.nodes = 1 ∧ ∀ bits, Evaluator.value bits tree = .ok v := by
  cases v with
  | int n => exact ⟨_, .int rfl, List.forall_mem_nil _, rfl, rfl, fun _ => rfl⟩
  | float x => exact ⟨_, .float rfl, List.forall_mem_nil _, rfl, rfl, fun _ => rfl⟩

/-- A number with a minus sign, or without one. -/
def withSign (negative : Bool) (v : Number) : Number := if negative then v.neg else v

/-- A literal of a text with an optional sign before it is all of its value. -/
theorem evaluate_literal (hl : Lexes w (literal v) []) (hs : s = String.ofList (sign negative ++ w))
    (hlength : s.length ≤ 1000) : evaluate .standard s = .ok (withSign negative v) := by
  obtain ⟨tree, hd, ha, hnesting, hnodes, hvalue⟩ := derives_literal v
  have htoList : s.toList = sign negative ++ w := by rw [hs, String.toList_ofList]
  have hscans : Scans 0 w [] [literal v] 0 := by
    cases v <;> exact .lexeme hl
  cases negative with
  | false =>
    rw [evaluate_of_scans (by rwa [htoList]) (hd.of_primary .sum) ha
      ⟨hlength, by rw [Expr.depth, hnesting]; decide, by rw [hnodes]; decide⟩, hvalue]
    rfl
  | true =>
    have hsigned : Derives .sum [loose .minus, loose (literal v)] _ :=
      .term (.factor (.sign .minus (hd.of_primary .unary)))
    have hminus : Scans 0 ['-'] (w ++ []) [.minus] 0 := .lexeme (lexes_minus _)
    rw [evaluate_of_scans (by rw [htoList]; exact hminus.append hscans) hsigned ha
      ⟨hlength, by rw [Expr.depth, Expr.nesting, hnesting]; decide, by rw [Expr.nodes, hnodes]; decide⟩,
      Evaluator.value, hvalue]
    rfl

end Calculation

namespace Display

/-- Short integers without a zero in front are shown by their digits. -/
theorem number_plain (h : Plain whole) (hlength : whole.length ≤ 1000) (hne : negative → whole ≠ ['0']) :
    number (Calculation.withSign negative (.int (value whole))) = .ok (written negative whole []) := by
  obtain ⟨n, hn, hnumber, habs, hneg⟩ : ∃ n : Int,
      Calculation.withSign negative (.int (value whole)) = .int n ∧ number (.int n) = integer n ∧
      n.natAbs = value whole ∧ decide (n < 0) = negative := by
    cases negative with
    | false => exact ⟨value whole, rfl, rfl, by simp, by simp⟩
    | true => exact ⟨-value whole, rfl, rfl, by simp, by simpa using h.value_pos (hne rfl)⟩
  have hdigits : digits n.natAbs = whole := by rw [habs, h.digits_value]
  have hlt : n.natAbs < 10 ^ maxIntDigits := by
    calc n.natAbs = value whole := habs
      _ < 10 ^ whole.length := value_lt h.all.2
      _ ≤ 10 ^ maxIntDigits := Nat.pow_le_pow_right (by decide) (hlength.trans (by decide))
  rw [hn, hnumber, integer_of_lt hlt, intText_eq_written, hneg, hdigits]

theorem number_pointed (h : Canonical m e) (hreads : Display.Reads whole fraction m e) :
    number (Calculation.withSign negative (.float ((⟨whole, fraction, 0⟩ : Numeral).toFloat false))) =
      .ok (finite negative m e) := by
  rw [hreads.toFloat]
  cases negative with
  | false => exact float_of_view (view_pack false h)
  | true => exact float_of_view (view_neg_pack h)

end Display

theorem Display.lt_of_mem_written (h : Tidy whole fraction) :
    ∀ c ∈ (written negative whole fraction).toList, c < 'A' := by
  have hsign : ∀ c ∈ sign negative, c < 'A' := by
    cases negative with
    | false => exact List.forall_mem_nil _
    | true => exact List.forall_mem_singleton.mpr (by decide)
  have hwhole : ∀ c ∈ whole, c < 'A' := fun c hc => (head_lt (.inl (h.plain.all.2 c hc))).2
  have hfraction : ∀ c ∈ fraction, c < 'A' := fun c hc => (head_lt (.inl (h.digits c hc))).2
  rw [written, String.toList_ofList, positional]
  refine List.forall_mem_append.mpr ⟨hsign, List.forall_mem_append.mpr ⟨hwhole, ?_⟩⟩
  split
  · exact List.forall_mem_nil _
  · exact List.forall_mem_cons.mpr ⟨by decide, hfraction⟩

namespace Calculation
open Lexeme

theorem isEmpty_written (h : Tidy whole fraction) : (written negative whole fraction).isEmpty = false := by
  rw [← Bool.not_eq_true, String.isEmpty_iff, ← String.toList_inj, written, String.toList_ofList, positional]
  simp [h.plain.all.1]

/-- A text that is shown, unless it is infinity, is an optional sign and a tidy decimal, and if that has a
point, it is shown for the double that it reads as. -/
theorem written_of_calculate (h : calculate limits s = .ok d) (hinfinity : d ≠ "Infinity") :
    ∃ negative whole fraction, d = written negative whole fraction ∧ Tidy whole fraction ∧
      (fraction ≠ [] → ∃ m e, Canonical m e ∧ Display.Reads whole fraction m e ∧ finite negative m e = d) := by
  have h := calculate_eq_ok_iff.mp h
  split at h
  · exact ⟨false, ['0'], [], h, plain_zero.tidy, fun hne => absurd rfl hne⟩
  · obtain ⟨v, -, hd⟩ := h
    exact (number_written hd).resolve_left hinfinity

/-- What is written in this way and shown for the number that it spells is shown when it is calculated. -/
theorem calculate_written (htidy : Tidy whole fraction) (hd : d = written negative whole fraction)
    (hlength : d.length ≤ 1000) (hl : Lexes (positional whole fraction) (literal v) [])
    (hv : Display.number (withSign negative v) = .ok d) : calculate .standard d = .ok d := by
  have hnormal : Glyph.normalize d = d := Glyph.normalize_eq_self fun c hc =>
    Char.lt_trans (lt_of_mem_written htidy c (hd ▸ hc)) (by decide)
  rw [calculate_eq_ok_iff, hnormal, if_neg (by rw [hd, isEmpty_written htidy]; exact Bool.false_ne_true)]
  exact ⟨_, evaluate_literal hl hd hlength, hv⟩

/-- A display of at most a thousand characters, unless it is infinity or the negative zero, is its own
display. -/
theorem display_calculated_again (s d : String) (h : calculate .standard s = .ok d)
    (hinfinity : d ≠ "Infinity") (hzero : d ≠ "-0") (hlength : d.length ≤ 1000) :
    calculate .standard d = .ok d := by
  obtain ⟨negative, whole, fraction, hd, htidy, hshown⟩ := written_of_calculate h hinfinity
  obtain rfl | hne := eq_or_ne fraction []
  · have hshort : whole.length ≤ 1000 := by
      rw [hd, written, String.length_ofList, positional_nil, List.length_append] at hlength
      omega
    have hnegative : negative → whole ≠ ['0'] := by
      rintro rfl rfl
      exact hzero hd
    refine calculate_written (v := .int (value whole)) htidy hd hlength ?_ ?_
    · rw [positional_nil]
      exact lexes_plain htidy.plain
    · rw [hd]
      exact number_plain htidy.plain hshort hnegative
  · obtain ⟨m, e, hcanonical, hreads, htext⟩ := hshown hne
    refine calculate_written (v := .float _) htidy hd hlength (lexes_pointed htidy hne) ?_
    rw [← htext]
    exact number_pointed hcanonical hreads

/-- The display of a quotient is its own display. -/
theorem quotient_calculated_again : calculate .standard "−1÷8" = .ok "-0.125" ∧
    calculate .standard "-0.125" = .ok "-0.125" := by
  have h : calculate .standard "−1÷8" = .ok "-0.125" := by decide +kernel
  exact ⟨h, display_calculated_again _ _ h (by simp) (by simp) (by decide)⟩

end Calculation
end Reckoner
