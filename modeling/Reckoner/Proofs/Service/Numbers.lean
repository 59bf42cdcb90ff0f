import Reckoner.Proofs.Calculation.Displays
import Reckoner.Proofs.Calculation.FixedPoint
import Reckoner.Proofs.CommandLine.Serving
import Reckoner.Proofs.Decimal.Lengths
import Reckoner.Proofs.Json.Numeric
import Reckoner.Proofs.Json.Parts
import Reckoner.Proofs.Number.ZeroDivisor
import Reckoner.Proofs.Service.Hundredths

/-! A number in a request always computes: the text it is given as is a sign and a literal of the calculator, which
has the value of the number, and the same text is read as its double. -/
namespace Reckoner
open Binary64 Decimal Display

variable {w : List Char} {n : ℤ} {m : ℕ} {e : ℤ} {x : Float} {negative : Bool} {literal : String} {l : Json.Literal}
  {v : Json.Numeric} {u : Number}

/-- A whole number without a power of ten. -/
theorem Decimal.nearest_whole (negative : Bool) (n : ℕ) : Decimal.nearest negative n 0 = Binary64.nearest negative n 1 := by
  unfold Decimal.nearest
  split
  · next hn =>
    rw [Binary64.nearest, if_pos hn]
  · rw [if_neg (by decide), if_neg (by omega)]
    simp

/-- Whole numbers are written with a zero behind the point, so no text of a double is an integer literal. -/
theorem Decimal.Layout.unsigned_not_digits {layout : Layout} (hpoint : layout.pointZero = true) (hc : Canonical m e) :
    ¬ Digits (layout.unsigned m e) := by
  have hother {c : Char} (hc : c ∈ layout.unsigned m e) (hne : ¬ isDigit c) : ¬ Digits (layout.unsigned m e) :=
    fun h => hne (h.2 c hc)
  obtain rfl | hm := Nat.eq_zero_or_pos m
  · refine hother (c := '.') ?_ (by decide)
    rw [unsigned, if_pos rfl, hpoint]
    decide
  cases hplace : layout.positional (leading (shortest layout.tie m e)) with
  | true =>
    obtain ⟨whole, fraction, -, -, htext⟩ :=
      layout.magnitude_positional (shortest_identifies layout.tie hm e).last hplace
    refine hother (c := '.') ?_ (by decide)
    rw [unsigned, if_neg hm.ne', htext, hpoint, pointedText]
    split <;> simp
  | false =>
    refine hother (c := 'e') ?_ (by decide)
    rw [unsigned, if_neg hm.ne', layout.magnitude_exponential hplace, exponential_eq]
    simp

namespace Json.Numeric

/-- The value of the calculator that a number stands for. -/
def toNumber : Numeric → Number
  | .int n => .int n
  | .float x => .float x

/-- A text of a number that is a sign and a short literal, and that is read as the double of the number as well. -/
structure Spelled (v : Numeric) (spelling : String) (negative : Bool) (w : List Char) (u : Number) : Prop where
  text : spelling = String.ofList (sign negative ++ w)
  numeric : Decimal.Numeric w
  lexes : Lexeme.Lexes w (Lexeme.literal u) []
  value : Calculation.withSign negative u = v.toNumber
  toFloat : v.toNumber.toFloat = .ok ((Numeral.scan w).2.toFloat negative)
  length : w.length ≤ 800

theorem spelled_int (h : n.natAbs < UInt64.size) :
    Spelled (.int n) (intText n) (n < 0) (digits n.natAbs) (.int n.natAbs) := by
  have hplain := digits_plain n.natAbs
  have hvalue := value_digits n.natAbs
  obtain ⟨hnumeric, hscan⟩ := numeral_whole hplain.all .none
  rw [List.append_nil] at hnumeric hscan
  have hlexes := Lexeme.lexes_plain hplain
  rw [hvalue] at hlexes
  refine ⟨?_, hnumeric, hlexes, ?_, ?_, ?_⟩
  · rw [intText_eq_written, written, positional_nil]
  · rw [toNumber]
    obtain hneg | hpos := lt_or_ge n 0
    · rw [decide_eq_true hneg]
      exact congrArg Number.int (by omega)
    · rw [decide_eq_false (not_lt.mpr hpos)]
      exact congrArg Number.int (by omega)
  · rw [toNumber, Number.toFloat_int (h.trans_le (by decide +kernel)), hscan, Numeral.toFloat, List.append_nil, hvalue]
    exact congrArg Except.ok (nearest_whole _ _).symm
  · exact (length_digits_le (by decide) (h.trans_le (by decide : _ ≤ 10 ^ 20))).trans (by decide)

/-- Any layout will do that writes short texts and no whole number without a point. -/
theorem spelled_float {layout : Layout} (hpoint : layout.pointZero = true) (hwidth : layout.exponentWidth ≤ 1)
    (hplace : ∀ k, layout.positional k = true → k.natAbs ≤ 16) (h : view x = .finite negative m e) :
    Spelled (.float x) (layout.text x) negative (layout.unsigned m e) (.float (pack false m e)) := by
  have hc := canonical_of_view h
  have hread := layout.unsigned_readAs hc
  refine ⟨layout.text_eq h, hread.numeric, ?_, ?_, ?_, ?_⟩
  · have hdigits : ¬ Digits (layout.unsigned m e) := Layout.unsigned_not_digits hpoint hc
    exact Lexeme.Alone.lexes ⟨.float hread.numeric hdigits (hread.readFloat? false), fun h => absurd h hdigits⟩
      fun _ hc => nomatch hc
  · rw [toNumber, eq_pack_of_view h]
    cases negative with
    | false => rfl
    | true => exact congrArg Number.float (neg_pack ..)
  · rw [hread.toFloat, eq_pack_of_view h]
    rfl
  · exact Layout.length_unsigned_le hc hplace (hwidth.trans (by decide))

/-- Every number that is read has a text of this kind. -/
theorem Bounded.exists_spelled {S : Serialization} (hS : S.Lawful) (h : v.Bounded) :
    ∃ negative w u, Spelled v (S.numberText v) negative w u := by
  cases h with
  | int h =>
    rw [hS.numberText_int]
    exact ⟨_, _, _, spelled_int h⟩
  | float h =>
    obtain ⟨layout, hpoint, hwidth, hplace, htext⟩ := hS.numberText_float h
    rw [htext]
    exact ⟨_, _, _, spelled_float hpoint hwidth hplace h⟩

/-- A number that is read is an integer of 64 bits if it is written as one, and a finite double if not. -/
theorem bounded_of_scalar {S : Serialization} (hS : S.Lawful) (h : S.scalar? (.number l) = some (.number v)) :
    v.Bounded ∧ ∀ n, l.integer? = some n → v = .int n := by
  cases hinteger : l.integer? with
  | some n =>
    rw [hS.scalar_integer hinteger] at h
    cases h
    exact ⟨.int (natAbs_lt_of_integer? hinteger), fun _ hn => by cases hn; rfl⟩
  | none =>
    obtain ⟨x, negative, m, e, hv, hview⟩ := hS.scalar_float hinteger h
    cases hv
    exact ⟨.float hview, nofun⟩

/-- Numbers that stand in requests are shown. -/
theorem Bounded.exists_shown (h : v.Bounded) : ∃ shown, Display.number v.toNumber = .ok shown := by
  cases h with
  | int h => exact ⟨_, integer_of_lt (h.trans_le (by decide +kernel))⟩
  | float h => exact ⟨_, float_of_view h⟩

namespace Spelled

variable {spelling : String}

theorem toList_text (h : Spelled v spelling negative w u) : spelling.toList = sign negative ++ w := by
  rw [h.text, String.toList_ofList]

theorem length_text (h : Spelled v spelling negative w u) : spelling.length ≤ 1000 := by
  have hlength := h.length
  have hsign : (sign negative).length ≤ 1 := by cases negative <;> decide
  rw [h.text, String.length_ofList, List.length_append]
  omega

theorem evaluate_text (h : Spelled v spelling negative w u) : Calculation.evaluate .standard spelling = .ok v.toNumber :=
  h.value ▸ Calculation.evaluate_literal h.lexes h.text h.length_text

theorem normalize_text (h : Spelled v spelling negative w u) : Glyph.normalize spelling = spelling := by
  apply Glyph.normalize_eq_self
  rw [h.toList_text]
  have hsign : ∀ c ∈ sign negative, c < '\x7f' := by
    cases negative with
    | false => simp [sign]
    | true => simp [sign]
  have hdigit (c : Char) (hc : isDigit c) : c < '\x7f' := (isDigit_iff.mp hc).2.trans_lt (by decide)
  exact List.forall_mem_append.mpr ⟨hsign, Lexeme.forall_of_numeric h.numeric hdigit (by simp)⟩

/-- The text of a number is shown for the number. -/
theorem display_text (h : Spelled v spelling negative w u) {shown : String} (hshown : Display.number v.toNumber = .ok shown) :
    Calculation.calculate .standard spelling = .ok shown := by
  have hne : spelling.isEmpty = false := by
    rw [← Bool.not_eq_true, String.isEmpty_iff, ← String.toList_inj, h.toList_text]
    obtain ⟨c, rest, rfl, -⟩ := h.numeric.starts
    simp
  rw [Calculation.calculate_eq_ok_iff, h.normalize_text, hne, if_neg Bool.false_ne_true]
  exact ⟨_, h.evaluate_text, hshown⟩

theorem percentage_text (h : Spelled v spelling negative w u) {x : Float} (hx : v.toNumber.toFloat = .ok x) :
    Keypad.percentage spelling = Keypad.text (x / 100.0) := by
  cases h.toFloat.symm.trans hx
  rw [Keypad.percentage, h.toList_text, Text.trim_numeric h.numeric, readFloat?_signed h.numeric]

end Spelled

end Json.Numeric

namespace Service

section
variable {S : Serialization} (hS : S.Lawful)

include hS

/-- A body is the request that its members are decoded to. -/
theorem read?_body {α : Type} [Wire α] {cs : List Char} {members : List (String × Json)} {body : String} {request : α}
    (hmembers : Json.Members cs members) (hordinary : ∀ m ∈ members, m.2.Ordinary (fun _ => True) 126)
    (hbody : body.toList = '{' :: cs ++ ['}'])
    (hdecode : Wire.codec.decode? (Json.record members) = some request) : Wire.read? body = some request := by
  have htext : body = String.ofList ('{' :: cs ++ ['}']) := by rw [← hbody, String.ofList_toList]
  have hparse : S.parse? body = some (Json.record members) :=
    (hS.parse_iff (.record hordinary)).mpr (htext ▸ hmembers.read?_object)
  rw [Wire.read?, hparse, Option.bind_some, hdecode]

/-- A number is read as such by the grammar of JSON. -/
theorem read?_literal (h : S.parse? literal = some (.number l)) : Json.read? literal = some (.number l) :=
  (hS.parse_iff (.number trivial)).mp h

end

theorem scalarText_number [S : Serialization] (h : S.scalar? (.number l) = some (.number v)) :
    Wire.scalarText.decode? (.number l) = some (S.numberText v) := by
  change Wire.scalarText? (.number l) = _
  rw [Wire.scalarText?, h]

theorem members_action (name field : String) (h : Json.read? literal = some (.number l)) :
    Json.Members (Json.quoted "action" ++ ':' :: Json.quoted name ++ ',' :: (Json.quoted field ++ ':' :: literal.toList))
      [("action", .string (some name)), (field, .number l)] := by
  have hname := Json.read?_write (.string name)
  have hchars : (Json.write (.string (some name))).toList = Json.quoted name := String.toList_ofList
  exact hchars ▸ .next "action" hname (.last field h)

section
variable {S : Serialization} (hS : S.Lawful)

include hS

theorem decode_action (name : String) :
    (Wire.codec : Codec (Option String)).decode? (.string (some name)) = some (some name) := by
  have hne : Json.string (some name) ≠ .null := Json.noConfusion
  change (S.optional S.string).decode? _ = _
  rw [hS.optional_decode _ hne, hS.string_decode, Option.map_some]

/-- A number stands for its text in the expression. -/
theorem read?_calculate (h : S.parse? literal = some (.number l)) (hv : S.scalar? (.number l) = some (.number v)) :
    Wire.read? ("\x7b\"action\":\"calculate\",\"expression\":" ++ literal ++ "\x7d") =
      some (ActionRequest.mk (some "calculate") (S.numberText v) "") := by
  refine read?_body hS (members_action "calculate" "expression" (read?_literal hS h))
    (by simp [Json.Ordinary.string, Json.Ordinary.number]) (by simp [Json.quoted, Json.escape]) ?_
  change (S.record _ _ _).decode? _ = _
  rw [hS.record_decode _ _ _ (by simp) (by simp)]
  simp [List.lookup_cons, decode_action hS, scalarText_number hv]

theorem read?_percentage (h : S.parse? literal = some (.number l)) (hv : S.scalar? (.number l) = some (.number v)) :
    Wire.read? ("\x7b\"action\":\"percentage\",\"current_value\":" ++ literal ++ "\x7d") =
      some (ActionRequest.mk (some "percentage") "" (S.numberText v)) := by
  refine read?_body hS (members_action "percentage" "current_value" (read?_literal hS h))
    (by simp [Json.Ordinary.string, Json.Ordinary.number]) (by simp [Json.quoted, Json.escape]) ?_
  change (S.record _ _ _).decode? _ = _
  rw [hS.record_decode _ _ _ (by simp) (by simp)]
  simp [List.lookup_cons, decode_action hS, scalarText_number hv]

theorem read?_evaluate (h : S.parse? literal = some (.number l)) (hv : S.scalar? (.number l) = some (.number v)) :
    Wire.read? ("\x7b\"expression\":" ++ literal ++ "\x7d") = some (EvaluateRequest.mk (S.numberText v)) := by
  refine read?_body hS (.last "expression" (read?_literal hS h)) (by simp [Json.Ordinary.number])
    (by simp [Json.quoted, Json.escape]) ?_
  change (S.record _ _ _).decode? _ = _
  rw [hS.record_decode _ _ _ (by simp) (by simp)]
  simp [scalarText_number hv]

end

theorem ofResult_shown {shown : String} (h : Shown shown) : EvaluateResponse.ofResult shown = ⟨true, shown⟩ := by
  have hsuccess := mt Diagnostic.success_eq_false_iff.mp (Bool.eq_false_iff.mp h.isFixedDisplay_eq_false)
  exact congrArg (EvaluateResponse.mk · shown) (Bool.not_eq_false _ ▸ hsuccess)

/-- Whatever number stands in a request, it is evaluated to itself and answered by its display, and its hundredths
are answered as those of its double. An integer of 64 bits is itself. -/
theorem numbers_always_compute [S : Serialization] (hS : S.Lawful) (h : S.parse? literal = some (.number l))
    (hv : S.scalar? (.number l) = some (.number v)) :
    (∀ n, l.integer? = some n → v = .int n) ∧
    Calculation.evaluate .standard (S.numberText v) = .ok v.toNumber ∧
    ∃ shown x, Display.number v.toNumber = .ok shown ∧ v.toNumber.toFloat = .ok x ∧
      answer .standard .action ("\x7b\"action\":\"calculate\",\"expression\":" ++ literal ++ "\x7d") =
        Wire.write (ActionResponse.shown shown) ∧
      answer .standard .evaluate ("\x7b\"expression\":" ++ literal ++ "\x7d") =
        Wire.write (EvaluateResponse.mk true shown) ∧
      answer .standard .action ("\x7b\"action\":\"percentage\",\"current_value\":" ++ literal ++ "\x7d") =
        Wire.write (ActionResponse.shown (Keypad.text (x / 100.0))) ∧
      Keypad.text (x / 100.0) ≠ Diagnostic.evaluationDisplay := by
  obtain ⟨hbounded, hinteger⟩ := Json.Numeric.bounded_of_scalar hS hv
  obtain ⟨negative, w, u, hspelled⟩ := hbounded.exists_spelled hS
  obtain ⟨shown, hshown⟩ := hbounded.exists_shown
  have hx := hspelled.toFloat
  generalize (Numeral.scan w).2.toFloat negative = x at hx
  have hdisplay := Calculation.display_of_ok (hspelled.display_text hshown)
  refine ⟨hinteger, hspelled.evaluate_text, shown, x, hshown, hx, ?_, ?_, ?_, Keypad.text_ne_error _⟩
  · rw [CommandLine.answer_action, read?_calculate hS h hv, Option.elim_some]
    exact congrArg (fun d => Wire.write (ActionResponse.shown d)) hdisplay
  · rw [CommandLine.answer_evaluate, read?_evaluate hS h hv, Option.elim_some, answerEvaluate, hdisplay,
      ofResult_shown (number_shown hshown)]
  · rw [CommandLine.answer_action, read?_percentage hS h hv, Option.elim_some]
    exact congrArg (fun d => Wire.write (ActionResponse.shown d)) (hspelled.percentage_text hx)

/-- The text of a small number has a signed exponent, which is evaluated as well. -/
theorem small_number_computes : ∃ l v shown, Serialization.standard.Lawful ∧
    Serialization.standard.parse? "-12e-7" = some (.number l) ∧
    Serialization.standard.scalar? (.number l) = some (.number v) ∧
    Serialization.standard.numberText v = "-1.2e-6" ∧ Calculation.evaluate .standard "-1.2e-6" = .ok v.toNumber ∧
    Display.number v.toNumber = .ok shown ∧
    answer .standard .evaluate "\x7b\"expression\":-12e-7\x7d" = Wire.write (EvaluateResponse.mk true shown) := by
  let l : Json.Literal := ⟨true, ['1', '2'], [], some ⟨true, ['7']⟩⟩
  have hproper : l.Proper := by
    refine ⟨⟨⟨by simp [l], by simp [l, isDigit]⟩, by simp [l]⟩, List.forall_mem_nil _, ?_⟩
    rintro e ⟨⟩
    exact ⟨by simp, by simp [isDigit]⟩
  have hread : Serialization.standard.parse? "-12e-7" = some (.number l) := Json.read?_write (.number hproper)
  have htext : l.numeric?.map Json.Numeric.text = some "-1.2e-6" := by decide +kernel
  obtain ⟨v, hv, htext⟩ := Option.map_eq_some_iff.mp htext
  have hscalar : Serialization.standard.scalar? (.number l) = some (.number v) := congrArg (Option.map _) hv
  obtain ⟨-, hvalue, shown, -, hshown, -, -, hanswer, -⟩ :=
    numbers_always_compute Serialization.standard_lawful hread hscalar
  have hspelling : Serialization.standard.numberText v = "-1.2e-6" := htext
  rw [hspelling] at hvalue
  exact ⟨l, v, shown, Serialization.standard_lawful, hread, hscalar, hspelling, hvalue, hshown, hanswer⟩

example : answer .standard .action "\x7b\"action\":\"percentage\",\"current_value\": -0E+7\x7d" =
    "\x7b\"success\":true,\"result\":\"-0.0\",\"display\":\"-0.0\"\x7d" := by decide +kernel

end Service
end Reckoner
