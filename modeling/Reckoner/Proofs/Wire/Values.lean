import Reckoner.Wire.Diagnostic
import Reckoner.Wire.Limits
import Reckoner.Wire.Message
import Reckoner.Proofs.Wire.Standard

/-! Whatever travels as JSON arrives as it was sent: numbers of every width, records with all of their
fields, and diagnostics, which are told by their tag. -/
namespace Reckoner
open Wire

namespace Wire
section

variable [S : Serialization] {α : Type} [Wire α] {x : α} {sent : String}

/-- The text that is written of a value of the type is read back as that value. -/
def Lossless (α : Type) [Wire α] : Prop := ∀ x : α, ∃ sent, text x = .ok sent ∧ read? sent = some x

theorem text_eq (h : S.Lawful) (hcodec : (codec : Codec α).Lossless 127) (x : α) :
    text x = .ok (codec.encode x).write := h.print_eq (hcodec.ordinary x)

theorem lossless_of_codec (h : S.Lawful) (hcodec : (codec : Codec α).Lossless 127) : Lossless α := by
  intro x
  have hordinary := hcodec.ordinary x
  have hparse := (h.parse_iff (hordinary.imp fun _ _ => trivial)).mpr (Json.read?_write hordinary.proper)
  refine ⟨_, text_eq h hcodec x, ?_⟩
  rw [read?, hparse, Option.bind_some, hcodec.decoded]

/-- What is sent has no control characters, and so no line breaks. -/
theorem printable_of_text (h : S.Lawful) (hcodec : (codec : Codec α).Lossless 127) (hsent : text x = .ok sent) :
    Json.Printable sent.toList := by
  rw [text_eq h hcodec] at hsent
  cases hsent
  rw [Json.write, String.toList_ofList]
  exact (hcodec.ordinary x).proper.printable

end
end Wire

namespace Serialization.Lawful

variable [S : Serialization] (h : S.Lawful) {depth : ℕ}

include h

theorem lossless_span : (codec : Codec Span).Lossless (depth + 1) :=
  h.lossless_record ⟨h.lossless_uint32, h.lossless_uint32, trivial⟩ (by simp) fun _ => rfl

theorem lossless_code : (codec : Codec Diagnostic.Code).Lossless depth :=
  h.lossless_newtype h.lossless_uint16 fun _ => rfl

theorem lossless_kind : (codec : Codec Diagnostic.Kind).Lossless depth :=
  h.lossless_units (by decide) fun kind => by cases kind <;> decide

theorem lossless_diagnostic : (codec : Codec Diagnostic).Lossless 127 := by
  apply h.lossless_tagged
  · intro kind
    cases kind with
    | malformed => exact ⟨h.lossless_code, h.lossless_string, h.lossless_span, trivial⟩
    | disallowedConstruct | nameNotAllowed => exact ⟨h.lossless_string, h.lossless_span, trivial⟩
    | divisionByZero => trivial
    | evaluation => exact ⟨h.lossless_code, h.lossless_string, trivial⟩
  · change (Diagnostic.Kind.all.map Diagnostic.Kind.tag).Nodup
    decide
  · intro kind
    cases kind <;> simp [Diagnostic.declared, Diagnostic.Kind.all]
  · intro kind
    cases kind with
    | malformed => exact (by decide : ["kind", "code", "message", "span"].Nodup)
    | disallowedConstruct => exact (by decide : ["kind", "construct", "span"].Nodup)
    | nameNotAllowed => exact (by decide : ["kind", "name", "span"].Nodup)
    | divisionByZero => exact (by decide : ["kind"].Nodup)
    | evaluation => exact (by decide : ["kind", "code", "message"].Nodup)
  · intro d
    cases d <;> rfl

theorem lossless_limits : (codec : Codec Limits).Lossless (depth + 1) :=
  h.lossless_record ⟨h.lossless_uint64, h.lossless_uint32, h.lossless_uint64, h.lossless_uint64, trivial⟩ (by simp)
    fun _ => rfl

/-- A text is a scalar. -/
theorem lossless_scalarText : scalarText.Lossless depth where
  ordinary text := h.lossless_string.ordinary text
  decoded text := by
    change scalarText? (S.string.encode text) = some text
    rw [h.string_encode, scalarText?, h.scalar_string]

/-- An action that is absent is sent as nothing. -/
theorem lossless_actionRequest : (codec : Codec ActionRequest).Lossless (depth + 1) := by
  have haction : (codec : Codec (Option String)).Lossless depth :=
    h.lossless_optional h.lossless_string fun text heq => Json.noConfusion ((h.string_encode text).symm.trans heq)
  exact h.lossless_record ⟨haction, h.lossless_scalarText, h.lossless_scalarText, trivial⟩ (by simp) fun _ => rfl

theorem lossless_actionResponse : (codec : Codec ActionResponse).Lossless (depth + 1) :=
  h.lossless_record ⟨h.lossless_bool, h.lossless_string, h.lossless_string, trivial⟩ (by simp) fun _ => rfl

theorem lossless_evaluateRequest : (codec : Codec EvaluateRequest).Lossless (depth + 1) :=
  h.lossless_record ⟨h.lossless_scalarText, trivial⟩ (by simp) fun _ => rfl

theorem lossless_evaluateResponse : (codec : Codec EvaluateResponse).Lossless (depth + 1) :=
  h.lossless_record ⟨h.lossless_bool, h.lossless_string, trivial⟩ (by simp) fun _ => rfl

end Serialization.Lawful

namespace Wire

/-- Nothing is lost of places, codes, kinds, diagnostics, limits, requests and responses, whatever texts and
numbers they hold, if the library for serialization follows its rules. -/
theorem written_values_read_back [S : Serialization] (h : S.Lawful) :
    Lossless Span ∧ Lossless Diagnostic.Code ∧ Lossless Diagnostic.Kind ∧
    Lossless Diagnostic ∧ Lossless Limits ∧ Lossless ActionRequest ∧ Lossless ActionResponse ∧
    Lossless EvaluateRequest ∧ Lossless EvaluateResponse := by
  refine ⟨?_, ?_, ?_, ?_, ?_, ?_, ?_, ?_, ?_⟩
  · exact lossless_of_codec h h.lossless_span
  · exact lossless_of_codec h h.lossless_code
  · exact lossless_of_codec h h.lossless_kind
  · exact lossless_of_codec h h.lossless_diagnostic
  · exact lossless_of_codec h h.lossless_limits
  · exact lossless_of_codec h h.lossless_actionRequest
  · exact lossless_of_codec h h.lossless_actionResponse
  · exact lossless_of_codec h h.lossless_evaluateRequest
  · exact lossless_of_codec h h.lossless_evaluateResponse

/-- The name in a diagnostic is escaped where it has to be, and read back. -/
theorem escaped_name_reads_back :
    let d := Diagnostic.nameNotAllowed "\"\n√" ⟨0, 5⟩
    let sent := "\x7b\"kind\":\"name_not_allowed\",\"name\":\"\\\"\\n√\",\"span\":\x7b\"start\":0,\"end\":5\x7d\x7d"
    Serialization.standard.Lawful ∧ text d = .ok sent ∧ read? sent = some d := by
  intro d sent
  obtain ⟨-, -, -, hdiagnostic, -⟩ := written_values_read_back Serialization.standard_lawful
  obtain ⟨found, htext, hread⟩ := hdiagnostic d
  have hsent : text d = .ok sent := by decide +kernel
  cases htext.symm.trans hsent
  exact ⟨Serialization.standard_lawful, htext, hread⟩

end Wire
end Reckoner
