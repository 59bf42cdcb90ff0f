import Reckoner.Wire.Basic
import Reckoner.Message

/-! Requests and responses as JSON. Texts in requests may be given as numbers, and fields of requests
may be absent. -/
namespace Reckoner
open Wire

/-- A text, a number as it would be written, or nothing. -/
def Wire.scalarText? [S : Serialization] (v : Json) : Option String :=
  match S.scalar? v with
  | some (.string text) => some text
  | some (.number n) => some (S.numberText n)
  | some .null => some ""
  | _ => none

/-- Texts that are read from scalars. -/
def Wire.scalarText [Serialization] : Codec String where
  encode := codec.encode
  decode? := scalarText?

instance : Wire ActionRequest where
  codec := Serialization.record
    (.orElse none "action" codec <| .orElse "" "expression" scalarText <| .orElse "" "current_value" scalarText .nil)
    (fun r => (r.action, r.expression, r.currentValue, ()))
    fun (action, expression, current, _) => ⟨action, expression, current⟩

instance : Wire EvaluateRequest where
  codec := Serialization.record (.orElse "" "expression" scalarText .nil)
    (fun r => (r.expression, ())) fun (expression, _) => ⟨expression⟩

instance : Wire ActionResponse where
  codec := Serialization.record
    (.required "success" codec <| .required "result" codec <| .required "display" codec .nil)
    (fun r => (r.success, r.result, r.display, ())) fun (success, result, display, _) => ⟨success, result, display⟩

instance : Wire EvaluateResponse where
  codec := Serialization.record (.required "success" codec <| .required "result" codec .nil)
    (fun r => (r.success, r.result, ())) fun (success, result, _) => ⟨success, result⟩

end Reckoner
