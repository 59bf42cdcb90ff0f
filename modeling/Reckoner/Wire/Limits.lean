import Reckoner.Wire.Basic
import Reckoner.Limits

/-! Limits as JSON; those that are absent have their standard values. -/
namespace Reckoner
open Wire

instance : Wire Limits where
  codec := Serialization.record
    (.orElse Limits.standard.maxInputLength "max_input_len" codec <|
      .orElse Limits.standard.maxDepth "max_depth" codec <|
      .orElse Limits.standard.maxIntBits "max_int_bits" codec <|
      .orElse Limits.standard.gasLimit "gas_limit" codec .nil)
    (fun l => (l.maxInputLength, l.maxDepth, l.maxIntBits, l.gasLimit, ()))
    fun (length, depth, bits, gas, _) => ⟨length, depth, bits, gas⟩

end Reckoner
