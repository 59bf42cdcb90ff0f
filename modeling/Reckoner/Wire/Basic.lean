import Reckoner.Wire.Standard

/-! Values that travel as JSON, by the declarations of their types. -/
namespace Reckoner

class Wire (α : Type) where
  codec [Serialization] : Codec α

namespace Wire

variable [S : Serialization] {α : Type} [Wire α]

/-- The text of a value, or the reason why there is none. -/
def text (x : α) : Except String String := S.print (codec.encode x)

def read? (text : String) : Option α := (S.parse? text).bind codec.decode?

/-- What is sent for a value that has no text. -/
def fallback (reason : String) : String :=
  "\x7b\"success\":false,\"result\":\"Serialization error: " ++ reason ++ "\"\x7d"

/-- What is sent for a value. -/
def write (x : α) : String :=
  match text x with
  | .ok sent => sent
  | .error reason => fallback reason

instance : Wire Bool := ⟨Serialization.bool⟩

instance : Wire String := ⟨Serialization.string⟩

instance : Wire UInt16 := ⟨Serialization.word UInt16.size Nat.toUInt16 UInt16.toNat⟩

instance : Wire UInt32 := ⟨Serialization.word UInt32.size Nat.toUInt32 UInt32.toNat⟩

instance : Wire UInt64 := ⟨Serialization.word UInt64.size Nat.toUInt64 UInt64.toNat⟩

instance : Wire (Option α) := ⟨Serialization.optional codec⟩

end Wire
end Reckoner
