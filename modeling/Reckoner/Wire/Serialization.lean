import Reckoner.Json.Basic

/-! What has to be known of types that travel as JSON: how they are declared, and what a library for serialization
makes of their declarations. The library itself is a parameter. -/
namespace Reckoner

/-- How values of a type are made JSON, and read from it. -/
structure Codec (α : Type) where
  encode : α → Json
  decode? : Json → Option α

/-- The fields of a record in their order. Each has a name and a codec, and may have a value that stands for it where
it is absent. -/
inductive Fields : Type → Type 1 where
  | nil : Fields Unit
  | cons {α β : Type} (name : String) (codec : Codec α) (absent : Option α) (rest : Fields β) : Fields (α × β)

namespace Fields

/-- A field that may not be absent. -/
def required {α β : Type} (name : String) (codec : Codec α) (rest : Fields β) : Fields (α × β) :=
  .cons name codec none rest

/-- A field that may be absent. -/
def orElse {α β : Type} (default : α) (name : String) (codec : Codec α) (rest : Fields β) : Fields (α × β) :=
  .cons name codec (some default) rest

def names {β : Type} : Fields β → List String
  | .nil => []
  | .cons name _ _ rest => name :: rest.names

/-- The members that the fields have in an object. -/
def encode {β : Type} : Fields β → β → List (String × Json)
  | .nil, _ => []
  | .cons name codec _ rest, (x, y) => (name, codec.encode x) :: rest.encode y

/-- The fields from what is found for each of them, in their order. -/
def ofValues? {β : Type} : Fields β → List (Option Json) → Option β
  | .nil, _ => some ()
  | .cons _ _ _ _, [] => none
  | .cons _ codec absent rest, found :: others => do
    let x ← found.elim absent codec.decode?
    let y ← rest.ofValues? others
    return (x, y)

end Fields

/-- A type of several kinds of values, each kind with a name and with fields of its own. The name of the kind is found
under a tag among the fields. -/
structure Tagged (κ α : Type) where
  tag : String
  kinds : List κ
  name : κ → String
  Part : κ → Type
  fields (k : κ) : Fields (Part k)
  kind : α → κ
  split (x : α) : Part (kind x)
  make (k : κ) : Part k → α

/-- A library for serialization: what becomes of texts, and of each way in which a type can be declared. -/
class Serialization where
  /-- The value that a text is. -/
  parse? : String → Option Json
  /-- The text of a value, without blanks, or the reason why there is none. -/
  print : Json → Except String String
  /-- A value read without a type. -/
  scalar? : Json → Option Json.Scalar
  /-- The text of a number read without a type. -/
  numberText : Json.Numeric → String
  bool : Codec Bool
  string : Codec String
  /-- Machine words, which are naturals below a bound. -/
  word {α : Type} (bound : Nat) (ofNat : Nat → α) (toNat : α → Nat) : Codec α
  /-- Values that may be missing. -/
  optional {α : Type} (inner : Codec α) : Codec (Option α)
  /-- A type with one unnamed field. -/
  newtype {α β : Type} (inner : Codec α) (wrap : α → β) (unwrap : β → α) : Codec β
  record {α β : Type} (fields : Fields β) (split : α → β) (make : β → α) : Codec α
  /-- Kinds of values that have nothing but a name. -/
  units {α : Type} (all : List α) (name : α → String) : Codec α
  tagged {κ α : Type} (declared : Tagged κ α) : Codec α

end Reckoner
