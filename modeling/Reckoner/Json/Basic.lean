/-! JSON values as they are written: numbers keep their digits and objects the order and repetitions of
their members. A string that is no text, for an unpaired surrogate in it, is kept without one. -/
namespace Reckoner

/-- The exponent of a number: its sign and its digits. -/
structure Json.Exponent where
  negative : Bool
  digits : List Char
  deriving Repr, DecidableEq

/-- A number as written; without a point there are no fraction digits. -/
structure Json.Literal where
  negative : Bool
  whole : List Char
  fraction : List Char
  exponent : Option Json.Exponent
  deriving Repr, DecidableEq

inductive Json where
  | null
  | bool (value : Bool)
  | number (literal : Json.Literal)
  | string (text : Option String)
  | array (items : List Json)
  | object (members : List (Option String × Json))
  deriving Inhabited

/-- What a number stands for: an integer, or a double. -/
inductive Json.Numeric where
  | int (value : Int)
  | float (value : Float)
  deriving Repr

/-- What a value stands for that is read without a type, as far as it has no parts. -/
inductive Json.Scalar where
  | null
  | number (value : Json.Numeric)
  | string (text : String)
  | other
  deriving Repr

namespace Json

/-- An object whose members have texts as names. -/
def record (members : List (String × Json)) : Json := .object (members.map fun (name, v) => (some name, v))

/-- The words of JSON. -/
def ofWord? (word : String) : Option Json :=
  if word = "null" then some .null
  else if word = "true" then some (.bool true)
  else if word = "false" then some (.bool false)
  else none

end Json
end Reckoner
