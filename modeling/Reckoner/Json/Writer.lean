import Reckoner.Json.Basic
import Reckoner.Json.Text

/-! JSON texts without blanks. -/
namespace Reckoner.Json

def Literal.chars (l : Literal) : List Char :=
  let sign := if l.negative then ['-'] else []
  let fraction := if l.fraction.isEmpty then [] else '.' :: l.fraction
  let exponent := match l.exponent with
    | none => []
    | some e => 'e' :: (if e.negative then ['-'] else []) ++ e.digits
  sign ++ l.whole ++ fraction ++ exponent

mutual

/-- The characters of a value; a string without a text is written empty. -/
def chars : Json → List Char
  | .null => "null".toList
  | .bool true => "true".toList
  | .bool false => "false".toList
  | .number l => l.chars
  | .string text => quoted (text.getD "")
  | .array items => '[' :: itemChars items ++ [']']
  | .object members => '{' :: memberChars members ++ ['}']

def itemChars : List Json → List Char
  | [] => []
  | [v] => chars v
  | v :: vs => chars v ++ ',' :: itemChars vs

def memberChars : List (Option String × Json) → List Char
  | [] => []
  | [(key, v)] => quoted (key.getD "") ++ ':' :: chars v
  | (key, v) :: ms => quoted (key.getD "") ++ ':' :: chars v ++ ',' :: memberChars ms

end

def write (v : Json) : String := String.ofList (chars v)

end Reckoner.Json
