import Reckoner.Text.Invisible

/-! Texts quoted for a journal: every character is visible, and the quotes show where the text ends. -/
namespace Reckoner.Text

def hexDigits (n : Nat) : List Char := Nat.toDigits 16 n

/-- A character between quotes. -/
def escape (c : Char) : List Char :=
  match c with
  | '\x00' => ['\\', '0']
  | '\t' => ['\\', 't']
  | '\r' => ['\\', 'r']
  | '\n' => ['\\', 'n']
  | '"' => ['\\', '"']
  | '\\' => ['\\', '\\']
  | c => if isInvisible c then ['\\', 'u', '{'] ++ hexDigits c.toNat ++ ['}'] else [c]

def quoted (text : String) : String := String.ofList ('"' :: text.toList.flatMap escape ++ ['"'])

/-- A text that may be absent. -/
def quotedOption : Option String → String
  | none => "None"
  | some text => s!"Some({quoted text})"

end Reckoner.Text
