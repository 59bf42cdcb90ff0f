import Reckoner.Span
import Reckoner.Decimal.Layout

/-! Lexemes of calculator text, and tokens: lexemes with their place. -/
namespace Reckoner

inductive Lexeme where
  | int (value : Int)
  | float (value : Float)
  | name (text : String)
  | reserved (word : String)
  | plus
  | minus
  | star
  | starStar
  | slash
  | slashSlash
  | percent
  | caret
  | leftParen
  | rightParen
  | comma
  | equals
  | dot
  | leftBracket
  | rightBracket
  | leftBrace
  | rightBrace
  | semicolon
  | colon
  | endOfInput
  deriving Inhabited

structure Token where
  lexeme : Lexeme
  span : Span
  deriving Inhabited

namespace Lexeme

/-- Words of statements, control flow, logic and literals; none of them names a value. -/
def reservedWords : List String :=
  ["import", "from", "as", "def", "class", "return", "yield", "del", "global", "nonlocal", "pass",
    "break", "continue", "raise", "assert", "with", "lambda",
    "if", "else", "elif", "for", "while", "try", "except", "finally",
    "and", "or", "not", "in", "is",
    "async", "await",
    "True", "False", "None"]

def ofWord (word : String) : Lexeme :=
  if reservedWords.contains word then .reserved word else .name word

/-- Punctuation that occurs in no arithmetic expression. -/
def isDisallowedPunctuation : Lexeme → Bool
  | .equals | .dot | .leftBracket | .rightBracket | .leftBrace | .rightBrace | .semicolon | .colon => true
  | _ => false

def text : Lexeme → String
  | .int n => Decimal.intText n
  | .float x => Decimal.Layout.plain.text x
  | .name s => s
  | .reserved s => s
  | .plus => "+"
  | .minus => "-"
  | .star => "*"
  | .starStar => "**"
  | .slash => "/"
  | .slashSlash => "//"
  | .percent => "%"
  | .caret => "^"
  | .leftParen => "("
  | .rightParen => ")"
  | .comma => ","
  | .equals => "="
  | .dot => "."
  | .leftBracket => "["
  | .rightBracket => "]"
  | .leftBrace => "\x7b"
  | .rightBrace => "\x7d"
  | .semicolon => ";"
  | .colon => ":"
  | .endOfInput => "end of input"

end Lexeme
end Reckoner
