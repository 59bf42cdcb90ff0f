import Reckoner.Token.Basic
import Reckoner.Decimal.Numeral
import Reckoner.Diagnostic

/-! Tokens of a text. At every place the longest lexeme is taken; blanks between lexemes are dropped,
and line breaks are blanks only within parentheses or where nothing but blanks follows. -/
namespace Reckoner

/-- Why no lexeme can be read. -/
inductive Lexeme.Fault where
  | lineBreak
  | unexpectedCharacter (c : Char)
  | gluedNumber (spelling : String)
  | unreadableNumber (spelling : String)
  | leadingZeros
  deriving Repr, DecidableEq

namespace Lexeme

def Fault.code : Fault → Diagnostic.Code
  | .lineBreak => .unexpectedToken
  | .unexpectedCharacter _ => .unexpectedCharacter
  | .gluedNumber _ => .invalidNumber
  | .unreadableNumber _ => .invalidNumber
  | .leadingZeros => .invalidNumber

def Fault.message : Fault → String
  | .lineBreak => "line break outside parentheses"
  | .unexpectedCharacter c => s!"unexpected character '{c}'"
  | .gluedNumber spelling => s!"invalid number literal '{spelling}'"
  | .unreadableNumber spelling => s!"invalid number literal '{spelling}'"
  | .leadingZeros => "leading zeros in integer literals are not permitted"

def Fault.at (f : Fault) (span : Span) : Diagnostic := .malformed f.code f.message span

def isBlank (c : Char) : Bool := c = ' ' || c = '\t' || c = '\x0c'

def isLineBreak (c : Char) : Bool := c = '\r' || c = '\n'

def isSpace (c : Char) : Bool := isBlank c || isLineBreak c

def startsWord (c : Char) : Bool := c.isAlpha || c = '_'

def continuesWord (c : Char) : Bool := c.isAlphanum || c = '_'

/-- The lexemes of a single character. -/
def ofSymbol? : Char → Option Lexeme
  | '+' => some .plus
  | '-' => some .minus
  | '*' => some .star
  | '/' => some .slash
  | '%' => some .percent
  | '^' => some .caret
  | '(' => some .leftParen
  | ')' => some .rightParen
  | ',' => some .comma
  | '=' => some .equals
  | '.' => some .dot
  | '[' => some .leftBracket
  | ']' => some .rightBracket
  | '{' => some .leftBrace
  | '}' => some .rightBrace
  | ';' => some .semicolon
  | ':' => some .colon
  | _ => none

/-- The lexemes of two characters. -/
def ofPair? : Char → Char → Option Lexeme
  | '*', '*' => some .starStar
  | '/', '/' => some .slashSlash
  | _, _ => none

def startsNumber (c : Char) (rest : List Char) : Bool :=
  Decimal.isDigit c || (c = '.' && rest.head?.any Decimal.isDigit)

/-- A number at the head of a text, with the characters it takes. Digits alone make an integer. -/
def scanNumber (cs : List Char) : Except Fault Lexeme × List Char :=
  let spelling := (Decimal.Numeral.scan cs).1
  let glued := (cs.drop spelling.length).takeWhile continuesWord
  let unreadable := Fault.unreadableNumber (String.ofList spelling)
  if glued ≠ [] then (.error (.gluedNumber (String.ofList (spelling ++ glued))), spelling ++ glued)
  else if spelling.all Decimal.isDigit then
    if spelling.head? = some '0' ∧ spelling.any (· ≠ '0') then (.error .leadingZeros, spelling)
    else
      match Decimal.readInt? (String.ofList spelling) with
      | some n => (.ok (.int n), spelling)
      | none => (.error unreadable, spelling)
  else
    match Decimal.readFloat? spelling with
    | some x => (.ok (.float x), spelling)
    | none => (.error unreadable, spelling)

def scanWord (c : Char) (rest : List Char) : List Char := c :: rest.takeWhile continuesWord

def scanSymbol (c : Char) (rest : List Char) : Except Fault Lexeme × List Char :=
  match rest.head?.bind (ofPair? c) with
  | some lexeme => (.ok lexeme, c :: rest.take 1)
  | none =>
    match ofSymbol? c with
    | some lexeme => (.ok lexeme, [c])
    | none => (.error (.unexpectedCharacter c), [c])

/-- The longest lexeme that starts with `c`, with the characters it takes. -/
def scan (c : Char) (rest : List Char) : Except Fault Lexeme × List Char :=
  if startsNumber c rest then scanNumber (c :: rest)
  else if startsWord c then
    let word := scanWord c rest
    (.ok (ofWord (String.ofList word)), word)
  else scanSymbol c rest

/-- The number of open parentheses after a lexeme; a closing one without its partner is let pass. -/
def parensAfter (open_ : Nat) : Lexeme → Nat
  | .leftParen => open_ + 1
  | .rightParen => open_ - 1
  | _ => open_

end Lexeme

namespace Token

def byteCount : List Char → Nat
  | [] => 0
  | c :: cs => c.utf8Size + byteCount cs

/-- The tokens of the characters from a byte offset on, with the number of open parentheses there. -/
def scanFrom (offset open_ : Nat) : List Char → Except Diagnostic (List Token)
  | [] => .ok [⟨.endOfInput, Span.between offset offset⟩]
  | c :: rest =>
    if Lexeme.isBlank c then scanFrom (offset + 1) open_ rest
    else if Lexeme.isLineBreak c then
      if open_ = 0 ∧ ¬ rest.all Lexeme.isSpace then
        .error (Lexeme.Fault.lineBreak.at (Span.between offset (offset + 1)))
      else scanFrom (offset + 1) open_ rest
    else
      let scanned := Lexeme.scan c rest
      let stop := offset + byteCount scanned.2
      let span := Span.between offset stop
      match scanned.1 with
      | .error fault => .error (fault.at span)
      | .ok lexeme => do
        let tokens ← scanFrom stop (lexeme.parensAfter open_) (rest.drop (scanned.2.length - 1))
        return ⟨lexeme, span⟩ :: tokens
termination_by cs => cs.length
decreasing_by all_goals simp only [List.length_cons, List.length_drop]; omega

/-- All tokens of a text; the last one, and only that, is the end of input. -/
def ofText (text : String) : Except Diagnostic (List Token) := scanFrom 0 0 text.toList

end Token
end Reckoner
