import Reckoner.Token.Lexer
import Reckoner.Expr.Grammar
import Reckoner.Evaluator
import Reckoner.Display
import Reckoner.Glyph

/-! From a text to a display: glyphs are replaced, the text is read, its names are checked, and only
then it is evaluated and shown. -/
namespace Reckoner.Calculation

/-- The expression of a text that is not too long. -/
def read (limits : Limits) (source : String) : Except Diagnostic Expr := do
  let length := source.length
  if limits.maxInputLength.toNat < length then
    throw (.malformed .inputTooLong
      s!"expression is {length} characters; the limit is {limits.maxInputLength.toNat}"
      (Span.between 0 source.utf8ByteSize))
  let tokens ← Token.ofText source
  Expr.ofTokens limits.maxDepth tokens

/-- A value, and the gas that it took. -/
structure Result where
  value : Number
  gas : Nat

def result (limits : Limits) (source : String) : Except Diagnostic Result := do
  let e ← read limits source
  Whitelist.validate e
  match Evaluator.run limits 0 e with
  | (.ok value, gas) => return ⟨value, gas⟩
  | (.error failure, _) => throw failure.diagnostic

/-- The value of a text without glyphs. -/
def evaluate (limits : Limits) (source : String) : Except Diagnostic Number :=
  (result limits source).map Result.value

/-- The display of an empty text. -/
def emptyDisplay : String := "0"

/-- The display of a text, or why there is none. -/
def calculate (limits : Limits) (text : String) : Except Diagnostic String := do
  let source := Glyph.normalize text
  if source.isEmpty then return emptyDisplay
  let value ← evaluate limits source
  (Display.number value).mapError EvalError.diagnostic

/-- The display of a text, or of the failure. -/
def display (limits : Limits) (text : String) : String :=
  match calculate limits text with
  | .ok shown => shown
  | .error failure => failure.display

end Reckoner.Calculation
