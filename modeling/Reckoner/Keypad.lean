import Reckoner.Decimal.Layout
import Reckoner.Decimal.Numeral
import Reckoner.Diagnostic
import Reckoner.Text.Space

/-! The keys of a calculator: those that work on the shown text, and the names of all of them. -/
namespace Reckoner
namespace Keypad

/-- How hundredths look: always a point or an exponent of at least two digits. -/
def layout : Decimal.Layout where
  tie := .greater
  positional e := -4 ≤ e && e < 16
  pointZero := true
  plus := true
  exponentWidth := 2
  nan := "nan"
  infinity := "inf"

/-- The first digit, the others after a point, and the exponent of ten, always. -/
def scientific : Decimal.Layout where
  tie := .greater
  positional _ := false
  pointZero := false
  plus := false
  exponentWidth := 1
  nan := "NaN"
  infinity := "inf"

/-- What stands before the exponent mark, and the exponent behind it; without a mark that is zero. -/
def splitExponent (written : List Char) : List Char × Int :=
  match written.dropWhile (· ≠ 'e') with
  | [] => (written, 0)
  | _ :: exponent => (written.takeWhile (· ≠ 'e'), (Decimal.readInt? (String.ofList exponent)).getD 0)

/-- A point is put behind a whole number; very small and very large numbers keep their exponent, with a sign and at
least two digits. The size of a number is told by the exponent of its scientific text. -/
def text (x : Float) : String :=
  match Binary64.view x with
  | .nan => "nan"
  | .infinite negative => if negative then "-inf" else "inf"
  | .finite negative 0 _ => if negative then "-0.0" else "0.0"
  | .finite _ _ _ =>
    let (mantissa, exponent) := splitExponent (scientific.text x).toList
    if -4 ≤ exponent ∧ exponent < 16 then
      let fixed := Decimal.Layout.plain.text x
      if '.' ∈ fixed.toList then fixed else fixed ++ ".0"
    else
      let sign := if exponent < 0 then '-' else '+'
      let power := Decimal.digits exponent.natAbs
      String.ofList (mantissa ++ 'e' :: sign :: Decimal.zeros (2 - power.length) ++ power)

/-- The shown number divided by a hundred. -/
def percentage (shown : String) : String :=
  match Decimal.readFloat? (Text.trim shown.toList) with
  | some x => text (x / 100.0)
  | none => Diagnostic.evaluationDisplay

/-- A minus sign in front is taken away, or put there. -/
def toggleSign (shown : String) : String :=
  match shown.toList with
  | '-' :: rest => String.ofList rest
  | cs => String.ofList ('-' :: cs)

def clear : String := "0"

end Keypad

/-- What a key asks for. -/
inductive Action where
  | calculate
  | percentage
  | toggleSign
  | clear
  deriving Repr, DecidableEq

namespace Action

def all : List Action := [.calculate, .percentage, .toggleSign, .clear]

def name : Action → String
  | .calculate => "calculate"
  | .percentage => "percentage"
  | .toggleSign => "toggle_sign"
  | .clear => "clear"

def ofName? (name : String) : Option Action := all.find? fun a => a.name = name

end Action
end Reckoner
