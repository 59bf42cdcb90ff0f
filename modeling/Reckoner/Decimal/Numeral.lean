import Reckoner.Decimal.Digits
import Reckoner.Binary64.Nearest

/-! Decimal numerals with a fraction and an exponent, and the double nearest to one. -/
namespace Reckoner.Decimal

/-- The double nearest to `± digits · 10 ^ exponent`. Exponents past the range of doubles are settled
before any power is taken: `digits` has at most as many decimal digits as bits. -/
def nearest (negative : Bool) (digits : Nat) (exponent : Int) : Float :=
  if digits = 0 then Binary64.zero negative
  else if 309 < exponent then Binary64.infinity negative
  else if exponent < -(330 + digits.log2) then Binary64.zero negative
  else Binary64.nearest negative (digits * Nat.pow 10 exponent.toNat) (Nat.pow 10 (-exponent).toNat)

/-- The digits of a numeral around its point, and its exponent. -/
structure Numeral where
  whole : List Char
  fraction : List Char
  exponent : Int
  deriving Repr, DecidableEq

def Numeral.toFloat (n : Numeral) (negative : Bool) : Float :=
  nearest negative (value (n.whole ++ n.fraction)) (n.exponent - n.fraction.length)

/-- The exponent mark, an optional sign and the digits of an exponent at the head of a text: the
characters they take and the exponent. -/
def exponent? : List Char → Option (List Char × Int)
  | mark :: cs =>
    if mark = 'e' ∨ mark = 'E' then
      match cs with
      | [] => none
      | sign :: rest =>
        let signs := if sign = '+' ∨ sign = '-' then [sign] else []
        let ds := (if signs = [] then cs else rest).takeWhile isDigit
        if ds = [] then none
        else some (mark :: signs ++ ds, if sign = '-' then -(value ds : Int) else value ds)
    else none
  | [] => none

/-- The point at the head of a text and the digits after it. -/
def pointed : List Char → List Char × List Char
  | '.' :: rest => (['.'], rest.takeWhile isDigit)
  | _ => ([], [])

/-- The characters of the longest numeral at the head of a text, and the numeral. A point is enough to
start a fraction; digits may be missing on both of its sides. -/
def Numeral.scan (cs : List Char) : List Char × Numeral :=
  let whole := cs.takeWhile isDigit
  let afterWhole := cs.dropWhile isDigit
  let (point, fraction) := pointed afterWhole
  let mantissa := whole ++ point ++ fraction
  match exponent? (cs.drop mantissa.length) with
  | some (spelling, e) => (mantissa ++ spelling, ⟨whole, fraction, e⟩)
  | none => (mantissa, ⟨whole, fraction, 0⟩)

/-- The words for the special doubles, in any case of letters. -/
def special? (word : List Char) : Option (Bool → Float) :=
  let lower := word.map Char.toLower
  if lower = "inf".toList ∨ lower = "infinity".toList then some Binary64.infinity
  else if lower = "nan".toList then some fun _ => 0.0 / 0.0
  else none

/-- The double that a text stands for: an optional sign, then a numeral with at least one digit or one
of the words for the special doubles. -/
def readFloat? (text : List Char) : Option Float :=
  let (negative, body) := match text with
    | '-' :: cs => (true, cs)
    | '+' :: cs => (false, cs)
    | cs => (false, cs)
  match special? body with
  | some special => some (special negative)
  | none =>
    let (taken, numeral) := Numeral.scan body
    if taken.length = body.length ∧ (numeral.whole ≠ [] ∨ numeral.fraction ≠ []) then
      some (numeral.toFloat negative)
    else none

end Reckoner.Decimal
