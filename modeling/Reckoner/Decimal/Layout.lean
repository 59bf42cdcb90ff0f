import Reckoner.Decimal.Digits
import Reckoner.Decimal.Shortest

/-! The text of a double: its shortest digits, laid out by the decisions of a record. -/
namespace Reckoner.Decimal

/-- Where a number is written positionally, and how an exponent is spelled. -/
structure Layout where
  tie : Tie
  /-- Whether a leading digit of this power of ten is written positionally. -/
  positional : Int → Bool
  /-- Whole numbers end in `.0`. -/
  pointZero : Bool
  /-- An exponent that is not negative has a sign. -/
  plus : Bool
  /-- The least number of exponent digits. -/
  exponentWidth : Nat
  nan : String
  infinity : String

/-- Never an exponent, and no point in whole numbers. -/
def Layout.plain : Layout where
  tie := .greater
  positional _ := true
  pointZero := false
  plus := false
  exponentWidth := 1
  nan := "NaN"
  infinity := "inf"

/-- The text of a value among others of its kind: always a point or an exponent. -/
def Layout.exact : Layout where
  tie := .greater
  positional e := -4 ≤ e && e < 16
  pointZero := true
  plus := false
  exponentWidth := 1
  nan := "NaN"
  infinity := "inf"

def zeros (n : Nat) : List Char := List.replicate n '0'

/-- The digits with the point after the first `whole` of them. -/
def placePoint (pointZero : Bool) (ds : List Char) (whole : Int) : List Char :=
  let count : Int := ds.length
  if count ≤ whole then
    ds ++ zeros (whole - count).toNat ++ (if pointZero then ['.', '0'] else [])
  else if 0 < whole then ds.take whole.toNat ++ '.' :: ds.drop whole.toNat
  else '0' :: '.' :: zeros (-whole).toNat ++ ds

/-- The first digit, the others after a point, and the exponent. -/
def Layout.exponential (l : Layout) (ds : List Char) (exponent : Int) : List Char :=
  let fraction := ds.drop 1
  let mantissa := ds.take 1 ++ (if fraction.isEmpty then [] else '.' :: fraction)
  let sign := if exponent < 0 then ['-'] else if l.plus then ['+'] else []
  let power := digits exponent.natAbs
  mantissa ++ 'e' :: sign ++ zeros (l.exponentWidth - power.length) ++ power

/-- The text of a positive decimal. -/
def Layout.magnitude (l : Layout) (d : Scientific) : List Char :=
  let ds := digits d.digits
  let exponent := d.exponent + ds.length - 1
  if l.positional exponent then placePoint l.pointZero ds (exponent + 1)
  else l.exponential ds exponent

def Layout.text (l : Layout) (x : Float) : String :=
  let signed (negative : Bool) (cs : List Char) := String.ofList (if negative then '-' :: cs else cs)
  match Binary64.view x with
  | .nan => l.nan
  | .infinite negative => signed negative l.infinity.toList
  | .finite negative 0 _ => signed negative (placePoint l.pointZero ['0'] 1)
  | .finite negative m e => signed negative (l.magnitude (shortest l.tie m e))

end Reckoner.Decimal
