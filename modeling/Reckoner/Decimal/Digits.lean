/-! Decimal digits of naturals and integers, and the value of a run of digits. -/
namespace Reckoner.Decimal

/-- The last `2 ^ k` digits of `n`, zeros in front included; splitting in the middle keeps long
numbers cheap. -/
def block : Nat → Nat → List Char
  | 0, n => [Nat.digitChar (n % 10)]
  | k + 1, n => block k (n / Nat.pow 10 (Nat.pow 2 k)) ++ block k (n % Nat.pow 10 (Nat.pow 2 k))

/-- The digits of `n`, without zeros in front; zero has one digit. Three bits take less than a digit,
so the block is wide enough. -/
def digits (n : Nat) : List Char :=
  match (block ((n.log2 / 3).log2 + 1) n).dropWhile (· == '0') with
  | [] => ['0']
  | ds => ds

/-- The value of a run of digits, most significant first. -/
def value (ds : List Char) : Nat :=
  ds.foldl (fun n c => 10 * n + (c.toNat - '0'.toNat)) 0

def intText (n : Int) : String :=
  String.ofList (if n < 0 then '-' :: digits n.natAbs else digits n.natAbs)

/-- A digit of the decimal numerals. -/
def isDigit (c : Char) : Bool := '0' ≤ c && c ≤ '9'

/-- The integer written as digits after an optional sign. -/
def readInt? (text : String) : Option Int :=
  let unsigned (cs : List Char) : Option Nat :=
    if cs ≠ [] ∧ cs.all isDigit then some (value cs) else none
  match text.toList with
  | '-' :: cs => (unsigned cs).map fun n => -n
  | '+' :: cs => (unsigned cs).map fun n => n
  | cs => (unsigned cs).map fun n => n

end Reckoner.Decimal
