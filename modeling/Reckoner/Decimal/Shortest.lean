import Reckoner.Binary64.Integral

/-! The fewest decimal digits that read back as a given double. The reals that round to the double
form an interval; the coarsest power-of-ten grid with a point in it is taken, and on that grid the
point nearer to the double. -/
namespace Reckoner.Decimal

/-- Which of two equally near decimals is taken. -/
inductive Tie where
  | greater
  | even
  deriving Repr, DecidableEq

/-- Whether the lower one of two equally near decimals is taken, by its digits. -/
def Tie.takesLower (t : Tie) (lower : Nat) : Bool :=
  match t with
  | .greater => false
  | .even => lower % 2 = 0

/-- A decimal `digits · 10 ^ exponent`. -/
structure Scientific where
  digits : Nat
  exponent : Int
  deriving Repr, DecidableEq

/-- The reals that round to a positive double, in quarters of its last binary place. -/
structure Interval where
  low : Nat
  centre : Nat
  high : Nat
  /-- The ends round to the double as well, its significand being even. -/
  closed : Bool
  /-- The binary exponent of a quarter. -/
  exponent : Int
  deriving Repr, DecidableEq

/-- Below a power of two the doubles lie twice as dense, so the interval reaches half as far. -/
def Interval.around (significand : Nat) (exponent : Int) : Interval where
  low := if significand = Binary64.leastNormal ∧ exponent ≠ Binary64.leastExponent then 4 * significand - 1
    else 4 * significand - 2
  centre := 4 * significand
  high := 4 * significand + 2
  closed := significand % 2 = 0
  exponent := exponent - 2

/-- The multiple of `10 ^ k` in the interval that is nearest to its centre. -/
def Interval.onGrid? (i : Interval) (tie : Tie) (k : Int) : Option Nat :=
  let quarter := Nat.pow 2 i.exponent.toNat * Nat.pow 10 (-k).toNat
  let step := Nat.pow 2 (-i.exponent).toNat * Nat.pow 10 k.toNat
  let inside (c : Nat) : Bool :=
    if i.closed then i.low * quarter ≤ c * step && c * step ≤ i.high * quarter
    else i.low * quarter < c * step && c * step < i.high * quarter
  let below := i.centre * quarter / step
  match inside below, inside (below + 1) with
  | true, true =>
    let twice := 2 * (i.centre * quarter)
    let middle := (2 * below + 1) * step
    some (if twice < middle ∨ (twice = middle ∧ tie.takesLower below) then below else below + 1)
  | true, false => some below
  | false, true => some (below + 1)
  | false, false => none

/-- Tries the grids `10 ^ k`, `10 ^ (k - 1)`, … in turn. -/
def Interval.search (i : Interval) (tie : Tie) : Nat → Int → Option Scientific
  | 0, _ => none
  | steps + 1, k =>
    match i.onGrid? tie k with
    | some c => some ⟨c, k⟩
    | none => i.search tie steps (k - 1)

/-- A power of ten above `2 ^ e`: ten lies between `2 ^ 3` and `2 ^ 4`. -/
def powerAbove (e : Int) : Int := if 0 ≤ e then e / 3 + 1 else -((-e) / 4)

/-- The shortest decimal of the positive double `significand · 2 ^ exponent`. The search ends at the
grid on which the double itself lies. -/
def shortest (tie : Tie) (significand : Nat) (exponent : Int) : Scientific :=
  let top := powerAbove (significand.log2 + 1 + exponent)
  let bottom := min exponent 0
  let i := Interval.around significand exponent
  (i.search tie (top - bottom + 1).toNat top).getD ⟨significand * Nat.pow 10 (exponent - bottom).toNat, bottom⟩

end Reckoner.Decimal
