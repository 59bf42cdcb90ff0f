import Reckoner.Number.Arithmetic
import Reckoner.Proofs.Binary64.Integers
import Reckoner.Proofs.Failure

/-! Which operands an operator reports as a division by zero. Division looks at the divisor before anything
else; the other operators convert the operands to doubles first, where one of them is a double. -/
namespace Reckoner.Number
open Binary64

variable {a b : Number} {x y : Float} {n : Int} {bits : UInt64} {f : Float → Float → Except EvalError Float}

/-- The zeros among the values. -/
inductive IsZero : Number → Prop
  | int : IsZero (.int 0)
  | float : IsZero (.float 0.0)
  | negative : IsZero (.float (-0.0))

/-- The values below zero. -/
inductive IsNegative : Number → Prop
  | int {n : Int} (h : n < 0) : IsNegative (.int n)
  | float {x : Float} (h : x < 0.0) : IsNegative (.float x)

/-- An integer beyond the doubles that meets a double. -/
inductive Unconvertible : Number → Number → Prop
  | intro {n : Int} (h : beyond ≤ n.natAbs) (x : Float) : Unconvertible (.int n) (.float x)

/-- At least one of two operands is a double. -/
inductive Mixed : Number → Number → Prop
  | left (x : Float) (b : Number) : Mixed (.float x) b
  | right (a : Number) (y : Float) : Mixed a (.float y)

theorem Mixed.symm (h : Mixed a b) : Mixed b a := by
  cases h with
  | left x b => exact .right b x
  | right a y => exact .left y a

theorem isZero_int_iff : IsZero (.int n) ↔ n = 0 := by
  constructor
  · rintro ⟨⟩
    rfl
  · rintro rfl
    exact .int

theorem isZero_float_iff : IsZero (.float x) ↔ (x == 0.0) = true := by
  rw [beq_zero_iff]
  constructor
  · rintro (_ | _ | _)
    · exact .inl rfl
    · exact .inr rfl
  · rintro (rfl | rfl)
    · exact .float
    · exact .negative

theorem isZero_iff (b : Number) : b.isZero = true ↔ IsZero b := by
  cases b with
  | int n => rw [isZero_int_iff, isZero, decide_eq_true_iff]
  | float x => exact isZero_float_iff.symm

theorem isNegative_int_iff : IsNegative (.int n) ↔ n < 0 := by
  constructor
  · intro h
    cases h with
    | int h => exact h
  · exact .int

theorem isNegative_float_iff : IsNegative (.float x) ↔ x < 0.0 := by
  constructor
  · intro h
    cases h with
    | float h => exact h
  · exact .float

/-! Conversion to doubles -/

theorem toFloat_int (h : n.natAbs < beyond) : (Number.int n).toFloat = .ok (ofInt n) :=
  if_pos ((isFinite_ofInt_iff n).mpr h)

theorem toFloat_int_beyond (h : beyond ≤ n.natAbs) :
    (Number.int n).toFloat = .error (.overflow .integerToFloat) :=
  if_neg fun hfinite => absurd ((isFinite_ofInt_iff n).mp hfinite) (Nat.not_lt.mpr h)

/-- Conversion gives a double, or fails because the integer is too large. -/
theorem toFloat_cases (b : Number) : (∃ x, b = .float x ∧ b.toFloat = .ok x) ∨
    (∃ n, b = .int n ∧ n.natAbs < beyond ∧ b.toFloat = .ok (ofInt n)) ∨
    ∃ n, b = .int n ∧ beyond ≤ n.natAbs ∧ b.toFloat = .error (.overflow .integerToFloat) := by
  cases b with
  | float x => exact .inl ⟨x, rfl, rfl⟩
  | int n =>
    obtain h | h := Nat.lt_or_ge n.natAbs beyond
    · exact .inr (.inl ⟨n, rfl, h, toFloat_int h⟩)
    · exact .inr (.inr ⟨n, rfl, h, toFloat_int_beyond h⟩)

theorem toFloat_ne_divisionByZero (b : Number) : b.toFloat ≠ .error .divisionByZero := by
  obtain ⟨x, -, h⟩ | ⟨n, -, -, h⟩ | ⟨n, -, -, h⟩ := toFloat_cases b <;> rw [h] <;> exact nofun

/-- Conversion keeps zeros. -/
theorem isZero_iff_of_toFloat (h : b.toFloat = .ok y) : IsZero b ↔ (y == 0.0) = true := by
  obtain ⟨x, rfl, hx⟩ | ⟨n, rfl, -, hn⟩ | ⟨n, -, -, hn⟩ := toFloat_cases b
  · cases hx.symm.trans h
    exact isZero_float_iff
  · cases hn.symm.trans h
    rw [isZero_int_iff, ofInt_beq_zero_iff]
  · cases hn.symm.trans h

/-- Conversion keeps signs. -/
theorem isNegative_iff_of_toFloat (h : b.toFloat = .ok y) : IsNegative b ↔ y < 0.0 := by
  obtain ⟨x, rfl, hx⟩ | ⟨n, rfl, -, hn⟩ | ⟨n, -, -, hn⟩ := toFloat_cases b
  · cases hx.symm.trans h
    exact isNegative_float_iff
  · cases hn.symm.trans h
    rw [isNegative_int_iff, ofInt_lt_zero_iff]
  · cases hn.symm.trans h

theorem IsZero.exists_toFloat (h : IsZero b) : ∃ y, b.toFloat = .ok y := by
  cases h with
  | int => exact ⟨_, toFloat_int (by decide +kernel)⟩
  | float => exact ⟨_, rfl⟩
  | negative => exact ⟨_, rfl⟩

theorem Unconvertible.toFloat (h : Unconvertible a b) : a.toFloat = .error (.overflow .integerToFloat) := by
  obtain ⟨h, x⟩ := h
  exact toFloat_int_beyond h

/-- Beside a double all values are converted but the integers beyond the doubles. -/
theorem Mixed.exists_toFloat (h : Mixed a b) (hconvertible : ¬ Unconvertible a b) : ∃ x, a.toFloat = .ok x := by
  obtain ⟨x, -, hx⟩ | ⟨n, -, -, hn⟩ | ⟨n, rfl, hbeyond, -⟩ := toFloat_cases a
  · exact ⟨x, hx⟩
  · exact ⟨_, hn⟩
  · cases h with
    | right _ y => exact absurd (.intro hbeyond y) hconvertible

/-! Operators on doubles -/

/-- An operator with both operands as doubles, the left one converted first. -/
def asFloats (f : Float → Float → Except EvalError Float) (a b : Number) : Except EvalError Number := do
  let x ← a.toFloat
  let y ← b.toFloat
  let z ← f x y
  return .float z

theorem asFloats_eq_divisionByZero_iff : asFloats f a b = .error .divisionByZero ↔
    ∃ x y, a.toFloat = .ok x ∧ b.toFloat = .ok y ∧ f x y = .error .divisionByZero := by
  constructor
  · intro h
    obtain ha | ⟨x, hx, h⟩ := bind_eq_error_iff.mp h
    · exact absurd ha (toFloat_ne_divisionByZero a)
    obtain hb | ⟨y, hy, h⟩ := bind_eq_error_iff.mp h
    · exact absurd hb (toFloat_ne_divisionByZero b)
    obtain hf | ⟨z, -, h⟩ := bind_eq_error_iff.mp h
    · exact ⟨x, y, hx, hy, hf⟩
    · cases h
  · rintro ⟨x, y, hx, hy, hf⟩
    rw [asFloats, hx, hy]
    change (f x y >>= fun z => pure (Number.float z)) = _
    rw [hf]
    rfl

theorem mixed_eq_asFloats {onInts : Int → Int → Except EvalError Number} (h : Mixed a b) :
    mixed onInts f a b = asFloats f a b := by
  cases h with
  | left x b => rfl
  | right a y => cases a <;> rfl

theorem pow_eq_asFloats (h : Mixed a b) : pow bits a b = asFloats floatPow a b := by
  cases h with
  | left x b => rfl
  | right a y => cases a <;> rfl

theorem int_or_mixed (a b : Number) : (∃ m n, a = .int m ∧ b = .int n) ∨ Mixed a b := by
  cases a with
  | float x => exact .inr (.left x b)
  | int m =>
    cases b with
    | float y => exact .inr (.right _ y)
    | int n => exact .inl ⟨m, n, rfl, rfl⟩

theorem ofIntWithin_ne_divisionByZero (n : Int) : ofIntWithin bits n ≠ .error .divisionByZero := by
  unfold ofIntWithin
  split <;> exact nofun

theorem intDivMod_eq_divisionByZero_iff (m n : Int) : intDivMod m n = .error .divisionByZero ↔ n = 0 := by
  unfold intDivMod
  split
  · next h => exact iff_of_true rfl h
  · next h =>
    refine iff_of_false ?_ h
    dsimp only
    split <;> exact nofun

theorem intFloorDiv_eq_divisionByZero_iff (m n : Int) : intFloorDiv bits m n = .error .divisionByZero ↔ n = 0 := by
  rw [intFloorDiv, bind_eq_error_iff, intDivMod_eq_divisionByZero_iff, or_iff_left]
  exact fun ⟨_, _, h⟩ => ofIntWithin_ne_divisionByZero _ h

theorem intMod_eq_divisionByZero_iff (m n : Int) : intMod bits m n = .error .divisionByZero ↔ n = 0 := by
  rw [intMod, bind_eq_error_iff, intDivMod_eq_divisionByZero_iff, or_iff_left]
  exact fun ⟨_, _, h⟩ => ofIntWithin_ne_divisionByZero _ h

theorem floatFloorDiv_eq_divisionByZero_iff (x y : Float) :
    floatFloorDiv x y = .error .divisionByZero ↔ (y == 0.0) = true := by
  unfold floatFloorDiv
  split
  · next h => exact iff_of_true rfl h
  · next h =>
    refine iff_of_false ?_ h
    dsimp only
    split <;> exact nofun

theorem floatMod_eq_divisionByZero_iff (x y : Float) :
    floatMod x y = .error .divisionByZero ↔ (y == 0.0) = true := by
  unfold floatMod
  split
  · next h => exact iff_of_true rfl h
  · next h => exact iff_of_false nofun h

/-- Operators that report a zero divisor, among integers and among doubles, report every one that is met by a
convertible dividend. -/
theorem mixed_eq_divisionByZero_iff {onInts : Int → Int → Except EvalError Number}
    (hints : ∀ m n, onInts m n = .error .divisionByZero ↔ n = 0)
    (hfloats : ∀ x y, f x y = .error .divisionByZero ↔ (y == 0.0) = true) (a b : Number) :
    mixed onInts f a b = .error .divisionByZero ↔ IsZero b ∧ ¬ Unconvertible a b := by
  obtain ⟨m, n, rfl, rfl⟩ | h := int_or_mixed a b
  · rw [isZero_int_iff, and_iff_left nofun]
    exact hints m n
  · rw [mixed_eq_asFloats h, asFloats_eq_divisionByZero_iff]
    constructor
    · rintro ⟨x, y, hx, hy, hf⟩
      refine ⟨(isZero_iff_of_toFloat hy).mpr ((hfloats x y).mp hf), fun hu => ?_⟩
      cases hu.toFloat.symm.trans hx
    · rintro ⟨hzero, hconvertible⟩
      obtain ⟨x, hx⟩ := h.exists_toFloat hconvertible
      obtain ⟨y, hy⟩ := hzero.exists_toFloat
      exact ⟨x, y, hx, hy, (hfloats x y).mpr ((isZero_iff_of_toFloat hy).mp hzero)⟩

theorem trueDiv_eq_divisionByZero_iff (a b : Number) : trueDiv a b = .error .divisionByZero ↔ IsZero b := by
  rw [← isZero_iff]
  unfold trueDiv
  split
  · next h => exact iff_of_true rfl h
  · next h =>
    refine iff_of_false (fun hdiv => ?_) h
    obtain ⟨x, y, -, -, hf⟩ := (asFloats_eq_divisionByZero_iff (f := fun x y => .ok (x / y))).mp hdiv
    cases hf

theorem intPow_ne_divisionByZero (base : Int) (exponent : ℕ) :
    intPow bits base exponent ≠ .error .divisionByZero := by
  rw [intPow_eq]
  split
  · exact nofun
  split
  · exact nofun
  split
  · exact nofun
  split
  · exact nofun
  · exact ofIntWithin_ne_divisionByZero _

theorem floatPow_eq_divisionByZero_iff (x y : Float) :
    floatPow x y = .error .divisionByZero ↔ (x == 0.0) = true ∧ y < 0.0 := by
  unfold floatPow
  split
  · next h => exact iff_of_true rfl (by simpa using h)
  · next h =>
    refine iff_of_false ?_ (by simpa using h)
    split
    · exact nofun
    dsimp only
    split <;> exact nofun

theorem pow_eq_divisionByZero_iff (a b : Number) : pow bits a b = .error .divisionByZero ↔
    IsZero a ∧ IsNegative b ∧ ¬ Unconvertible b a := by
  obtain ⟨m, n, rfl, rfl⟩ | h := int_or_mixed a b
  · have hconvertible : ¬ Unconvertible (.int n) (.int m) := nofun
    rw [isZero_int_iff, isNegative_int_iff, and_iff_left hconvertible]
    change (if 0 ≤ n then intPow bits m n.toNat
      else if m = 0 then .error .divisionByZero else asFloats floatPow (.int m) (.int n)) = _ ↔ _
    split
    · next hn => exact iff_of_false (intPow_ne_divisionByZero _ _) fun h => absurd h.2 (not_lt.mpr hn)
    · next hn =>
      split
      · next hm => exact iff_of_true rfl ⟨hm, not_le.mp hn⟩
      · next hm =>
        -- an integer that is not zero does not become zero as a double either
        refine iff_of_false (fun hpow => hm ?_) fun h => hm h.1
        obtain ⟨x, y, hx, -, hf⟩ := asFloats_eq_divisionByZero_iff.mp hpow
        exact isZero_int_iff.mp ((isZero_iff_of_toFloat hx).mpr ((floatPow_eq_divisionByZero_iff x y).mp hf).1)
  · rw [pow_eq_asFloats h, asFloats_eq_divisionByZero_iff]
    constructor
    · rintro ⟨x, y, hx, hy, hf⟩
      obtain ⟨hzero, hneg⟩ := (floatPow_eq_divisionByZero_iff x y).mp hf
      refine ⟨(isZero_iff_of_toFloat hx).mpr hzero, (isNegative_iff_of_toFloat hy).mpr hneg, fun hu => ?_⟩
      cases hu.toFloat.symm.trans hy
    · rintro ⟨hzero, hneg, hconvertible⟩
      obtain ⟨x, hx⟩ := hzero.exists_toFloat
      obtain ⟨y, hy⟩ := h.symm.exists_toFloat hconvertible
      exact ⟨x, y, hx, hy, (floatPow_eq_divisionByZero_iff x y).mpr
        ⟨(isZero_iff_of_toFloat hx).mp hzero, (isNegative_iff_of_toFloat hy).mp hneg⟩⟩

/-- What cannot be converted is reported before the operator looks at the operands. -/
theorem Unconvertible.asFloats_left (h : Unconvertible a b) (f : Float → Float → Except EvalError Float) :
    asFloats f a b = .error (.overflow .integerToFloat) := by
  rw [asFloats, h.toFloat]
  rfl

theorem Unconvertible.asFloats_right (h : Unconvertible b a) (f : Float → Float → Except EvalError Float) :
    asFloats f a b = .error (.overflow .integerToFloat) := by
  rw [asFloats, h.toFloat]
  cases h with
  | intro _ x => rfl

theorem Unconvertible.mixed (h : Unconvertible a b) : Mixed a b := by
  cases h with
  | intro _ x => exact .right _ x

theorem Unconvertible.floorDiv (h : Unconvertible a b) :
    binary .floorDiv a b bits = .error (.overflow .integerToFloat) :=
  (mixed_eq_asFloats h.mixed).trans (h.asFloats_left _)

theorem Unconvertible.mod (h : Unconvertible a b) :
    binary .mod a b bits = .error (.overflow .integerToFloat) :=
  (mixed_eq_asFloats h.mixed).trans (h.asFloats_left _)

theorem Unconvertible.pow (h : Unconvertible b a) : binary .pow a b bits = .error (.overflow .integerToFloat) :=
  (pow_eq_asFloats h.mixed.symm).trans (h.asFloats_right _)

/-- A division by zero is reported for every zero divisor, and for a zero to a negative power, and for nothing
else; but where an integer beyond the doubles meets a double, quotients rounded down, remainders and powers
report the integer. -/
theorem zero_divisors_reported (a b : Number) (bits : UInt64) :
    (binary .div a b bits = .error .divisionByZero ↔ IsZero b) ∧
    (binary .floorDiv a b bits = .error .divisionByZero ↔ IsZero b ∧ ¬ Unconvertible a b) ∧
    (binary .mod a b bits = .error .divisionByZero ↔ IsZero b ∧ ¬ Unconvertible a b) ∧
    (binary .pow a b bits = .error .divisionByZero ↔ IsZero a ∧ IsNegative b ∧ ¬ Unconvertible b a) ∧
    (Unconvertible a b → binary .floorDiv a b bits = .error (.overflow .integerToFloat) ∧
      binary .mod a b bits = .error (.overflow .integerToFloat)) ∧
    (Unconvertible b a → binary .pow a b bits = .error (.overflow .integerToFloat)) :=
  ⟨trueDiv_eq_divisionByZero_iff a b,
    mixed_eq_divisionByZero_iff intFloorDiv_eq_divisionByZero_iff floatFloorDiv_eq_divisionByZero_iff a b,
    mixed_eq_divisionByZero_iff intMod_eq_divisionByZero_iff floatMod_eq_divisionByZero_iff a b,
    pow_eq_divisionByZero_iff a b, fun h => ⟨h.floorDiv, h.mod⟩, fun h => h.pow⟩

theorem unconvertible_ten_pow (x : Float) : Unconvertible (.int (10 ^ 400)) (.float x) :=
  .intro (by decide +kernel) x

/-- Divided by minus zero, an integer beyond the doubles is a division by zero, but the quotient is not rounded
down; zero to a negative power is one. -/
theorem large_dividend_reported :
    Unconvertible (.int (10 ^ 400)) (.float (-0.0)) ∧
    binary .div (.int (10 ^ 400)) (.float (-0.0)) 64 = .error .divisionByZero ∧
    binary .floorDiv (.int (10 ^ 400)) (.float (-0.0)) 64 = .error (.overflow .integerToFloat) ∧
    binary .pow (.int 0) (.int (-1)) 64 = .error .divisionByZero := by
  have hlarge := unconvertible_ten_pow (-0.0)
  obtain ⟨hdiv, -, -, -, hfloor, -⟩ := zero_divisors_reported (.int (10 ^ 400)) (.float (-0.0)) 64
  obtain ⟨-, -, -, hpow, -⟩ := zero_divisors_reported (.int 0) (.int (-1)) 64
  exact ⟨hlarge, hdiv.mpr .negative, (hfloor hlarge).1, hpow.mpr ⟨.int, .int (by decide), nofun⟩⟩

/-- Not every zero divisor is reported. -/
theorem zero_divisor_unreported : ¬ ∀ (a b : Number) (bits : UInt64),
    (∀ op ∈ [BinaryOp.div, .floorDiv, .mod], (binary op a b bits = .error .divisionByZero ↔ IsZero b)) ∧
    (binary .pow a b bits = .error .divisionByZero ↔ IsZero a ∧ IsNegative b) := by
  intro h
  have hreported := ((h (.int (10 ^ 400)) (.float 0.0) 64).1 .floorDiv (by simp)).mpr .float
  rw [(unconvertible_ten_pow 0.0).floorDiv] at hreported
  cases hreported

end Reckoner.Number
