import Reckoner.Proofs.Calculation.Naming
import Reckoner.Proofs.Evaluator.Allowance
import Reckoner.Proofs.Evaluator.Width
import Reckoner.Proofs.Grammar.Literals
import Reckoner.Proofs.Number.Multiples

/-! The widest integers that occur while a text is evaluated. -/
namespace Reckoner.Calculation

variable {limits : Limits} {source : String} {e p : Expr} {gas : ℕ} {n : Int} {span : Span} {P : Int → Prop}

/-- A width that all literals of a text have. -/
theorem written_narrow (hlength : 4 * limits.maxInputLength.toNat ≤ limits.maxIntBits.toNat)
    (hread : read limits source = .ok e) (hn : .int n span ∈ e.parts) :
    bitLength n ≤ limits.maxIntBits.toNat := by
  obtain ⟨hshort, tokens, ht, he⟩ := read_eq_ok_iff.mp hread
  rw [bitLength_le_iff]
  exact (natAbs_lt_of_mem_parts ht he hn).trans_le (pow_le_pow_right₀ one_le_two (by omega))

/-- What is true of narrow integers, and kept by a rounding that the value of a part may come from, is true of that
value. -/
theorem run_yields (hwidth : Width limits.maxIntBits P)
    (hlength : 4 * limits.maxInputLength.toNat ≤ limits.maxIntBits.toNat)
    (hread : read limits source = .ok e) (hp : p ∈ e.parts)
    (hround : p.PassesRounding → Function.KeepsRounding P) :
    Yields P (Evaluator.run limits gas p).1 := fun n hn =>
  Evaluator.value_yields hwidth p ⟨fun n _ hn =>
      hwidth.narrow n (written_narrow hlength hread (Expr.parts_subset e p hp hn)), hround⟩
    n (Evaluator.run_eq_ok_iff.mp hn).1

theorem narrow_width (h : 1024 ≤ limits.maxIntBits.toNat) :
    Width limits.maxIntBits fun n => bitLength n ≤ limits.maxIntBits.toNat where
  narrow _ hn := hn
  neg n hn := by
    rw [bitLength_le_iff] at hn ⊢
    rwa [Int.natAbs_neg]
  double := h

theorem near_width (h : 1024 ≤ limits.maxIntBits.toNat) :
    Width limits.maxIntBits (Number.Near limits.maxIntBits.toNat) where
  narrow _ hn := .of_bitLength_le hn
  neg _ hn := hn.neg
  double := h

/-- Whatever part of a text is evaluated, its value is no wider than allowed unless it is handed on from a rounding
to a number of places, so as long as nothing in the part is so rounded, and at most one bit wider in any case. -/
theorem evaluated_integers_narrow (limits : Limits) (hwidth : 1024 ≤ limits.maxIntBits.toNat)
    (hlength : 4 * limits.maxInputLength.toNat ≤ limits.maxIntBits.toNat) (source : String) (e : Expr)
    (hread : read limits source = .ok e) : ∀ p ∈ e.parts, ∀ gas n,
      (Evaluator.run limits gas p).1 = .ok (.int n) →
        bitLength n ≤ limits.maxIntBits.toNat + 1 ∧
        ((∀ q ∈ p.parts, ¬ q.RoundsToPlaces) → bitLength n ≤ limits.maxIntBits.toNat) ∧
        (¬ p.PassesRounding → bitLength n ≤ limits.maxIntBits.toNat) := by
  intro p hp gas n hn
  have hnarrow (hplain : ¬ p.PassesRounding) : bitLength n ≤ limits.maxIntBits.toNat :=
    run_yields (narrow_width hwidth) hlength hread hp (fun h => absurd h hplain) n hn
  refine ⟨?_, fun hplain => hnarrow fun hpasses => ?_, hnarrow⟩
  · have hnear : Yields (Number.Near limits.maxIntBits.toNat) (Evaluator.run limits gas p).1 :=
      run_yields (near_width hwidth) hlength hread hp fun _ _ places h => h.roundInt places
    exact (hnear n hn).bitLength_le
  · obtain ⟨q, hq, hround⟩ := hpasses.exists_part
    exact hplain q hq hround

/-- The limits with a width that six times a power of ten has and the next power of ten has not. -/
def narrow : Limits := { Limits.standard with maxIntBits := 1026, maxInputLength := 256 }

/-- The expression of `round(6*10**308,-309)`. -/
def roundedUp : Expr :=
  .call "round" ⟨0, 5⟩ [.binary .mul (.int 6 ⟨6, 7⟩) (.binary .pow (.int 10 ⟨8, 10⟩) (.int 308 ⟨12, 15⟩) ⟨8, 15⟩)
    ⟨6, 15⟩, .signed .negative (.int 309 ⟨17, 20⟩) ⟨16, 20⟩] ⟨0, 21⟩

theorem read_roundedUp : read narrow "round(6*10**308,-309)" = .ok roundedUp := by cbv

/-- The bits of a value that is an integer. -/
def width? : Number → Option ℕ
  | .int n => some (bitLength n)
  | .float _ => none

theorem run_roundedUp : ∃ n, (Evaluator.run narrow 0 roundedUp).1 = .ok (.int n) ∧ bitLength n = 1027 := by
  have hwidth : (Evaluator.value narrow.maxIntBits roundedUp).toOption.bind width? = some 1027 := by
    decide +kernel
  cases hvalue : Evaluator.value narrow.maxIntBits roundedUp with
  | error d =>
    rw [hvalue] at hwidth
    cases hwidth
  | ok v =>
    rw [hvalue] at hwidth
    cases v with
    | float x => cases hwidth
    | int n => exact ⟨n, Evaluator.run_eq_ok_iff.mpr ⟨hvalue, by decide⟩, Option.some.inj hwidth⟩

/-- The value of a rounding is one bit wider than allowed, and no wider. -/
theorem rounded_up_one_bit_wider : ∃ n, (Evaluator.run narrow 0 roundedUp).1 = .ok (.int n) ∧
    narrow.maxIntBits.toNat < bitLength n ∧ bitLength n ≤ narrow.maxIntBits.toNat + 1 := by
  obtain ⟨n, hn, hbits⟩ := run_roundedUp
  have hle := (evaluated_integers_narrow narrow (by decide) (by decide) _ _ read_roundedUp roundedUp
    roundedUp.self_mem_parts 0 n hn).1
  exact ⟨n, hn, by rw [hbits]; decide, hle⟩

/-- Not all integers that occur in an evaluation are as narrow as allowed. -/
theorem rounding_exceeds_width : ¬ ∀ limits : Limits, 1024 ≤ limits.maxIntBits.toNat →
    4 * limits.maxInputLength.toNat ≤ limits.maxIntBits.toNat → ∀ source e, read limits source = .ok e →
    Whitelist.validate e = .ok () → ∀ p ∈ e.parts, ∀ gas n,
      (Evaluator.run limits gas p).1 = .ok (.int n) → bitLength n ≤ limits.maxIntBits.toNat := by
  intro h
  obtain ⟨n, hn, hbits⟩ := run_roundedUp
  have hle := h narrow (by decide) (by decide) _ _ read_roundedUp (by decide) roundedUp
    roundedUp.self_mem_parts 0 n hn
  rw [hbits] at hle
  exact absurd hle (by decide)

end Reckoner.Calculation
