import Reckoner.CommandLine.Run
import Reckoner.Proofs.Decimal.Digits

/-! Command lines that set limits: an option with its value attached to it is a setting, and the text after
the separator is the expression. -/
namespace Reckoner.CommandLine

namespace Setting

theorem natBelow?_digits {n bound : ℕ} (h : n < bound) :
    natBelow? bound (String.ofList (Decimal.digits n)) = some n := by
  have hrange : (0 : ℤ) ≤ n ∧ (n : ℤ) < bound := ⟨Int.natCast_nonneg n, mod_cast h⟩
  rw [natBelow?, Decimal.readInt?_digits (Decimal.digits_plain n).all, Decimal.value_digits, Option.bind_some,
    if_pos hrange, Int.toNat_natCast]

theorem word64?_digits (n : UInt64) : word64? (String.ofList (Decimal.digits n.toNat)) = some n := by
  obtain ⟨c, ds, hdigits, hc⟩ := (Decimal.digits_plain n.toNat).all.exists_cons
  have hsign : (String.ofList (Decimal.digits n.toNat)).toList.head? ≠ some '-' := by
    rw [String.toList_ofList, hdigits, List.head?_cons, ne_eq, Option.some_inj]
    rintro rfl
    exact absurd hc (by decide)
  rw [word64?, if_neg hsign, natBelow?_digits n.toNat_lt, Option.map_some]
  exact congrArg some UInt64.ofNat_toNat

end Setting

/-- An option with its value attached. -/
def attached (flag : Flag) (n : ℕ) : String := "--" ++ flag.name ++ "=" ++ String.ofList (Decimal.digits n)

theorem toList_attached (flag : Flag) (n : ℕ) :
    (attached flag n).toList = '-' :: '-' :: (flag.name.toList ++ '=' :: Decimal.digits n) := by
  simp [attached]

theorem shape_attached (flag : Flag) (n : ℕ) :
    Shape.ofArgument (attached flag n) = .long flag.name (some (String.ofList (Decimal.digits n))) := by
  have hname : ∀ c ∈ flag.name.toList, decide (c ≠ '=') := by cases flag <;> simp [Flag.name]
  have htake : (flag.name.toList ++ '=' :: Decimal.digits n).takeWhile (· ≠ '=') = flag.name.toList := by
    rw [List.takeWhile_append_of_pos hname]
    simp
  have hdrop : (flag.name.toList ++ '=' :: Decimal.digits n).dropWhile (· ≠ '=') = '=' :: Decimal.digits n := by
    rw [List.dropWhile_append_of_pos hname]
    simp
  simp only [Shape.ofArgument, toList_attached, htake, hdrop, String.ofList_toList]

/-- An option in front is neither a command nor the separator. -/
theorem attached_ne (flag : Flag) (n : ℕ) : attached flag n ≠ Invocation.helpCommand ∧
    Invocation.place? (attached flag n) = none ∧ attached flag n ≠ Progress.separator := by
  have hne {word : String} (h : word.toList ≠ '-' :: '-' :: (flag.name.toList ++ '=' :: Decimal.digits n)) :
      attached flag n ≠ word := by
    rintro rfl
    exact h (toList_attached flag n)
  refine ⟨hne (by simp [Invocation.helpCommand]), ?_, hne (by simp [Progress.separator])⟩
  unfold Invocation.place?
  split
  · next heq => exact absurd heq (hne (by simp))
  · next heq => exact absurd heq (hne (by simp))
  · rfl

theorem takeFlag_value {p : Progress} {flag : Flag} {value : String} {s : Setting} (hapart : p.apart = none)
    (h : Setting.ofValue? value flag = some s) : p.takeFlag flag (some value) = p.set s := by
  have hsettle : p.settle = .ok p := by rw [Progress.settle, hapart]
  have hset : p.setValue flag value = p.set s := by rw [Progress.setValue, h]
  cases flag with
  | help | json => cases h
  | maxLength | maxDepth | gasLimit | logLevel | endpoint =>
    rw [Progress.takeFlag, hsettle, ← hset]
    · rfl
    · exact nofun
    · exact nofun

/-- A value that is attached to its option is set at once. -/
theorem ofFront_attached (settings : List Setting) {s : Setting} {n : ℕ}
    (h : Setting.ofValue? (String.ofList (Decimal.digits n)) s.flag = some s)
    (hplace : Flag.ofName? .front s.flag.name = some s.flag) (hnew : settings.all (·.flag ≠ s.flag))
    (rest : List String) :
    Invocation.ofFront { settings } (attached s.flag n :: rest) =
      Invocation.ofFront { settings := settings ++ [s] } rest := by
  obtain ⟨hhelp, hcommand, hseparator⟩ := attached_ne s.flag n
  have hset : Progress.set { settings } s = .ok { settings := settings ++ [s] } := by
    rw [Progress.set, if_neg]
    simpa using hnew
  have htake : Progress.take .front { settings } (attached s.flag n) = .ok { settings := settings ++ [s] } := by
    simp only [Progress.take, shape_attached, hplace]
    rw [takeFlag_value rfl h, hset]
  have hawaiting : (Progress.awaiting { settings }).isNone := rfl
  rw [Invocation.ofFront, hawaiting, hcommand]
  simp only [true_and, if_neg hhelp, if_true, if_neg hseparator, htake]
  rfl

/-- The arguments for an expression under given limits. -/
def evaluating (length : UInt64) (depth : UInt32) (gas : UInt64) (json : Bool) (expression : String) :
    List String :=
  attached .maxLength length.toNat :: attached .maxDepth depth.toNat :: attached .gasLimit gas.toNat :: "eval" ::
    ((if json then ["--json"] else []) ++ [Progress.separator, expression])

/-- Every text reaches the evaluation, under all limits that have options. -/
theorem ofArguments_evaluating (length gas : UInt64) (depth : UInt32) (json : Bool) (expression : String) :
    Invocation.ofArguments (evaluating length depth gas json expression) =
      .ok ⟨⟨length, depth, gas⟩, some .warn, .eval expression json⟩ := by
  have hlength := ofFront_attached [] (s := .maxLength length) (n := length.toNat)
    (congrArg (Option.map Setting.maxLength) (Setting.word64?_digits length)) rfl rfl
  have hdepth := ofFront_attached [.maxLength length] (s := .maxDepth depth) (n := depth.toNat)
    (by simp [Setting.ofValue?, Setting.flag, Setting.natBelow?_digits depth.toNat_lt]) rfl rfl
  have hgas := ofFront_attached [.maxLength length, .maxDepth depth] (s := .gasLimit gas)
    (n := gas.toNat) (congrArg (Option.map Setting.gasLimit) (Setting.word64?_digits gas)) rfl rfl
  simp only [Setting.flag] at hlength hdepth hgas
  rw [Invocation.ofArguments, evaluating, hlength, List.nil_append, hdepth, List.singleton_append, hgas]
  cases json with
  | true => rfl
  | false => rfl

end Reckoner.CommandLine
