import Reckoner.Proofs.Decimal.Leading
import Reckoner.Proofs.Service.Splicing
import Reckoner.Proofs.Token.Spelling

/-! The texts of hundredths lose nothing: they are read as the double that was written, so the key can be pressed
again. An exponent is written just where a number is very small or very large. -/
namespace Reckoner
open Decimal Binary64 Display

variable {w cs power rest whole fraction : List Char} {c : Char} {m : ℕ} {e j : ℤ} {x : Float} {negative : Bool}
  {shown : String}

namespace Text

theorem isSpace_of_between (hlow : '+' ≤ c) (hhigh : c ≤ 'z') : isSpace c = false := by
  have hlow : 0x2B ≤ c.toNat := hlow
  have hhigh : c.toNat ≤ 0x7A := hhigh
  simp only [isSpace, Bool.or_eq_false_iff, Bool.and_eq_false_iff, decide_eq_false_iff_not]
  omega

/-- Nothing is cut from a text without spaces. -/
theorem trim_eq_self (h : ∀ c ∈ cs, isSpace c = false) : trim cs = cs := by
  have hdrop {cs : List Char} (h : ∀ c ∈ cs, isSpace c = false) : cs.dropWhile isSpace = cs := by
    cases cs with
    | nil => rfl
    | cons c cs => exact List.dropWhile_cons_of_neg (by simp [h c List.mem_cons_self])
  rw [trim, hdrop h, hdrop (fun c hc => h c (List.mem_reverse.mp hc)), List.reverse_reverse]

/-- Nothing is cut from a numeral. -/
theorem trim_numeric (h : Numeric w) (negative : Bool) : trim (sign negative ++ w) = sign negative ++ w := by
  apply trim_eq_self
  have hsign : ∀ c ∈ sign negative, isSpace c = false := by cases negative <;> simp [sign, isSpace]
  refine List.forall_mem_append.mpr ⟨hsign, Lexeme.forall_of_numeric h (fun c hc => ?_) (by simp [isSpace])⟩
  obtain ⟨h0, h9⟩ : '0' ≤ c ∧ c ≤ '9' := by simpa [isDigit] using hc
  exact isSpace_of_between (le_trans (by decide) h0) (le_trans h9 (by decide))

end Text

namespace Keypad

theorem roundsTo_ten_thousandth : RoundsTo (10 ^ (-4 : ℤ)) (magnitude 7378697629483821 (-66)) := by
  have hcode : significand leastExponent 1 10000 = (7378697629483821, -66) := by decide +kernel
  have h := (significand_eq_iff leastExponent (by decide) (by decide)).mp hcode
  refine ⟨_, _, ?_, rfl⟩
  convert h using 1
  norm_num

theorem roundsTo_sixteen_zeros : RoundsTo (10 ^ (16 : ℤ)) (10 ^ (16 : ℤ)) := by
  have h : magnitude (5 ^ 16) 16 = 10 ^ (16 : ℤ) := by
    rw [magnitude]
    norm_num
  exact h ▸ .self (by decide) (by decide)

/-- The leading power of the shortest decimal is between the limits as the double itself is. -/
theorem positional_iff (hc : Canonical m e) (hm : 0 < m) :
    layout.positional (Layout.leading (shortest layout.tie m e)) = true ↔
      10 ^ (-4 : ℤ) ≤ magnitude m e ∧ magnitude m e < 10 ^ (16 : ℤ) := by
  have hpos := (shortest_identifies layout.tie hm e).digits_pos
  have hup : (10 : ℚ) ^ (-4 : ℤ) ≤ magnitude 7378697629483821 (-66) := by
    rw [magnitude]
    norm_num
  rw [layout_positional_iff, ← not_le, Layout.leading, ← zpow_le_iff hpos, ← zpow_le_iff hpos,
    zpow_le_shortest_iff _ hc hm roundsTo_ten_thousandth hup,
    zpow_le_shortest_iff _ hc hm roundsTo_sixteen_zeros le_rfl, not_le]

/-- A text in exponent form: the fewest digits that are read as the double, with a point behind the first of them if
there are more, and a signed exponent of at least two digits. -/
inductive Exponential (x : Float) (negative : Bool) : List Char → Prop
  | intro {d : Char} {rest power : List Char} {exponent : ℤ} (digits : Digits (d :: rest))
    (fewest : ∀ n k, Decimal.nearest negative n k = x → (d :: rest).length ≤ (Decimal.digits n).length)
    (power_digits : Digits power) (power_value : value power = exponent.natAbs)
    (power_length : power.length = max 2 (Decimal.digits exponent.natAbs).length) :
    Exponential x negative (sign negative ++ (Decimal.positional [d] rest ++
      'e' :: (if exponent < 0 then '-' else '+') :: power))

theorem exponential_of_view (hview : view x = .finite negative m e) (hm : 0 < m) (exponent : ℤ) :
    Exponential x negative (sign negative ++ layout.exponential (digits (shortest layout.tie m e).digits) exponent) := by
  have hc := canonical_of_view hview
  have hplain := digits_plain (shortest layout.tie m e).digits
  have hfewest (n : ℕ) (k : ℤ) (h : Decimal.nearest negative n k = x) :
      (digits (shortest layout.tie m e).digits).length ≤ (digits n).length :=
    length_shortest_le layout.tie hm (contains_of_nearest hc hm (h.trans (eq_pack_of_view hview)))
  generalize digits (shortest layout.tie m e).digits = ds at *
  obtain ⟨d, rest, rfl, -⟩ := hplain.all.exists_cons
  have hsign : layout.exponentSign exponent = [if exponent < 0 then '-' else '+'] := by
    unfold Layout.exponentSign
    split <;> rfl
  have hlength : (layout.exponentDigits exponent).length = max 2 (digits exponent.natAbs).length := by
    rw [Layout.exponentDigits, List.length_append, zeros, List.length_replicate]
    change 2 - _ + _ = _
    omega
  rw [Layout.exponential_eq, hsign]
  exact .intro hplain.all hfewest (layout.exponentDigits_digits _) (layout.value_exponentDigits _) hlength

/-- A text without an exponent has a point. -/
theorem pointed_of_tidy (htidy : Tidy whole fraction) (negative : Bool) :
    '.' ∈ sign negative ++ pointedText true whole fraction ∧ 'e' ∉ sign negative ++ pointedText true whole fraction := by
  have hdigits {ds : List Char} (h : ∀ c ∈ ds, isDigit c) : 'e' ∉ ds := fun he => absurd (h 'e' he) (by decide)
  have hwhole := hdigits htidy.plain.all.2
  have hfraction := hdigits htidy.digits
  have hsign : 'e' ∉ sign negative := by cases negative <;> decide
  rw [pointedText]
  split
  · exact ⟨by simp, by simp [hwhole, hsign]⟩
  · exact ⟨by simp, by simp [hwhole, hsign, hfraction]⟩

theorem e_mem_of_exponential (h : Exponential x negative cs) : 'e' ∈ cs := by
  cases h
  simp

/-- Zero, and numbers that are neither very small nor very large. -/
def Moderate (v : ℚ) : Prop := v = 0 ∨ 10 ^ (-4 : ℤ) ≤ v ∧ v < 10 ^ (16 : ℤ)

/-- Whether an exponent is written depends on the size of the number. -/
theorem text_form (hview : view x = .finite negative m e) :
    (('.' ∈ (text x).toList ∧ 'e' ∉ (text x).toList) ↔ Moderate (magnitude m e)) ∧
    (¬ Moderate (magnitude m e) → Exponential x negative (text x).toList) := by
  have hc := canonical_of_view hview
  rw [text_eq_layout, layout.text_eq hview, String.toList_ofList]
  obtain rfl | hm := Nat.eq_zero_or_pos m
  · have hzero : magnitude 0 e = 0 := by rw [magnitude, Nat.cast_zero, zero_mul]
    have hpointed := pointed_of_tidy plain_zero.tidy negative
    exact ⟨iff_of_true hpointed (.inl hzero), fun h => absurd (.inl hzero) h⟩
  have hne : magnitude m e ≠ 0 := (mul_pos (mod_cast hm) (zpow_pos two_pos e)).ne'
  rw [Layout.unsigned, if_neg hm.ne', Moderate, or_iff_right hne, ← positional_iff hc hm]
  cases hplace : layout.positional (Layout.leading (shortest layout.tie m e)) with
  | true =>
    obtain ⟨whole, fraction, htidy, -, htext⟩ :=
      layout.magnitude_positional (shortest_identifies layout.tie hm e).last hplace
    rw [htext]
    have hpointed := pointed_of_tidy htidy negative
    exact ⟨iff_of_true hpointed rfl, fun h => absurd rfl h⟩
  | false =>
    rw [layout.magnitude_exponential hplace]
    have hform := exponential_of_view hview hm (Layout.leading (shortest layout.tie m e))
    exact ⟨iff_of_false (fun h => h.2 (e_mem_of_exponential hform)) Bool.false_ne_true, fun _ => hform⟩

/-- What is written for a double is read as the double. -/
theorem readFloat?_text (h : view x ≠ .nan) : readFloat? (text x).toList = some x := by
  rw [text_eq_layout]
  cases hview : view x with
  | nan => exact absurd hview h
  | finite negative m e => exact layout.readFloat?_text hview
  | infinite negative =>
    rw [eq_infinity_of_view hview, Layout.text]
    have hinfinite : view (infinity negative) = .infinite negative := by cases negative <;> decide +kernel
    simp only [hinfinite]
    cases negative <;> rfl

/-- Nothing is cut from what is written for a double, and it is read as some double, NaN included. -/
theorem exists_read (x : Float) : ∃ y, readFloat? (Text.trim (text x).toList) = some y := by
  rw [text_eq_layout]
  cases hview : view x with
  | nan =>
    rw [Layout.text, hview]
    exact ⟨_, rfl⟩
  | infinite negative =>
    rw [Layout.text, hview]
    cases negative <;> exact ⟨_, rfl⟩
  | finite negative m e =>
    have hread := layout.readFloat?_text hview
    have hnumeric := (layout.unsigned_readAs (canonical_of_view hview)).numeric
    rw [layout.text_eq hview, String.toList_ofList] at *
    rw [Text.trim_numeric hnumeric]
    exact ⟨x, hread⟩

theorem text_ne_error (x : Float) : text x ≠ Diagnostic.evaluationDisplay := by
  intro h
  obtain ⟨y, hy⟩ := exists_read x
  have hnone : readFloat? (Text.trim Diagnostic.evaluationDisplay.toList) = none := rfl
  rw [h, hnone] at hy
  cases hy

/-- The text of a double that is no NaN is read as the double, bit for bit. It has a point and no exponent for zero and
for numbers from a ten-thousandth up to sixteen zeros, and all other finite doubles are written in exponent form. What
the key shows, unless it is the error, can be taken to hundredths again. -/
theorem hundredths_read_back :
    (∀ x : Float, view x ≠ .nan → readFloat? (text x).toList = some x) ∧
    (∀ x negative m e, view x = .finite negative m e →
      (('.' ∈ (text x).toList ∧ 'e' ∉ (text x).toList) ↔ Moderate (magnitude m e)) ∧
      (¬ Moderate (magnitude m e) → Exponential x negative (text x).toList)) ∧
    ∀ shown, percentage shown = Diagnostic.evaluationDisplay ∨
      percentage (percentage shown) ≠ Diagnostic.evaluationDisplay := by
  refine ⟨fun x => readFloat?_text, fun x negative m e => text_form, fun shown => ?_⟩
  unfold percentage
  split
  · next x _ =>
    obtain ⟨y, hy⟩ := exists_read (x / 100.0)
    rw [hy]
    exact .inr (text_ne_error _)
  · exact .inl rfl

/-- The least positive double is read from its exponent form, whatever its sign. -/
theorem least_read_back : ∃ x, view x = .finite true 1 leastExponent ∧ readFloat? (text x).toList = some x ∧
    Exponential x true (text x).toList := by
  have hview : view (pack true 1 leastExponent) = .finite true 1 leastExponent :=
    view_pack true ⟨by decide, le_rfl, by decide, fun h => absurd h (lt_irrefl _)⟩
  have hsmall : ¬ Moderate (magnitude 1 leastExponent) := by
    have hlt : magnitude 1 leastExponent < 10 ^ (-4 : ℤ) := by
      calc magnitude 1 leastExponent ≤ 2 ^ (-14 : ℤ) := by
            rw [magnitude, Nat.cast_one, one_mul]
            exact zpow_le_zpow_right₀ one_le_two (by decide)
        _ < 10 ^ (-4 : ℤ) := by norm_num
    rintro (hzero | ⟨hle, -⟩)
    · exact absurd hzero (mul_pos (by norm_num) (zpow_pos two_pos _)).ne'
    · exact not_le.mpr hlt hle
  obtain ⟨hread, hform, -⟩ := hundredths_read_back
  exact ⟨_, hview, hread _ (by rw [hview]; exact View.noConfusion), (hform _ _ _ _ hview).2 hsmall⟩

example : percentage " -1e-3" = "-1e-05" := by decide +kernel

end Keypad
end Reckoner
