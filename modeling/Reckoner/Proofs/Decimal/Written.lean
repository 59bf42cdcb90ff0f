import Reckoner.Proofs.Decimal.Scientific
import Reckoner.Proofs.Display

/-! The text of a finite double is read as the double, in whichever layout it is written. -/
namespace Reckoner.Decimal
open Binary64 Display

variable {w ds whole fraction r : List Char} {mark c : Char} {m n : ℕ} {e k x : ℤ} {l : Layout} {f : Float}
  {negative : Bool} {d : Scientific}

theorem exponentOf_plain (hmark : mark = 'e' ∨ mark = 'E') (h : Digits ds) : exponentOf (mark :: ds) = value ds := by
  obtain ⟨d, rest, rfl, hd⟩ := h.exists_cons
  have htake : (d :: rest).takeWhile isDigit = d :: rest := List.takeWhile_eq_self_iff.mpr h.2
  have hplus : d ≠ '+' := fun hs => not_isDigit_sign (.inl hs) hd
  have hminus : d ≠ '-' := fun hs => not_isDigit_sign (.inr hs) hd
  simp [exponentOf, exponent?, hmark, hplus, hminus, htake]

theorem exponentOf_signed (hmark : mark = 'e' ∨ mark = 'E') (hc : c = '+' ∨ c = '-') (h : Digits ds) :
    exponentOf (mark :: c :: ds) = if c = '-' then -(value ds : ℤ) else value ds := by
  have htake : ds.takeWhile isDigit = ds := List.takeWhile_eq_self_iff.mpr h.2
  simp [exponentOf, exponent?, hmark, hc, htake, h.1]

/-- A minus sign before a numeral is read as the sign of its double. -/
theorem readFloat?_signed (h : Numeric w) (negative : Bool) :
    readFloat? (sign negative ++ w) = some ((Numeral.scan w).2.toFloat negative) := by
  cases negative with
  | false => exact readFloat?_numeric h
  | true =>
    obtain ⟨c, rest, rfl, hstarts⟩ := h.starts
    obtain ⟨-, hhigh⟩ := head_lt (hstarts.imp_right And.left)
    have hspec := (Numeral.scan_spec hstarts).2
    have hsign : sign true ++ c :: rest = '-' :: c :: rest := rfl
    simp [hsign, readFloat?, not_special hhigh, Numeral.scan_eq_self h, hspec]

/-- A numeral that is read as a double, with either sign. -/
structure ReadAs (w : List Char) (m : ℕ) (e : ℤ) : Prop where
  numeric : Numeric w
  toFloat : ∀ negative, (Numeral.scan w).2.toFloat negative = pack negative m e

namespace ReadAs

theorem readFloat? (h : ReadAs w m e) (negative : Bool) :
    Decimal.readFloat? (sign negative ++ w) = some (pack negative m e) := by
  rw [readFloat?_signed h.numeric, h.toFloat]

/-- The digits of a numeral and its exponent tell in which interval it lies. -/
theorem of_scan (hc : Canonical m e) (hm : 0 < m) (hnumeric : Numeric w)
    (hscan : (Numeral.scan w).2 = ⟨whole, fraction, x⟩)
    (h : (Interval.around m e).Contains (value (whole ++ fraction) * 10 ^ (x - fraction.length))) :
    ReadAs w m e where
  numeric := hnumeric
  toFloat negative := by
    rw [hscan]
    exact nearest_of_contains hc hm h negative

theorem of_scan_zero (hnumeric : Numeric w) (hscan : (Numeral.scan w).2 = ⟨whole, fraction, x⟩)
    (h : value (whole ++ fraction) = 0) : ReadAs w 0 leastExponent where
  numeric := hnumeric
  toFloat negative := by
    rw [hscan]
    exact if_pos h

end ReadAs

/-- A point between the digits and in front of an exponent. -/
theorem numeral_pointed (h : Digits (whole ++ fraction)) (hr : Scale r) :
    Numeric (whole ++ '.' :: (fraction ++ r)) ∧
      (Numeral.scan (whole ++ '.' :: (fraction ++ r))).2 = ⟨whole, fraction, exponentOf r⟩ := by
  obtain ⟨hwhole, hfraction⟩ := List.forall_mem_append.mp h.2
  refine ⟨by simpa using Numeric.intro (.pointed h) hr, ?_⟩
  rw [Numeral.scan_pointed hwhole hfraction hr.digitsEnd]

theorem numeral_whole (h : Digits whole) (hr : Scale r) :
    Numeric (whole ++ r) ∧ (Numeral.scan (whole ++ r)).2 = ⟨whole, [], exponentOf r⟩ := by
  have hpoint : r.head? ≠ some '.' := by
    cases hr with
    | none => simp
    | plain hmark | signed hmark => obtain rfl | rfl := hmark <;> simp
  exact ⟨.intro (.whole h) hr, by rw [Numeral.scan_whole h.2 hr.digitsEnd hpoint]⟩

/-- Digits with a point where there is a fraction, in front of an exponent. -/
theorem numeral_positional (h : Digits whole) (hfraction : ∀ c ∈ fraction, isDigit c) (hr : Scale r) :
    Numeric (positional whole fraction ++ r) ∧
      (Numeral.scan (positional whole fraction ++ r)).2 = ⟨whole, fraction, exponentOf r⟩ := by
  obtain rfl | hne := eq_or_ne fraction []
  · rw [positional_nil]
    exact numeral_whole h hr
  · rw [positional_pointed whole hne, List.append_assoc, List.cons_append]
    exact numeral_pointed ⟨List.append_ne_nil_of_left_ne_nil h.1 _, List.forall_mem_append.mpr ⟨h.2, hfraction⟩⟩ hr

theorem decimal_eq (whole fraction : List Char) :
    decimal whole fraction = value (whole ++ fraction) * 10 ^ (0 - fraction.length : ℤ) := by
  rw [decimal, zero_sub, zpow_neg, zpow_natCast, div_eq_mul_inv]

/-- Whole numbers get a zero behind a point where a layout asks for it. -/
def pointedText (pointZero : Bool) (whole fraction : List Char) : List Char :=
  if fraction = [] then whole ++ (if pointZero then ['.', '0'] else []) else whole ++ '.' :: fraction

theorem pointedText_false (whole fraction : List Char) : pointedText false whole fraction = positional whole fraction := by
  unfold pointedText positional
  split <;> simp

/-- The point is not moved by the zero behind it. -/
theorem placePoint_pointZero (hds : Digits ds) (htidy : Tidy whole fraction)
    (h : placePoint false ds k = positional whole fraction) (pointZero : Bool) :
    placePoint pointZero ds k = pointedText pointZero whole fraction := by
  have hall : '.' ∈ positional whole fraction → fraction ≠ [] := by
    rintro hpoint rfl
    rw [positional_nil] at hpoint
    exact absurd (htidy.plain.all.2 '.' hpoint) (by decide)
  have hfraction (hne : fraction ≠ []) : pointedText pointZero whole fraction = positional whole fraction := by
    rw [pointedText, if_neg hne, positional_pointed whole hne]
  unfold placePoint at *
  dsimp only at *
  split at h
  · next hle =>
    rw [if_pos hle]
    have hnil : fraction = [] := by
      by_contra hne
      rw [positional_pointed whole hne] at h
      have hpoint : '.' ∈ ds ++ zeros (k - ds.length).toNat ++ [] := h ▸ by simp
      rw [List.append_nil] at hpoint
      have hdigit := List.forall_mem_append.mpr ⟨hds.2, isDigit_zeros (k - ds.length).toNat⟩ '.' hpoint
      exact absurd hdigit (by decide)
    subst hnil
    rw [if_neg Bool.false_ne_true, List.append_nil, positional_nil] at h
    rw [pointedText, if_pos rfl, h]
  · next hle =>
    rw [if_neg hle, h, hfraction (hall (h ▸ by split <;> simp))]

theorem pointedText_readAs (hc : Canonical m e) (hm : 0 < m) (htidy : Tidy whole fraction)
    (h : (Interval.around m e).Contains (decimal whole fraction)) (pointZero : Bool) :
    ReadAs (pointedText pointZero whole fraction) m e := by
  have hdigits := htidy.plain.all
  by_cases hzero : fraction = [] ∧ pointZero = true
  · obtain ⟨rfl, rfl⟩ := hzero
    obtain ⟨hnumeric, hscan⟩ := numeral_pointed (hdigits.snoc (c := '0') (by decide)) .none
    refine .of_scan hc hm hnumeric hscan ?_
    rw [decimal_nil] at h
    rw [value_snoc]
    have hsame : ((10 * value whole + ('0'.toNat - '0'.toNat) : ℕ) : ℚ) * 10 ^ (exponentOf [] - (['0'].length : ℤ)) =
        value whole := by
      have hexponent : exponentOf [] - (['0'].length : ℤ) = -1 := rfl
      rw [hexponent, Nat.sub_self, Nat.add_zero]
      push_cast
      norm_num
      ring
    rwa [hsame]
  · have htext : pointedText pointZero whole fraction = positional whole fraction := by
      cases pointZero with
      | false => exact pointedText_false whole fraction
      | true =>
        have hne : fraction ≠ [] := fun hnil => hzero ⟨hnil, rfl⟩
        rw [pointedText, if_neg hne, positional_pointed whole hne]
    obtain ⟨hnumeric, hscan⟩ := numeral_positional hdigits htidy.digits .none
    rw [List.append_nil] at hnumeric hscan
    rw [htext]
    exact .of_scan hc hm hnumeric hscan (decimal_eq whole fraction ▸ h)

namespace Layout

/-- The sign of an exponent. -/
def exponentSign (l : Layout) (x : ℤ) : List Char := if x < 0 then ['-'] else if l.plus then ['+'] else []

/-- The digits of an exponent, with zeros in front as far as a layout asks for them. -/
def exponentDigits (l : Layout) (x : ℤ) : List Char :=
  zeros (l.exponentWidth - (digits x.natAbs).length) ++ digits x.natAbs

theorem exponentDigits_digits (l : Layout) (x : ℤ) : Digits (l.exponentDigits x) :=
  ⟨List.append_ne_nil_of_right_ne_nil _ (digits_plain _).all.1,
    List.forall_mem_append.mpr ⟨isDigit_zeros _, (digits_plain _).all.2⟩⟩

theorem value_exponentDigits (l : Layout) (x : ℤ) : value (l.exponentDigits x) = x.natAbs := by
  rw [exponentDigits, value_append, zeros, value_replicate_zero, value_digits, zero_mul, zero_add]

theorem exponential_eq (l : Layout) (ds : List Char) (x : ℤ) : l.exponential ds x =
    Decimal.positional (ds.take 1) (ds.drop 1) ++ 'e' :: (l.exponentSign x ++ l.exponentDigits x) := by
  simp only [exponential, Decimal.positional, exponentSign, exponentDigits, List.isEmpty_iff, List.append_assoc,
    List.cons_append]

/-- An exponent is read whether it has a sign or not. -/
theorem scale_exponent (l : Layout) (x : ℤ) : Scale ('e' :: (l.exponentSign x ++ l.exponentDigits x)) ∧
    exponentOf ('e' :: (l.exponentSign x ++ l.exponentDigits x)) = x := by
  have hdigits := l.exponentDigits_digits x
  have hvalue := l.value_exponentDigits x
  have hmark : 'e' = 'e' ∨ 'e' = 'E' := .inl rfl
  unfold exponentSign
  split
  · refine ⟨.signed hmark (.inr rfl) hdigits, (exponentOf_signed hmark (.inr rfl) hdigits).trans ?_⟩
    rw [if_pos rfl, hvalue]
    omega
  split
  · refine ⟨.signed hmark (.inl rfl) hdigits, (exponentOf_signed hmark (.inl rfl) hdigits).trans ?_⟩
    rw [if_neg (by decide), hvalue]
    omega
  · refine ⟨.plain hmark hdigits, (exponentOf_plain hmark hdigits).trans ?_⟩
    rw [hvalue]
    omega

theorem exponential_readAs (l : Layout) (hc : Canonical m e) (hm : 0 < m)
    (h : (Interval.around m e).Contains (n * 10 ^ k)) :
    ReadAs (l.exponential (digits n) (k + (digits n).length - 1)) m e := by
  have hall := (digits_plain n).all
  have hvalue := value_digits n
  generalize digits n = ds at *
  obtain ⟨hscale, hexponent⟩ := l.scale_exponent (k + ds.length - 1)
  obtain ⟨d, rest, rfl, hd⟩ := hall.exists_cons
  obtain ⟨hnumeric, hscan⟩ := numeral_positional ⟨List.cons_ne_nil d [], List.forall_mem_singleton.mpr hd⟩
    (fun c hc => hall.2 c (List.mem_cons_of_mem d hc)) hscale
  rw [hexponent] at hscan
  rw [exponential_eq]
  refine .of_scan hc hm hnumeric hscan ?_
  rw [List.singleton_append, hvalue, List.length_cons]
  push_cast
  rwa [show k + (rest.length + 1) - 1 - (rest.length : ℤ) = k by ring]

/-- The text of a positive double or of zero. -/
def unsigned (l : Layout) (m : ℕ) (e : ℤ) : List Char :=
  if m = 0 then placePoint l.pointZero ['0'] 1 else l.magnitude (shortest l.tie m e)

theorem text_eq (l : Layout) (h : view f = .finite negative m e) :
    l.text f = String.ofList (sign negative ++ l.unsigned m e) := text_of_view h

theorem zero_readAs (l : Layout) : ReadAs (placePoint l.pointZero ['0'] 1) 0 leastExponent := by
  have hzero := plain_zero.all
  cases hpoint : l.pointZero with
  | false =>
    obtain ⟨hnumeric, hscan⟩ := numeral_whole hzero .none
    exact .of_scan_zero hnumeric hscan rfl
  | true =>
    obtain ⟨hnumeric, hscan⟩ := numeral_pointed (hzero.snoc (c := '0') (by decide)) .none
    exact .of_scan_zero hnumeric hscan rfl

/-- The leading power of ten of a decimal. -/
def leading (d : Scientific) : ℤ := d.exponent + (digits d.digits).length - 1

theorem magnitude_positional (l : Layout) (hlast : d.digits % 10 ≠ 0) (h : l.positional (leading d) = true) :
    ∃ whole fraction, Tidy whole fraction ∧ decimal whole fraction = d.digits * 10 ^ d.exponent ∧
      l.magnitude d = pointedText l.pointZero whole fraction := by
  obtain ⟨whole, fraction, htidy, htext, hvalue⟩ := placePoint_tidy hlast d.exponent
  have hplace : d.exponent + (digits d.digits).length - 1 + 1 = (digits d.digits).length + d.exponent := by ring
  refine ⟨whole, fraction, htidy, hvalue, ?_⟩
  rw [leading] at h
  simp only [magnitude, h, if_true, hplace, placePoint_pointZero (digits_plain _).all htidy htext]

theorem magnitude_exponential (l : Layout) (h : l.positional (leading d) = false) :
    l.magnitude d = l.exponential (digits d.digits) (leading d) := by
  rw [leading] at *
  simp only [magnitude, h, if_false, Bool.false_eq_true]

/-- What a layout writes for a double is read as the double. -/
theorem unsigned_readAs (l : Layout) (hc : Canonical m e) : ReadAs (l.unsigned m e) m e := by
  obtain rfl | hm := Nat.eq_zero_or_pos m
  · rw [hc.exponent_of_zero]
    exact l.zero_readAs
  have hd := shortest_identifies l.tie hm e
  rw [unsigned, if_neg hm.ne']
  cases hplace : l.positional (leading (shortest l.tie m e)) with
  | true =>
    obtain ⟨whole, fraction, htidy, hvalue, htext⟩ := l.magnitude_positional hd.last hplace
    rw [htext]
    exact pointedText_readAs hc hm htidy (hvalue ▸ hd.contains) _
  | false =>
    rw [l.magnitude_exponential hplace]
    exact l.exponential_readAs hc hm hd.contains

/-- Writing a finite double and reading it again gives the double, the sign of zero included. -/
theorem readFloat?_text (l : Layout) (h : view f = .finite negative m e) :
    readFloat? (l.text f).toList = some f := by
  rw [l.text_eq h, String.toList_ofList, (l.unsigned_readAs (canonical_of_view h)).readFloat?, eq_pack_of_view h]

end Layout
end Reckoner.Decimal
