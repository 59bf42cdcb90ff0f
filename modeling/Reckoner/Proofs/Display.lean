import Reckoner.Display
import Reckoner.Proofs.Decimal.Fixed

/-! The texts that are shown for doubles: an optional sign and a tidy decimal. Read back, the decimal is a
double that is shown in the same way. -/
namespace Reckoner.Display
open Decimal Binary64

variable {whole fraction cs : List Char} {m m' count k places : ℕ} {e e' : ℤ} {negative : Bool} {x : Float}
  {d : String}

/-- The sign before a number. -/
def sign (negative : Bool) : List Char := if negative then ['-'] else []

/-- A number with a sign and a point. -/
def written (negative : Bool) (whole fraction : List Char) : String :=
  String.ofList (sign negative ++ positional whole fraction)

theorem dropWhile_eq_self {a : Char} (h : cs.head? ≠ some a) : cs.dropWhile (· = a) = cs := by
  cases cs with
  | nil => rfl
  | cons c cs => exact List.dropWhile_cons_of_neg (by simpa using h)

/-- Zeros behind a fraction are cut, and a point that stands there then. -/
theorem trim_pointed (hcs : cs.getLast? ≠ some '.') (hfraction : ∀ c ∈ fraction, isDigit c)
    (hlast : fraction.getLast? ≠ some '0') (k : ℕ) :
    trim (cs ++ '.' :: (fraction ++ zeros k)) = positional cs fraction := by
  have hzeros : (cs ++ '.' :: (fraction ++ zeros k)).reverse.dropWhile (· = '0') =
      (cs ++ '.' :: fraction).reverse := by
    have hsplit : (cs ++ '.' :: (fraction ++ zeros k)).reverse =
        zeros k ++ (cs ++ '.' :: fraction).reverse := by
      simp [zeros]
    rw [hsplit, List.dropWhile_append_of_pos (by simp [zeros])]
    apply dropWhile_eq_self
    rw [List.head?_reverse]
    obtain rfl | hne := eq_or_ne fraction []
    · simp
    · rw [List.getLast?_append_of_ne_nil _ (List.cons_ne_nil _ _), List.getLast?_cons_of_ne_nil hne]
      exact hlast
  rw [trim, hzeros]
  obtain rfl | hne := eq_or_ne fraction []
  · have hpoint : (cs ++ ['.']).reverse = '.' :: cs.reverse := by simp
    rw [hpoint, List.dropWhile_cons_of_pos (by simp), dropWhile_eq_self, List.reverse_reverse, positional_nil]
    rwa [List.head?_reverse]
  · rw [dropWhile_eq_self, List.reverse_reverse, positional_pointed cs hne]
    rw [List.head?_reverse, List.getLast?_append_of_ne_nil _ (List.cons_ne_nil _ _),
      List.getLast?_cons_of_ne_nil hne]
    exact fun hpoint => absurd (hfraction '.' (List.mem_of_getLast? hpoint)) (by decide)

theorem sign_append (negative : Bool) (cs : List Char) :
    (if negative then '-' :: cs else cs) = sign negative ++ cs := by
  cases negative <;> rfl

/-- A tidy decimal that reads back as a double. -/
structure Reads (whole fraction : List Char) (m : ℕ) (e : ℤ) : Prop where
  tidy : Tidy whole fraction
  toFloat : (⟨whole, fraction, 0⟩ : Numeral).toFloat false = pack false m e

theorem magnitude_plain (d : Scientific) :
    Layout.plain.magnitude d = placePoint false (digits d.digits) ((digits d.digits).length + d.exponent) := by
  have h : d.exponent + (digits d.digits).length - 1 + 1 = (digits d.digits).length + d.exponent := by ring
  simp only [Layout.magnitude, Layout.plain, if_true, h]

theorem text_of_view {l : Layout} (hview : view x = .finite negative m e) : l.text x =
    String.ofList (sign negative ++
      if m = 0 then placePoint l.pointZero ['0'] 1 else l.magnitude (shortest l.tie m e)) := by
  unfold Layout.text
  dsimp only
  split
  · next h => cases hview.symm.trans h
  · next h => cases hview.symm.trans h
  · next h =>
    cases hview.symm.trans h
    rw [if_pos rfl, sign_append]
  · next hne h =>
    cases hview.symm.trans h
    rw [if_neg hne, sign_append]

/-- A double with all of its digits is read back from them. -/
theorem plain_text (h : Canonical m e) : ∃ whole fraction, Reads whole fraction m e ∧
    ∀ negative, Layout.plain.text (pack negative m e) = written negative whole fraction := by
  obtain rfl | hm := Nat.eq_zero_or_pos m
  · have he : e = leastExponent := by
      by_contra hne
      have := h.normal (lt_of_le_of_ne h.least_le (Ne.symm hne))
      omega
    subst he
    refine ⟨['0'], [], ⟨plain_zero.tidy, ?_⟩, fun negative => ?_⟩
    · rw [Numeral.toFloat, Decimal.nearest]
      exact if_pos rfl
    rw [text_of_view (view_pack negative h), if_pos rfl]
    rfl
  · have hd := shortest_identifies Layout.plain.tie hm e
    obtain ⟨whole, fraction, htidy, htext, hvalue⟩ :=
      placePoint_tidy hd.last (shortest Layout.plain.tie m e).exponent
    have hcontains := hd.contains
    rw [← hvalue] at hcontains
    refine ⟨whole, fraction, ⟨htidy, ?_⟩, fun negative => ?_⟩
    · rw [toFloat_eq_nearest (.inr (hcontains.zpow_le h hm))]
      apply nearest_eq_pack_of_contains h hm (by positivity)
      rw [decimal] at hcontains
      exact_mod_cast hcontains
    · rw [text_of_view (view_pack negative h), if_neg hm.ne', magnitude_plain, htext, written]

theorem trim_written (htidy : Tidy whole fraction) (negative : Bool) (k : ℕ) :
    trim (sign negative ++ (whole ++ '.' :: (fraction ++ zeros k))) =
      sign negative ++ positional whole fraction := by
  have hlast : (sign negative ++ whole).getLast? ≠ some '.' := by
    rw [List.getLast?_append_of_ne_nil _ htidy.plain.all.1]
    exact fun hpoint => absurd (htidy.plain.all.2 '.' (List.mem_of_getLast? hpoint)) (by decide)
  rw [← List.append_assoc, trim_pointed hlast htidy.digits htidy.last, positional, positional, List.append_assoc]

theorem zpow_le_count (h : 0 < count) : (2 : ℚ) ^ (-34 : ℤ) ≤ count / 10 ^ Display.places := by
  calc (2 : ℚ) ^ (-34 : ℤ) ≤ 1 / 10 ^ Display.places := by
        rw [Display.places]
        norm_num
    _ ≤ count / 10 ^ Display.places := div_le_div_of_nonneg_right (mod_cast h) (by positivity)

theorem count_zero_or_le (count : ℕ) :
    (count / 10 ^ Display.places : ℚ) = 0 ∨ 2 ^ (-1075 : ℤ) ≤ (count / 10 ^ Display.places : ℚ) := by
  obtain rfl | hcount := Nat.eq_zero_or_pos count
  · exact .inl (by rw [Nat.cast_zero, zero_div])
  · exact .inr ((zpow_le_zpow_right₀ one_le_two (by decide)).trans (zpow_le_count hcount))

/-- What is shown of a double is read back as a double that is rounded to the same places. -/
theorem exists_shown (h : Canonical m e) (negative : Bool) : ∃ whole fraction m' e', Canonical m' e' ∧
    Reads whole fraction m' e' ∧ toPlaces m' e' Display.places = toPlaces m e Display.places ∧
    finite negative m e = written negative whole fraction := by
  have hten : 0 < 10 ^ Display.places := by decide
  obtain ⟨m', e', hclosest, hnearest⟩ := exists_closest (toPlaces m e Display.places) hten
    (toPlaces_le_greatest h Display.places)
  have hsame := toPlaces_closest h hclosest
  have hplaces : 0 < Display.places := by decide
  obtain ⟨whole, fraction, k, htidy, hfixed, hvalue⟩ := fixedDigits_tidy (toPlaces m e Display.places) hplaces
  have hshown := trim_written htidy negative k
  rw [← hfixed, ← sign_append] at hshown
  have hquotient : (value (whole ++ fraction) : ℚ) / (10 ^ fraction.length : ℕ) =
      toPlaces m e Display.places / (10 ^ Display.places : ℕ) := by
    rw [decimal] at hvalue
    exact_mod_cast hvalue
  by_cases hshort : (sign negative ++ positional whole fraction).length ≤ maxFixedLength
  · refine ⟨whole, fraction, m', e', hclosest.canonical, ⟨htidy, ?_⟩, hsame, ?_⟩
    · rw [toFloat_eq_nearest (hvalue ▸ count_zero_or_le _),
        nearest_congr false (by positivity) hten hquotient, hnearest]
    · simp only [finite, hshown, if_pos hshort, written]
  · obtain ⟨whole, fraction, hreads, htext⟩ := plain_text hclosest.canonical
    refine ⟨whole, fraction, m', e', hclosest.canonical, hreads, hsame, ?_⟩
    simp only [finite, hshown, if_neg hshort]
    rw [Nat.pow_eq, hnearest, htext]

/-- Only the digits with their places matter for what is shown. -/
theorem finite_congr (h : toPlaces m' e' Display.places = toPlaces m e Display.places) (negative : Bool) :
    finite negative m' e' = finite negative m e := by
  simp only [finite, h]

/-- What is shown for values: infinity, or a sign and a tidy decimal. -/
inductive Shown : String → Prop
  | infinity : Shown "Infinity"
  | number (negative : Bool) {whole fraction} (h : Tidy whole fraction) : Shown (written negative whole fraction)

theorem intText_eq_written (n : Int) : intText n = written (n < 0) (digits n.natAbs) [] := by
  rw [written, ← sign_append, intText, positional_nil]
  simp

theorem integer_eq_ok {n : Int} (h : integer n = .ok d) : d = intText n := by
  unfold integer at h
  dsimp only at h
  split at h
  · cases h
  · split at h
    · cases h
    · exact (Except.ok.inj h).symm

theorem float_of_view (hview : view x = .finite negative m e) : float x = .ok (finite negative m e) := by
  rw [float, hview]

/-- A text that is shown stands for a number, and if it has a point, for a double that is shown by it. -/
theorem number_written {v : Number} (h : number v = .ok d) : d = "Infinity" ∨
    ∃ negative whole fraction, d = written negative whole fraction ∧ Tidy whole fraction ∧
      (fraction ≠ [] → ∃ m e, Canonical m e ∧ Reads whole fraction m e ∧ finite negative m e = d) := by
  cases v with
  | int n =>
    rw [integer_eq_ok h, intText_eq_written]
    exact .inr ⟨_, _, _, rfl, (digits_plain _).tidy, fun hne => absurd rfl hne⟩
  | float x =>
    rw [number, float] at h
    split at h
    · cases h
    · cases h
      exact .inl rfl
    · next negative m e hview =>
      obtain ⟨whole, fraction, m', e', hcanonical, hreads, hsame, htext⟩ :=
        exists_shown (canonical_of_view hview) negative
      cases h
      exact .inr ⟨negative, whole, fraction, htext, hreads.tidy,
        fun _ => ⟨m', e', hcanonical, hreads, finite_congr hsame negative⟩⟩

theorem number_shown {v : Number} (h : number v = .ok d) : Shown d := by
  obtain rfl | ⟨negative, whole, fraction, rfl, htidy, -⟩ := number_written h
  · exact .infinity
  · exact .number negative htidy

end Reckoner.Display
