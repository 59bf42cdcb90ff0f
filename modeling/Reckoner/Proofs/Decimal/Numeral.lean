import Reckoner.Decimal.Numeral
import Mathlib.Tactic.Common
import Mathlib.Data.List.TakeWhile

/-! The spellings of numerals, and that the longest one at the head of a text is found and has a value. -/
namespace Reckoner.Decimal

/-- Digits, at least one. -/
def Digits (w : List Char) : Prop := w ≠ [] ∧ ∀ c ∈ w, isDigit c

/-- Digits, or digits around a point, at least one in all. -/
inductive Mantissa : List Char → Prop
  | whole {ds} (h : Digits ds) : Mantissa ds
  | pointed {whole fraction} (h : Digits (whole ++ fraction)) : Mantissa (whole ++ '.' :: fraction)

/-- An exponent with its mark, or nothing. -/
inductive Scale : List Char → Prop
  | none : Scale []
  | plain {mark ds} (hmark : mark = 'e' ∨ mark = 'E') (h : Digits ds) : Scale (mark :: ds)
  | signed {mark sign ds} (hmark : mark = 'e' ∨ mark = 'E') (hsign : sign = '+' ∨ sign = '-')
      (h : Digits ds) : Scale (mark :: sign :: ds)

inductive Numeric : List Char → Prop
  | intro {w x} (h : Mantissa w) (hx : Scale x) : Numeric (w ++ x)

theorem Digits.numeric {w : List Char} (h : Digits w) : Numeric w := by
  simpa using Numeric.intro (.whole h) .none

/-- A text that does not go on with a digit. -/
def DigitsEnd (r : List Char) : Prop := ∀ c ∈ r.head?, ¬ isDigit c

variable {ds ws fs r w x y cs : List Char} {c mark sign : Char}

theorem not_isDigit_mark (hmark : mark = 'e' ∨ mark = 'E') : ¬ isDigit mark := by
  obtain rfl | rfl := hmark <;> decide

theorem not_isDigit_sign (hsign : sign = '+' ∨ sign = '-') : ¬ isDigit sign := by
  obtain rfl | rfl := hsign <;> decide

theorem DigitsEnd.cons (hc : ¬ isDigit c) : DigitsEnd (c :: r) := by
  simpa [DigitsEnd] using hc

theorem Scale.digitsEnd (h : Scale x) : DigitsEnd x := by
  cases h with
  | none => simp [DigitsEnd]
  | plain hmark | signed hmark => exact .cons (not_isDigit_mark hmark)

/-- A run of characters of a kind, before a text that does not go on with one, is found whole. -/
theorem takeWhile_run {P : Char → Bool} (hds : ∀ c ∈ ds, P c) (hr : ∀ c ∈ r.head?, ¬ P c) :
    (ds ++ r).takeWhile P = ds := by
  rw [List.takeWhile_append_of_pos hds]
  cases r with
  | nil => simp
  | cons c r => simp [hr c rfl]

theorem dropWhile_run {P : Char → Bool} (hds : ∀ c ∈ ds, P c) (hr : ∀ c ∈ r.head?, ¬ P c) :
    (ds ++ r).dropWhile P = r := by
  rw [List.dropWhile_append_of_pos hds]
  cases r with
  | nil => simp
  | cons c r => simp [hr c rfl]

theorem DigitsEnd.takeWhile (h : DigitsEnd r) (hds : ∀ c ∈ ds, isDigit c) :
    (ds ++ r).takeWhile isDigit = ds := takeWhile_run hds h

theorem DigitsEnd.dropWhile (h : DigitsEnd r) (hds : ∀ c ∈ ds, isDigit c) :
    (ds ++ r).dropWhile isDigit = r := dropWhile_run hds h

/-- Any text is a run of digits and a text that does not go on with one. -/
theorem exists_digits (cs : List Char) :
    ∃ ds r, cs = ds ++ r ∧ (∀ c ∈ ds, isDigit c) ∧ DigitsEnd r := by
  refine ⟨cs.takeWhile isDigit, cs.dropWhile isDigit, List.takeWhile_append_dropWhile.symm,
    fun c hc => List.mem_takeWhile_imp hc, fun c hc => ?_⟩
  have h := List.head?_dropWhile_not isDigit cs
  cases hd : (cs.dropWhile isDigit).head? <;> simp_all

/-- Digits at the head of a text are among its first digits, and are all of them if a text without
digits at its head comes next. -/
theorem digits_prefix (hr : DigitsEnd r) (hds : ∀ c ∈ ds, isDigit c) (hy : DigitsEnd y)
    (hws : ∀ c ∈ ws, isDigit c) (h : ws ++ y <+: ds ++ r) : (y = [] ∧ ws <+: ds) ∨ (ws = ds ∧ y <+: r) := by
  obtain ⟨z, hz⟩ := h
  rw [List.append_assoc] at hz
  obtain ⟨more, rfl, hmore⟩ | ⟨left, rfl, hleft⟩ := List.append_eq_append_iff.mp hz
  · cases y with
    | nil => exact .inl ⟨rfl, List.prefix_append _ _⟩
    | cons c y =>
      cases more with
      | nil => exact .inr ⟨by simp, ⟨z, by simpa using hmore⟩⟩
      | cons d more =>
        obtain ⟨rfl, -⟩ := List.cons.inj hmore
        exact absurd (hds c (by simp)) (hy c (by simp))
  · cases left with
    | nil => exact .inr ⟨by simp, ⟨z, by simpa using hleft.symm⟩⟩
    | cons d left =>
      rw [hleft] at hr
      exact absurd (hws d (by simp)) (hr d (by simp))

/-- The characters of the exponent at the head of a text. -/
def scaleOf (r : List Char) : List Char := ((exponent? r).map Prod.fst).getD []

/-- The exponent at the head of a text. -/
def exponentOf (r : List Char) : Int := ((exponent? r).map Prod.snd).getD 0

theorem scaleOf_plain (hmark : mark = 'e' ∨ mark = 'E') (h : Digits ds) (hr : DigitsEnd r) :
    scaleOf (mark :: (ds ++ r)) = mark :: ds := by
  obtain ⟨hne, hds⟩ := h
  have htake := hr.takeWhile hds
  cases ds with
  | nil => exact absurd rfl hne
  | cons d ds =>
    have hd : ¬ (d = '+' ∨ d = '-') := fun hs => not_isDigit_sign hs (hds d (by simp))
    simp only [List.cons_append] at htake
    simp [scaleOf, exponent?, hmark, hd, htake]

theorem scaleOf_signed (hmark : mark = 'e' ∨ mark = 'E') (hsign : sign = '+' ∨ sign = '-')
    (h : Digits ds) (hr : DigitsEnd r) :
    scaleOf (mark :: sign :: (ds ++ r)) = mark :: sign :: ds := by
  simp [scaleOf, exponent?, hmark, hsign, hr.takeWhile h.2, h.1]

theorem scaleOf_spec (r : List Char) : Scale (scaleOf r) ∧ scaleOf r <+: r := by
  have hnone : Scale [] ∧ [] <+: r := ⟨.none, List.nil_prefix⟩
  match r with
  | [] => exact hnone
  | [mark] => simpa [scaleOf, exponent?] using Scale.none
  | mark :: sign :: rest =>
    by_cases hmark : mark = 'e' ∨ mark = 'E'
    · by_cases hsign : sign = '+' ∨ sign = '-'
      · obtain ⟨ds, r, rfl, hds, hr⟩ := exists_digits rest
        by_cases hne : ds = []
        · have htake := hr.takeWhile hds
          subst hne
          rw [List.nil_append] at htake
          simpa [scaleOf, exponent?, if_pos hmark, if_pos hsign, htake] using Scale.none
        · rw [scaleOf_signed hmark hsign ⟨hne, hds⟩ hr]
          exact ⟨.signed hmark hsign ⟨hne, hds⟩, ⟨r, by simp⟩⟩
      · obtain ⟨ds, r, hrest, hds, hr⟩ := exists_digits (sign :: rest)
        by_cases hne : ds = []
        · have htake := hr.takeWhile hds
          rw [← hrest, hne] at htake
          simpa [scaleOf, exponent?, if_pos hmark, if_neg hsign, htake] using Scale.none
        · rw [hrest, scaleOf_plain hmark ⟨hne, hds⟩ hr]
          exact ⟨.plain hmark ⟨hne, hds⟩, ⟨r, by simp⟩⟩
    · simpa [scaleOf, exponent?, hmark] using Scale.none

theorem Scale.length_le (h : Scale x) (hx : x <+: r) : x.length ≤ (scaleOf r).length := by
  obtain ⟨z, rfl⟩ := hx
  obtain ⟨zs, r, rfl, hzs, hr⟩ := exists_digits z
  cases h with
  | none => simp
  | @plain mark ds hmark h =>
    have hall : Digits (ds ++ zs) := ⟨by simp [h.1], List.forall_mem_append.mpr ⟨h.2, hzs⟩⟩
    have hs := scaleOf_plain hmark hall hr
    simp only [List.append_assoc] at hs
    simp [hs]
  | @signed mark sign ds hmark hsign h =>
    have hall : Digits (ds ++ zs) := ⟨by simp [h.1], List.forall_mem_append.mpr ⟨h.2, hzs⟩⟩
    have hs := scaleOf_signed hmark hsign hall hr
    simp only [List.append_assoc] at hs
    simp [hs]

namespace Numeral

theorem scan_whole (hds : ∀ c ∈ ds, isDigit c) (hr : DigitsEnd r) (hpoint : r.head? ≠ some '.') :
    scan (ds ++ r) = (ds ++ scaleOf r, ⟨ds, [], exponentOf r⟩) := by
  have hp : pointed r = ([], []) := by
    unfold pointed
    split
    · simp at hpoint
    · rfl
  rw [scan, hr.takeWhile hds, hr.dropWhile hds]
  simp only [hp, List.append_nil, List.drop_left, scaleOf, exponentOf]
  cases exponent? r <;> simp

theorem scan_pointed (hds : ∀ c ∈ ds, isDigit c) (hfs : ∀ c ∈ fs, isDigit c) (hr : DigitsEnd r) :
    scan (ds ++ '.' :: (fs ++ r)) = (ds ++ '.' :: (fs ++ scaleOf r), ⟨ds, fs, exponentOf r⟩) := by
  have hpoint : DigitsEnd ('.' :: (fs ++ r)) := .cons (by decide)
  have hdrop : (ds ++ '.' :: (fs ++ r)).drop (ds ++ ['.'] ++ fs).length = r := by
    rw [show ds ++ '.' :: (fs ++ r) = (ds ++ ['.'] ++ fs) ++ r by simp, List.drop_left]
  rw [scan, hpoint.takeWhile hds, hpoint.dropWhile hds]
  simp only [pointed, hr.takeWhile hfs, hdrop, scaleOf, exponentOf]
  cases exponent? r <;> simp

/-- Any text is a run of digits, perhaps a point with another run of digits, and some rest. -/
theorem exists_mantissa (cs : List Char) :
    (∃ ds r, cs = ds ++ r ∧ (∀ c ∈ ds, isDigit c) ∧ DigitsEnd r ∧ r.head? ≠ some '.') ∨
    ∃ ds fs r, cs = ds ++ '.' :: (fs ++ r) ∧ (∀ c ∈ ds, isDigit c) ∧ (∀ c ∈ fs, isDigit c) ∧
      DigitsEnd r := by
  obtain ⟨ds, r, rfl, hds, hr⟩ := exists_digits cs
  by_cases hpoint : r.head? = some '.'
  · obtain ⟨rest, rfl⟩ := List.head?_eq_some_iff.mp hpoint
    obtain ⟨fs, r, rfl, hfs, hr⟩ := exists_digits rest
    exact .inr ⟨ds, fs, r, rfl, hds, hfs, hr⟩
  · exact .inl ⟨ds, r, rfl, hds, hr, hpoint⟩

theorem scan_isPrefix (cs : List Char) : (scan cs).1 <+: cs := by
  obtain ⟨ds, r, rfl, hds, hr, hpoint⟩ | ⟨ds, fs, r, rfl, hds, hfs, hr⟩ := exists_mantissa cs
  · rw [scan_whole hds hr hpoint]
    exact (List.prefix_append_right_inj ds).mpr (scaleOf_spec r).2
  · rw [scan_pointed hds hfs hr]
    simpa [List.prefix_append_right_inj] using (scaleOf_spec r).2

/-- Whether a numeral starts with a character. -/
def Starts (c : Char) (rest : List Char) : Prop :=
  isDigit c ∨ c = '.' ∧ rest.head?.any isDigit

instance (c : Char) (rest : List Char) : Decidable (Starts c rest) :=
  inferInstanceAs (Decidable (_ ∨ _))

/-- A numeral that starts is found, with digits around its point. -/
theorem scan_spec {rest : List Char} (h : Starts c rest) :
    Numeric (scan (c :: rest)).1 ∧
      ((scan (c :: rest)).2.whole ≠ [] ∨ (scan (c :: rest)).2.fraction ≠ []) := by
  obtain ⟨ds, r, hcs, hds, hr, hpoint⟩ | ⟨ds, fs, r, hcs, hds, hfs, hr⟩ := exists_mantissa (c :: rest)
  · have hne : ds ≠ [] := by
      rintro rfl
      rw [List.nil_append] at hcs
      subst hcs
      obtain hc | ⟨rfl, -⟩ := h
      · exact hr c rfl hc
      · exact hpoint rfl
    rw [hcs, scan_whole hds hr hpoint]
    exact ⟨⟨.whole ⟨hne, hds⟩, (scaleOf_spec r).1⟩, .inl hne⟩
  · have hne : ds ++ fs ≠ [] := by
      intro hnil
      obtain ⟨rfl, rfl⟩ := List.append_eq_nil_iff.mp hnil
      obtain ⟨rfl, rfl⟩ := List.cons.inj hcs
      obtain hc | ⟨-, hd⟩ := h
      · exact absurd hc (by decide)
      · obtain ⟨d, hd, hdigit⟩ := (Option.any_eq_true _ _).mp hd
        exact hr d hd hdigit
    have hall : Digits (ds ++ fs) := ⟨hne, List.forall_mem_append.mpr ⟨hds, hfs⟩⟩
    have hnum := Numeric.intro (.pointed hall) (scaleOf_spec r).1
    rw [hcs, scan_pointed hds hfs hr]
    exact ⟨by simpa using hnum, by simpa [imp_iff_not_or] using hne⟩

theorem length_le_scan (h : Numeric w) (hw : w <+: cs) : w.length ≤ (scan cs).1.length := by
  obtain ⟨hm, hx⟩ := h
  cases hm with
  | whole hws =>
    obtain ⟨ds, r, rfl, hds, hr, hpoint⟩ | ⟨ds, fs, r, rfl, hds, hfs, hr⟩ := exists_mantissa cs
    · rw [scan_whole hds hr hpoint]
      obtain ⟨rfl, hle⟩ | ⟨rfl, hle⟩ := digits_prefix hr hds hx.digitsEnd hws.2 hw
      · have := hle.length_le
        simp
        omega
      · simpa using hx.length_le hle
    · rw [scan_pointed hds hfs hr]
      obtain ⟨rfl, hle⟩ | ⟨rfl, hle⟩ := digits_prefix (.cons (by decide)) hds hx.digitsEnd hws.2 hw
      · have := hle.length_le
        simp
        omega
      · cases hx with
        | none => simp
        | plain hmark | signed hmark =>
          obtain ⟨rfl, -⟩ := List.cons_prefix_cons.mp hle
          simp at hmark
  | pointed hws =>
    obtain ⟨hwhole, hfraction⟩ := List.forall_mem_append.mp hws.2
    rw [List.append_assoc, List.cons_append] at hw
    obtain ⟨ds, r, rfl, hds, hr, hpoint⟩ | ⟨ds, fs, r, rfl, hds, hfs, hr⟩ := exists_mantissa cs
    · obtain ⟨hnil, -⟩ | ⟨rfl, z, rfl⟩ := digits_prefix hr hds (.cons (by decide)) hwhole hw
      · cases hnil
      · simp at hpoint
    · rw [scan_pointed hds hfs hr]
      obtain ⟨hnil, -⟩ | ⟨rfl, hle⟩ := digits_prefix (.cons (by decide)) hds (.cons (by decide)) hwhole hw
      · cases hnil
      · obtain ⟨rfl, hf⟩ | ⟨rfl, hf⟩ :=
          digits_prefix hr hfs hx.digitsEnd hfraction (List.cons_prefix_cons.mp hle).2
        · have := hf.length_le
          simp
          omega
        · simpa using hx.length_le hf

end Numeral

theorem Digits.snoc (h : Digits ds) (hc : isDigit c) : Digits (ds ++ [c]) :=
  ⟨by simp, List.forall_mem_append.mpr ⟨h.2, by simpa using hc⟩⟩

theorem Numeric.snoc (h : Numeric w) (hc : isDigit c) : Numeric (w ++ [c]) := by
  obtain ⟨hm, hx⟩ := h
  cases hx with
  | none =>
    cases hm with
    | whole h => simpa using Numeric.intro (.whole (h.snoc hc)) .none
    | pointed h =>
      have := h.snoc hc
      rw [List.append_assoc] at this
      simpa using Numeric.intro (.pointed this) .none
  | plain hmark h => simpa using Numeric.intro hm (.plain hmark (h.snoc hc))
  | signed hmark hsign h => simpa using Numeric.intro hm (.signed hmark hsign (h.snoc hc))

theorem Digits.exists_cons (h : Digits ds) : ∃ d rest, ds = d :: rest ∧ isDigit d := by
  obtain ⟨d, rest, rfl⟩ := List.exists_cons_of_ne_nil h.1
  exact ⟨d, rest, rfl, h.2 d (by simp)⟩

theorem Numeric.starts (h : Numeric w) : ∃ c rest, w = c :: rest ∧ Numeral.Starts c rest := by
  obtain ⟨hm, hx⟩ := h
  cases hm with
  | whole h =>
    obtain ⟨d, rest, rfl, hd⟩ := h.exists_cons
    exact ⟨d, _, rfl, .inl hd⟩
  | @pointed whole fraction h =>
    cases whole with
    | nil =>
      obtain ⟨d, rest, rfl, hd⟩ := h.exists_cons
      exact ⟨'.', _, rfl, .inr ⟨rfl, by simpa using hd⟩⟩
    | cons d whole => exact ⟨d, _, rfl, .inl (h.2 d (by simp))⟩

theorem Numeral.scan_eq_self (h : Numeric w) : (scan w).1 = w :=
  (scan_isPrefix w).eq_of_length_le (length_le_scan h (List.prefix_refl w))

/-- The characters a numeral starts with are neither letters nor signs. -/
theorem head_lt (hc : isDigit c ∨ c = '.') : '-' < c ∧ c < 'A' := by
  obtain hc | rfl := hc
  · obtain ⟨h0, h9⟩ : '0' ≤ c ∧ c ≤ '9' := by simpa [isDigit] using hc
    exact ⟨UInt32.lt_of_lt_of_le (b := '0'.val) (by decide) h0,
      UInt32.lt_of_le_of_lt (b := '9'.val) h9 (by decide)⟩
  · decide

theorem not_special (hc : c < 'A') : special? (c :: cs) = none := by
  have hlower : c.toLower = c := dif_neg fun h => UInt32.not_le.mpr hc h.1
  have hi : c ≠ 'i' := by
    rintro rfl
    exact absurd hc (by decide)
  have hn : c ≠ 'n' := by
    rintro rfl
    exact absurd hc (by decide)
  simp [special?, hlower, hi, hn]

theorem readFloat?_numeric (h : Numeric w) :
    readFloat? w = some ((Numeral.scan w).2.toFloat false) := by
  obtain ⟨c, rest, rfl, hstarts⟩ := h.starts
  obtain ⟨hlow, hhigh⟩ := head_lt (hstarts.imp_right And.left)
  have hspec := (Numeral.scan_spec hstarts).2
  unfold readFloat?
  split
  next negative body heq =>
    split at heq
    · next hw =>
      obtain ⟨rfl, -⟩ := List.cons.inj hw
      exact absurd hlow (by decide)
    · next hw =>
      obtain ⟨rfl, -⟩ := List.cons.inj hw
      exact absurd hlow (by decide)
    · cases heq
      simp [not_special hhigh, Numeral.scan_eq_self h, hspec]

theorem readInt?_digits (h : Digits w) : readInt? (String.ofList w) = some (value w : Int) := by
  obtain ⟨c, rest, rfl, hc⟩ := h.exists_cons
  obtain ⟨hlow, -⟩ := head_lt (.inl hc)
  unfold readInt?
  rw [String.toList_ofList]
  dsimp only
  split
  · next hw =>
    obtain ⟨rfl, -⟩ := List.cons.inj hw
    exact absurd hlow (by decide)
  · next hw =>
    obtain ⟨rfl, -⟩ := List.cons.inj hw
    exact absurd hlow (by decide)
  · rw [if_pos ⟨h.1, List.all_eq_true.mpr h.2⟩]
    rfl

end Reckoner.Decimal
