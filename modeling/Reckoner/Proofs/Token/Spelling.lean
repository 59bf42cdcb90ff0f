import Reckoner.Token.Lexer
import Reckoner.Proofs.Decimal.Numeral
import Mathlib

/-! The spellings of lexemes, and that the longest one at the head of a text is scanned. -/
namespace Reckoner.Lexeme
open Decimal

/-- The operators and the punctuation. -/
def IsSymbol : Lexeme → Prop
  | .int _ | .float _ | .name _ | .reserved _ | .endOfInput => False
  | _ => True

/-- A letter or an underscore, and then letters, digits and underscores. -/
inductive Word : List Char → Prop
  | intro {c rest} (hc : startsWord c) (hrest : ∀ d ∈ rest, continuesWord d) : Word (c :: rest)

/-- What a spelling stands for. -/
inductive Spells : List Char → Lexeme → Prop
  | int {w} (h : Digits w) : Spells w (.int (value w))
  | float {w x} (h : Numeric w) (hpoint : ¬ Digits w) (hx : readFloat? w = some x) : Spells w (.float x)
  | reserved {w} (h : Word w) (hw : String.ofList w ∈ reservedWords) :
      Spells w (.reserved (String.ofList w))
  | name {w} (h : Word w) (hw : String.ofList w ∉ reservedWords) : Spells w (.name (String.ofList w))
  | symbol {l : Lexeme} (h : l.IsSymbol) : Spells l.text.toList l

/-- A spelling at the head of a text that no longer one starts. -/
structure Longest (w cs : List Char) : Prop where
  spelled : ∃ l, Spells w l
  isPrefix : w <+: cs
  length_le : ∀ w' l', Spells w' l' → w' <+: cs → w'.length ≤ w.length

/-- Integers have no zeros before another digit, and no number has a word directly after it. -/
structure Separate (w after : List Char) : Prop where
  zeros : Digits w → w.head? = some '0' → ∀ c ∈ w, c = '0'
  apart : Numeric w → ∀ c ∈ after.head?, ¬ startsWord c

/-- A lexeme with its spelling, and the text after it. -/
structure Lexes (w : List Char) (l : Lexeme) (after : List Char) : Prop where
  spells : Spells w l
  longest : Longest w (w ++ after)
  separate : Separate w after

variable {w w' cs rest after : List Char} {l l' : Lexeme} {c d : Char}

theorem Longest.unique (h : Longest w cs) (h' : Longest w' cs) : w = w' := by
  obtain ⟨l, hl⟩ := h.spelled
  obtain ⟨l', hl'⟩ := h'.spelled
  have hle := h'.length_le w l hl h.isPrefix
  have hle' := h.length_le w' l' hl' h'.isPrefix
  exact (List.prefix_of_prefix_length_le h.isPrefix h'.isPrefix hle).eq_of_length (by omega)

theorem startsNumber_iff : startsNumber c rest ↔ Numeral.Starts c rest := by
  simp [startsNumber, Numeral.Starts]

theorem ofSymbol?_eq_some_iff : ofSymbol? c = some l ↔ IsSymbol l ∧ l.text.toList = [c] := by
  constructor
  · intro h
    unfold ofSymbol? at h
    split at h <;> cases h <;> exact ⟨trivial, rfl⟩
  · rintro ⟨hl, hc⟩
    cases l <;> cases hl <;> cases hc <;> rfl

theorem ofPair?_eq_some_iff : ofPair? c d = some l ↔ IsSymbol l ∧ l.text.toList = [c, d] := by
  constructor
  · intro h
    unfold ofPair? at h
    split at h <;> cases h <;> exact ⟨trivial, rfl⟩
  · rintro ⟨hl, hc⟩
    cases l <;> cases hl <;> cases hc <;> rfl

theorem startsWord_gt (hc : startsWord c) : '9' < c := by
  simp only [startsWord, Char.isAlpha, Char.isUpper, Char.isLower, Bool.or_eq_true, Bool.and_eq_true,
    decide_eq_true_eq] at hc
  obtain (⟨h, -⟩ | ⟨h, -⟩) | rfl := hc
  · exact UInt32.lt_of_lt_of_le (b := 'A'.val) (by decide) h
  · exact UInt32.lt_of_lt_of_le (b := 'a'.val) (by decide) h
  · decide

theorem not_starts_of_startsWord (hc : startsWord c) (rest : List Char) : ¬ Numeral.Starts c rest := by
  have hgt := startsWord_gt hc
  rintro (hdigit | ⟨rfl, -⟩)
  · obtain ⟨-, h9⟩ : '0' ≤ c ∧ c ≤ '9' := by simpa [isDigit] using hdigit
    exact UInt32.not_le.mpr hgt h9
  · exact absurd hgt (by decide)

theorem IsSymbol.head (h : IsSymbol l) :
    ∃ c rest, l.text.toList = c :: rest ∧ ¬ Numeral.Starts c rest ∧ ¬ startsWord c ∧ ¬ isSpace c := by
  cases l <;> cases h <;> exact ⟨_, _, rfl, by decide, by decide, by decide⟩

/-- A character that is a lexeme of its own wherever it stands. -/
def Delimiter (c : Char) : Prop := c = '(' ∨ c = ')' ∨ c = ','

theorem not_delimiter_of_isDigit (h : isDigit c) : ¬ Delimiter c := by
  rintro (rfl | rfl | rfl) <;> exact absurd h (by decide)

theorem not_delimiter_of_continuesWord (h : continuesWord c) : ¬ Delimiter c := by
  rintro (rfl | rfl | rfl) <;> exact absurd h (by decide)

/-- What holds of digits, points, marks and signs holds of all characters of a numeral. -/
theorem forall_of_numeric {P : Char → Prop} (h : Numeric w) (hdigit : ∀ c, isDigit c → P c)
    (hother : ∀ c ∈ ['.', 'e', 'E', '+', '-'], P c) : ∀ c ∈ w, P c := by
  obtain ⟨hm, hx⟩ := h
  have hdigits {ds : List Char} (h : ∀ c ∈ ds, isDigit c) : ∀ c ∈ ds, P c := fun c hc => hdigit c (h c hc)
  have hmark {c : Char} (h : c = 'e' ∨ c = 'E') : P c := by
    obtain rfl | rfl := h <;> exact hother _ (by decide)
  have hsign {c : Char} (h : c = '+' ∨ c = '-') : P c := by
    obtain rfl | rfl := h <;> exact hother _ (by decide)
  refine List.forall_mem_append.mpr ⟨?_, ?_⟩
  · cases hm with
    | whole h => exact hdigits h.2
    | pointed h =>
      obtain ⟨hwhole, hfraction⟩ := List.forall_mem_append.mp h.2
      exact List.forall_mem_append.mpr
        ⟨hdigits hwhole, List.forall_mem_cons.mpr ⟨hother _ (by decide), hdigits hfraction⟩⟩
  · cases hx with
    | none => exact List.forall_mem_nil _
    | plain h h' => exact List.forall_mem_cons.mpr ⟨hmark h, hdigits h'.2⟩
    | signed h h' h'' =>
      exact List.forall_mem_cons.mpr ⟨hmark h, List.forall_mem_cons.mpr ⟨hsign h', hdigits h''.2⟩⟩

theorem numeric_not_delimiter (h : Numeric w) : ∀ c ∈ w, ¬ Delimiter c :=
  forall_of_numeric h (fun _ => not_delimiter_of_isDigit) (by simp [Delimiter])

theorem Word.not_delimiter (h : Word w) : ∀ c ∈ w, ¬ Delimiter c := by
  obtain ⟨hc, hrest⟩ := h
  refine List.forall_mem_cons.mpr ⟨?_, fun c hc => not_delimiter_of_continuesWord (hrest c hc)⟩
  rintro (rfl | rfl | rfl) <;> exact absurd hc (by decide)

theorem Spells.ne_nil (h : Spells w l) : w ≠ [] := by
  cases h with
  | int h => exact h.1
  | float h =>
    obtain ⟨c, rest, rfl, -⟩ := h.starts
    exact List.cons_ne_nil c rest
  | reserved h | name h =>
    cases h
    exact List.cons_ne_nil _ _
  | symbol h =>
    obtain ⟨c, rest, htext, -⟩ := h.head
    rw [htext]
    exact List.cons_ne_nil c rest

theorem Lexes.length_lt (h : Lexes w l after) : after.length < (w ++ after).length := by
  rw [List.length_append]
  exact Nat.lt_add_of_pos_left (List.length_pos_iff.mpr h.spells.ne_nil)

theorem Spells.eq_singleton (h : Spells w l) (hc : c ∈ w) (hd : Delimiter c) : w = [c] := by
  cases h with
  | int h => exact absurd hd (numeric_not_delimiter h.numeric c hc)
  | float h => exact absurd hd (numeric_not_delimiter h c hc)
  | reserved h | name h => exact absurd hd (h.not_delimiter c hc)
  | symbol h =>
    obtain rfl | rfl | rfl := hd <;> cases l <;> cases h <;> first | rfl | exact absurd hc (by decide)

theorem Spells.ne_endOfInput (h : Spells w l) : l ≠ .endOfInput := by
  rintro rfl
  cases h with
  | symbol h => exact h

theorem Spells.of_starts (h : Spells (c :: rest) l) (hc : Numeral.Starts c rest) :
    (Digits (c :: rest) ∧ l = .int (value (c :: rest))) ∨ (Numeric (c :: rest) ∧ ¬ Digits (c :: rest) ∧
      ∃ x, readFloat? (c :: rest) = some x ∧ l = .float x) := by
  generalize hw : c :: rest = w at h
  cases h with
  | int h => exact .inl ⟨h, rfl⟩
  | float h hpoint hx => exact .inr ⟨h, hpoint, _, hx, rfl⟩
  | reserved h | name h =>
    obtain ⟨hword, -⟩ := h
    obtain ⟨rfl, -⟩ := List.cons.inj hw
    exact absurd hc (not_starts_of_startsWord hword _)
  | symbol h =>
    obtain ⟨c', rest', htext, hno, -⟩ := h.head
    cases hw.trans htext
    exact absurd hc hno

theorem Spells.numeric (h : Spells (c :: rest) l) (hc : Numeral.Starts c rest) : Numeric (c :: rest) :=
  (h.of_starts hc).elim (fun h => h.1.numeric) And.left

theorem Spells.of_startsWord (h : Spells (c :: rest) l) (hc : startsWord c) :
    (∀ d ∈ rest, continuesWord d) ∧ l = ofWord (String.ofList (c :: rest)) := by
  generalize hw : c :: rest = w at h
  cases h with
  | int h =>
    obtain ⟨d, more, rfl, hd⟩ := h.exists_cons
    obtain ⟨rfl, -⟩ := List.cons.inj hw
    exact absurd (.inl hd) (not_starts_of_startsWord hc more)
  | float h =>
    obtain ⟨d, more, rfl, hd⟩ := h.starts
    obtain ⟨rfl, -⟩ := List.cons.inj hw
    exact absurd hd (not_starts_of_startsWord hc _)
  | reserved h hmem =>
    obtain ⟨-, hrest⟩ := h
    cases hw
    exact ⟨hrest, (if_pos (List.contains_iff_mem.mpr hmem)).symm⟩
  | name h hmem =>
    obtain ⟨-, hrest⟩ := h
    cases hw
    exact ⟨hrest, (if_neg fun h => hmem (List.contains_iff_mem.mp h)).symm⟩
  | symbol h =>
    obtain ⟨c', rest', htext, -, hno, -⟩ := h.head
    cases hw.trans htext
    exact absurd hc hno

theorem Spells.isSymbol (h : Spells (c :: rest) l) (hnum : ¬ Numeral.Starts c rest)
    (hword : ¬ startsWord c) : IsSymbol l ∧ l.text.toList = c :: rest := by
  generalize hw : c :: rest = w at h
  cases h with
  | int h =>
    obtain ⟨d, more, rfl, hd⟩ := h.exists_cons
    obtain ⟨rfl, rfl⟩ := List.cons.inj hw
    exact absurd (.inl hd) hnum
  | float h =>
    obtain ⟨d, more, rfl, hd⟩ := h.starts
    obtain ⟨rfl, rfl⟩ := List.cons.inj hw
    exact absurd hd hnum
  | reserved h | name h =>
    obtain ⟨hc, -⟩ := h
    obtain ⟨rfl, -⟩ := List.cons.inj hw
    exact absurd hc hword
  | symbol h => exact ⟨h, rfl⟩

theorem isSpace_iff : isSpace c ↔ c = ' ' ∨ c = '\t' ∨ c = '\x0c' ∨ c = '\r' ∨ c = '\n' := by
  simp [isSpace, isBlank, isLineBreak, or_assoc]

theorem not_isSpace_of_gt (h : ' ' < c) : ¬ isSpace c := by
  rw [isSpace_iff]
  rintro (rfl | rfl | rfl | rfl | rfl) <;> exact absurd h (by decide)

theorem Spells.not_isSpace (h : Spells (c :: rest) l) : ¬ isSpace c := by
  by_cases hnum : Numeral.Starts c rest
  · exact not_isSpace_of_gt (UInt32.lt_trans (b := '-'.val) (by decide) (head_lt (hnum.imp_right And.left)).1)
  by_cases hword : startsWord c
  · exact not_isSpace_of_gt (UInt32.lt_trans (b := '9'.val) (by decide) (startsWord_gt hword))
  obtain ⟨hl, htext⟩ := h.isSymbol hnum hword
  obtain ⟨_, _, hhead, -, -, hspace⟩ := hl.head
  cases htext.symm.trans hhead
  exact hspace

theorem spelled_of_numeric (h : Numeric w) : ∃ l, Spells w l := by
  by_cases hd : Digits w
  · exact ⟨_, .int hd⟩
  · exact ⟨_, .float h hd (readFloat?_numeric h)⟩

theorem Word.spells (h : Word w) : Spells w (ofWord (String.ofList w)) := by
  by_cases hw : String.ofList w ∈ reservedWords
  · rw [ofWord, if_pos (List.contains_iff_mem.mpr hw)]
    exact .reserved h hw
  · rw [ofWord, if_neg fun hc => hw (List.contains_iff_mem.mp hc)]
    exact .name h hw

theorem longest_number (h : Numeral.Starts c rest) : Longest (Numeral.scan (c :: rest)).1 (c :: rest) where
  spelled := spelled_of_numeric (Numeral.scan_spec h).1
  isPrefix := Numeral.scan_isPrefix _
  length_le w' l' hl hw := by
    cases w' with
    | nil => exact Nat.zero_le _
    | cons c' rest' =>
      obtain ⟨rfl, hrest⟩ := List.cons_prefix_cons.mp hw
      cases rest' with
      | nil =>
        obtain ⟨_, _, heq, -⟩ := (Numeral.scan_spec h).1.starts
        rw [heq]
        simp
      | cons d rest' =>
        obtain ⟨z, rfl⟩ := hrest
        exact Numeral.length_le_scan (hl.numeric h) hw

theorem longest_word (h : startsWord c) (rest : List Char) : Longest (scanWord c rest) (c :: rest) where
  spelled := ⟨_, (Word.intro h fun _ hd => List.mem_takeWhile_imp hd).spells⟩
  isPrefix := by
    rw [scanWord, List.prefix_cons_inj]
    exact List.takeWhile_prefix _
  length_le w' l' hl hw := by
    cases w' with
    | nil => exact Nat.zero_le _
    | cons c' rest' =>
      obtain ⟨rfl, z, rfl⟩ := List.cons_prefix_cons.mp hw
      rw [scanWord, List.takeWhile_append_of_pos (hl.of_startsWord h).1]
      simp

theorem Separate.of_not_numeric (h : ¬ Numeric w) : Separate w after :=
  ⟨fun hd => absurd hd.numeric h, fun hn => absurd hn h⟩

theorem not_numeric (h : ¬ Numeral.Starts c rest) : ¬ Numeric (c :: rest) := by
  intro hn
  obtain ⟨_, _, heq, hs⟩ := hn.starts
  cases heq
  exact h hs

theorem starts_mono (h : Numeral.Starts c after) (hp : after <+: rest) : Numeral.Starts c rest := by
  obtain ⟨z, rfl⟩ := hp
  cases after with
  | nil => exact .inl (h.resolve_right (by simp))
  | cons d more => exact h

theorem IsSymbol.length_le (h : IsSymbol l) : l.text.toList.length ≤ 2 := by
  cases l <;> cases h <;> decide

/-- Any spelling of a text without a number or a word at its head is a symbol. -/
theorem isSymbol_of_spells (hnum : ¬ Numeral.Starts c rest) (hword : ¬ startsWord c) (h : Spells w l)
    (hw : w <+: c :: rest) : (w = [c] ∧ ofSymbol? c = some l) ∨
      ∃ d ∈ rest.head?, w = [c, d] ∧ ofPair? c d = some l := by
  cases w with
  | nil => exact absurd rfl h.ne_nil
  | cons c' rest' =>
    obtain ⟨rfl, hrest⟩ := List.cons_prefix_cons.mp hw
    obtain ⟨hl, htext⟩ := h.isSymbol (fun hs => hnum (starts_mono hs hrest)) hword
    have hlen := hl.length_le
    match rest', hrest with
    | [], _ => exact .inl ⟨rfl, ofSymbol?_eq_some_iff.mpr ⟨hl, htext⟩⟩
    | [d], ⟨z, hz⟩ =>
      subst hz
      exact .inr ⟨d, by simp, rfl, ofPair?_eq_some_iff.mpr ⟨hl, htext⟩⟩
    | _ :: _ :: _, _ => simp [htext] at hlen

theorem scanSymbol_eq_ok_iff (hnum : ¬ Numeral.Starts c rest) (hword : ¬ startsWord c) :
    scanSymbol c rest = (.ok l, w) ↔ ∃ after, c :: rest = w ++ after ∧ Lexes w l after := by
  constructor
  · intro h
    unfold scanSymbol at h
    split at h
    · next l' hpair =>
      cases h
      obtain ⟨d, hd, hl⟩ := Option.bind_eq_some_iff.mp hpair
      obtain ⟨more, rfl⟩ := List.head?_eq_some_iff.mp hd
      obtain ⟨hsym, htext⟩ := ofPair?_eq_some_iff.mp hl
      have hs : Spells [c, d] l := htext ▸ .symbol hsym
      refine ⟨more, rfl, hs, ⟨⟨l, hs⟩, ⟨more, rfl⟩, fun w' l' hl' hw' => ?_⟩,
        .of_not_numeric (not_numeric fun h => hnum (starts_mono h ⟨more, rfl⟩))⟩
      obtain ⟨rfl, -⟩ | ⟨_, _, rfl, -⟩ := isSymbol_of_spells hnum hword hl' hw' <;> simp
    · next hpair =>
      split at h
      · next l' hl =>
        cases h
        obtain ⟨hsym, htext⟩ := ofSymbol?_eq_some_iff.mp hl
        have hs : Spells [c] l := htext ▸ .symbol hsym
        refine ⟨rest, rfl, hs, ⟨⟨l, hs⟩, ⟨rest, rfl⟩, fun w' l' hl' hw' => ?_⟩,
          .of_not_numeric (not_numeric fun h => hnum (starts_mono h List.nil_prefix))⟩
        obtain ⟨rfl, -⟩ | ⟨d, hd, rfl, hp⟩ := isSymbol_of_spells hnum hword hl' hw'
        · simp
        · rw [Option.mem_def.mp hd, Option.bind_some, hp] at hpair
          cases hpair
      · cases h
  · rintro ⟨after, heq, h⟩
    have hprefix : w <+: c :: rest := ⟨after, heq.symm⟩
    obtain ⟨rfl, hl⟩ | ⟨d, hd, rfl, hl⟩ := isSymbol_of_spells hnum hword h.spells hprefix
    · cases hpair : rest.head?.bind (ofPair? c) with
      | none => simp [scanSymbol, hpair, hl]
      | some l' =>
        -- a pair at the head would be a longer spelling
        obtain ⟨d, hd, hl'⟩ := Option.bind_eq_some_iff.mp hpair
        obtain ⟨more, rfl⟩ := List.head?_eq_some_iff.mp hd
        obtain ⟨hsym, htext⟩ := ofPair?_eq_some_iff.mp hl'
        have hle := h.longest.length_le [c, d] l' (htext ▸ .symbol hsym) ⟨more, by simpa using heq⟩
        simp at hle
    · obtain ⟨more, rfl⟩ := List.head?_eq_some_iff.mp hd
      simp [scanSymbol, hl]

/-- The longest numeral is not followed by a digit. -/
theorem Longest.digitsEnd (h : Longest w (w ++ after)) (hw : Numeric w) : DigitsEnd after := by
  intro d hd hdigit
  obtain ⟨more, rfl⟩ := List.head?_eq_some_iff.mp hd
  obtain ⟨l, hl⟩ := spelled_of_numeric (hw.snoc hdigit)
  have hle := h.length_le _ l hl ⟨more, by simp⟩
  rw [List.length_append, List.length_singleton] at hle
  omega

theorem glued_eq_nil_iff (h : DigitsEnd after) :
    after.takeWhile continuesWord = [] ↔ ∀ c ∈ after.head?, ¬ startsWord c := by
  cases after with
  | nil => simp
  | cons c after =>
    have hc : ¬ c.isDigit := h c rfl
    simp [continuesWord, startsWord, Char.isAlphanum, hc]

/-- A number is found glued to a word, or with zeros in front, or it has a value. -/
theorem scanNumber_eq (hw : Numeric w) (hscan : (Numeral.scan (w ++ after)).1 = w) :
    scanNumber (w ++ after) =
      if after.takeWhile continuesWord ≠ [] then
        (.error (.gluedNumber (String.ofList (w ++ after.takeWhile continuesWord))),
          w ++ after.takeWhile continuesWord)
      else if w.all isDigit then
        if w.head? = some '0' ∧ w.any (· ≠ '0') then (.error .leadingZeros, w)
        else (.ok (.int (value w)), w)
      else (.ok (.float ((Numeral.scan w).2.toFloat false)), w) := by
  obtain ⟨c, rest, heq, -⟩ := hw.starts
  simp only [scanNumber, hscan, List.drop_left, readFloat?_numeric hw]
  by_cases hd : w.all isDigit
  · have hdigits : Digits w := ⟨by simp [heq], List.all_eq_true.mp hd⟩
    simp only [readInt?_digits hdigits]
  · simp only [if_neg hd]

theorem scanNumber_eq_ok_iff (h : Longest w (w ++ after)) (hw : Numeric w)
    (hscan : (Numeral.scan (w ++ after)).1 = w) :
    scanNumber (w ++ after) = (.ok l, w') ↔ w' = w ∧ Spells w l ∧ Separate w after := by
  obtain ⟨c, rest, heq, hstarts⟩ := hw.starts
  have hglued := glued_eq_nil_iff (h.digitsEnd hw)
  rw [scanNumber_eq hw hscan]
  constructor
  · intro h
    split at h
    · cases h
    next hapart =>
    rw [not_not, hglued] at hapart
    split at h
    · next hall =>
      have hd : Digits w := ⟨by simp [heq], List.all_eq_true.mp hall⟩
      split at h
      · cases h
      · next hzeros =>
        cases h
        refine ⟨rfl, .int hd, fun _ hhead c hc => ?_, fun _ => hapart⟩
        by_contra hne
        exact hzeros ⟨hhead, List.any_eq_true.mpr ⟨c, hc, by simpa using hne⟩⟩
    · next hall =>
      have hd : ¬ Digits w := fun hd => hall (List.all_eq_true.mpr hd.2)
      cases h
      exact ⟨rfl, .float hw hd (readFloat?_numeric hw), fun hd' => absurd hd' hd, fun _ => hapart⟩
  · rintro ⟨rfl, hl, hsep⟩
    rw [if_neg (not_not.mpr (hglued.mpr (hsep.apart hw)))]
    subst heq
    obtain ⟨hd, rfl⟩ | ⟨-, hd, x, hx, rfl⟩ := hl.of_starts hstarts
    · have hzeros : ¬ ((c :: rest).head? = some '0' ∧ (c :: rest).any (· ≠ '0')) := by
        rintro ⟨hhead, hany⟩
        obtain ⟨d, hmem, hne⟩ := List.any_eq_true.mp hany
        exact absurd (hsep.zeros hd hhead d hmem) (by simpa using hne)
      rw [if_pos (List.all_eq_true.mpr hd.2), if_neg hzeros]
    · rw [if_neg fun hall => hd ⟨List.cons_ne_nil c rest, List.all_eq_true.mp hall⟩]
      cases (readFloat?_numeric hw).symm.trans hx
      rfl

theorem scan_number (h : Numeral.Starts c rest) :
    ∃ w after, c :: rest = w ++ after ∧ Numeric w ∧ Longest w (w ++ after) ∧
      (Numeral.scan (w ++ after)).1 = w ∧ scan c rest = scanNumber (w ++ after) := by
  obtain ⟨after, hafter⟩ := Numeral.scan_isPrefix (c :: rest)
  refine ⟨_, after, hafter.symm, (Numeral.scan_spec h).1, ?_, ?_, ?_⟩
  · rw [hafter]
    exact longest_number h
  · rw [hafter]
  · rw [hafter, scan, if_pos (startsNumber_iff.mpr h)]

theorem scan_other (h : ¬ Numeral.Starts c rest) : scan c rest =
    if startsWord c then (.ok (ofWord (String.ofList (scanWord c rest))), scanWord c rest)
    else scanSymbol c rest := by
  rw [scan, if_neg fun hs => h (startsNumber_iff.mp hs)]

/-- The scan finds a lexeme exactly if one is there, and it is the longest. -/
theorem scan_eq_ok_iff :
    scan c rest = (.ok l, w) ↔ ∃ after, c :: rest = w ++ after ∧ Lexes w l after := by
  by_cases hnum : Numeral.Starts c rest
  · obtain ⟨w', after, hcs, hnumeric, hlongest, hscan, hs⟩ := scan_number hnum
    rw [hs, scanNumber_eq_ok_iff hlongest hnumeric hscan, hcs]
    constructor
    · rintro ⟨rfl, hl, hsep⟩
      exact ⟨after, rfl, hl, hlongest, hsep⟩
    · rintro ⟨after', heq, h⟩
      cases hlongest.unique (heq ▸ h.longest)
      cases List.append_cancel_left heq
      exact ⟨rfl, h.spells, h.separate⟩
  rw [scan_other hnum]
  by_cases hword : startsWord c
  · rw [if_pos hword]
    have hlongest := longest_word hword rest
    obtain ⟨after, hafter⟩ := hlongest.isPrefix
    constructor
    · intro h
      cases h
      refine ⟨after, hafter.symm, Word.spells (.intro hword fun _ hd => List.mem_takeWhile_imp hd),
        hafter.symm ▸ hlongest, .of_not_numeric (not_numeric ?_)⟩
      exact not_starts_of_startsWord hword _
    · rintro ⟨after', heq, h⟩
      cases hlongest.unique (heq ▸ h.longest)
      rw [(h.spells.of_startsWord hword).2]
      rfl
  · rw [if_neg hword]
    exact scanSymbol_eq_ok_iff hnum hword

theorem scan_isPrefix (c : Char) (rest : List Char) :
    (scan c rest).2 <+: c :: rest ∧ (scan c rest).2 ≠ [] := by
  by_cases hnum : Numeral.Starts c rest
  · obtain ⟨w, after, hcs, hnumeric, -, hscan, hs⟩ := scan_number hnum
    obtain ⟨_, _, hw, -⟩ := hnumeric.starts
    have hglued := (List.prefix_append_right_inj w).mpr (List.takeWhile_prefix continuesWord (l := after))
    rw [hs, scanNumber_eq hnumeric hscan, hcs]
    split
    · exact ⟨hglued, by simp [hw]⟩
    · split
      · split <;> exact ⟨List.prefix_append _ _, by simp [hw]⟩
      · exact ⟨List.prefix_append _ _, by simp [hw]⟩
  rw [scan_other hnum]
  split
  · next hword => exact ⟨(longest_word hword rest).isPrefix, List.cons_ne_nil _ _⟩
  · unfold scanSymbol
    split
    · exact ⟨List.cons_prefix_cons.mpr ⟨rfl, List.take_prefix 1 rest⟩, List.cons_ne_nil _ _⟩
    · split <;> exact ⟨List.prefix_append [c] rest, List.cons_ne_nil _ _⟩

/-- Every numeral has a value. -/
theorem scan_ne_unreadable (c : Char) (rest : List Char) (spelling : String) :
    (scan c rest).1 ≠ .error (.unreadableNumber spelling) := by
  by_cases hnum : Numeral.Starts c rest
  · obtain ⟨w, after, -, hnumeric, -, hscan, hs⟩ := scan_number hnum
    rw [hs, scanNumber_eq hnumeric hscan]
    split
    · simp
    · split
      · split <;> simp
      · simp
  rw [scan_other hnum]
  split
  · simp
  · unfold scanSymbol
    split
    · simp
    · split <;> simp

end Reckoner.Lexeme
