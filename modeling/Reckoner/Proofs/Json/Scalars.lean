import Reckoner.Json.Reader
import Reckoner.Json.Writer
import Reckoner.Proofs.Decimal.Digits
import Reckoner.Proofs.Decimal.Numeral

/-! Strings, numbers and words of JSON are read back as they were written. -/
namespace Reckoner.Json
open Decimal

variable {c : Char} {rest : List Char} {found : List Piece}

/-- How a character comes out of its escape. -/
def pieceOf (c : Char) : Piece :=
  if c < ' ' ∧ c ∉ ['\x08', '\x0c', '\n', '\r', '\t'] then .unit c.toNat else .char c

theorem hexCode?_hexDigits {n : Nat} (h : n < 32) : hexCode? ('0' :: '0' :: hexDigits n) = some n := by
  have hall : ∀ n : Fin 32, hexCode? ('0' :: '0' :: hexDigits n) = some n.val := by decide
  exact hall ⟨n, h⟩

theorem scanPieces_char (hquote : c ≠ '"') (hslash : c ≠ '\\') (hc : ¬ c < ' ') (found : List Piece)
    (rest : List Char) : scanPieces found (c :: rest) = scanPieces (.char c :: found) rest := by
  rw [scanPieces.eq_def]
  split
  · next h => cases h
  · next h => exact absurd (List.cons.inj h).1 hquote
  · next h => exact absurd (List.cons.inj h).1 hslash
  · next h => exact absurd (List.cons.inj h).1 hslash
  · next h =>
    cases h
    rw [if_neg hc]

theorem scanPieces_unit {n : Nat} (h : hexCode? ('0' :: '0' :: hexDigits n) = some n)
    (found : List Piece) (rest : List Char) :
    scanPieces found (['\\', 'u', '0', '0'] ++ hexDigits n ++ rest) = scanPieces (.unit n :: found) rest := by
  rw [hexDigits] at h
  simp only [hexDigits, List.cons_append, List.nil_append]
  rw [scanPieces, h]

/-- An escaped character is one piece. -/
theorem scanPieces_escape (c : Char) (found : List Piece) (rest : List Char) :
    scanPieces found (escape c ++ rest) = scanPieces (pieceOf c :: found) rest := by
  unfold escape
  split
  · rfl
  · rfl
  · rfl
  · rfl
  · rfl
  · rfl
  · rfl
  · next hquote hslash hb hf hn hr ht =>
    split
    · next hc =>
      have hpiece : pieceOf c = .unit c.toNat := by
        rw [pieceOf, if_pos]
        simp only [List.mem_cons, List.not_mem_nil, or_false, not_or]
        exact ⟨hc, hb, hf, hn, hr, ht⟩
      rw [hpiece]
      exact scanPieces_unit (hexCode?_hexDigits hc) found rest
    · next hc =>
      have hpiece : pieceOf c = .char c := by rw [pieceOf, if_neg fun h => hc h.1]
      rw [hpiece]
      exact scanPieces_char hquote hslash hc found rest

theorem scanPieces_quoted (cs : List Char) (found : List Piece) (rest : List Char) :
    scanPieces found (cs.flatMap escape ++ '"' :: rest) = some (found.reverse ++ cs.map pieceOf, rest) := by
  induction cs generalizing found with
  | nil =>
    rw [List.map_nil, List.append_nil]
    exact scanPieces.eq_def ..
  | cons c cs ih =>
    rw [List.flatMap_cons, List.append_assoc, scanPieces_escape, ih]
    simp

/-- Units below the surrogates are characters of their own. -/
theorem joinPieces_unit {n : Nat} (h : n < 0xD800) (found : List Char) (pieces : List Piece) :
    joinPieces found (.unit n :: pieces) = joinPieces (Char.ofNat n :: found) pieces := by
  have hhigh : isHighSurrogate n = false := by simp [isHighSurrogate]; omega
  have hlow : isLowSurrogate n = false := by simp [isLowSurrogate]; omega
  rw [joinPieces.eq_def]
  split
  · next heq => cases heq
  · next heq => cases heq
  · next heq =>
    cases heq
    simp [hhigh, hlow]
  · next heq =>
    cases heq
    simp [hhigh, hlow]

theorem joinPieces_pieceOf (cs : List Char) (found : List Char) :
    joinPieces found (cs.map pieceOf) = some (found.reverse ++ cs) := by
  induction cs generalizing found with
  | nil => simp [joinPieces]
  | cons c cs ih =>
    have hstep : joinPieces found (pieceOf c :: cs.map pieceOf) = joinPieces (c :: found) (cs.map pieceOf) := by
      unfold pieceOf
      split
      · next h =>
        have hlt : c.toNat < 32 := h.1
        rw [joinPieces_unit (by omega), Char.ofNat_toNat]
      · rw [joinPieces]
    rw [List.map_cons, hstep, ih]
    simp

theorem textOf?_pieceOf (text : String) : textOf? (text.toList.map pieceOf) = some text := by
  rw [textOf?, joinPieces_pieceOf]
  simp

/-- A number as JSON writes it: no zero in front, and digits after the mark of an exponent. -/
structure Literal.Proper (l : Literal) : Prop where
  whole : Plain l.whole
  fraction : ∀ c ∈ l.fraction, isDigit c
  exponent : ∀ e ∈ l.exponent, Digits e.digits

/-- The characters of an exponent, if there is one. -/
def exponentChars : Option Exponent → List Char
  | none => []
  | some e => 'e' :: (if e.negative then ['-'] else []) ++ e.digits

/-- The characters of a number after its sign. -/
def Literal.unsignedChars (l : Literal) : List Char :=
  l.whole ++ ((if l.fraction.isEmpty then [] else '.' :: l.fraction) ++ exponentChars l.exponent)

theorem Literal.chars_eq (l : Literal) : l.chars = (if l.negative then ['-'] else []) ++ l.unsignedChars := by
  obtain ⟨negative, whole, fraction, exponent⟩ := l
  cases exponent <;> simp [Literal.chars, exponentChars, unsignedChars]

/-- A text without control characters. -/
def Printable (cs : List Char) : Prop := ∀ c ∈ cs, ' ' ≤ c

instance (cs : List Char) : Decidable (Printable cs) :=
  decidable_of_iff (cs.all (' ' ≤ ·)) (by simp [Printable])

theorem Printable.append {cs ds : List Char} (h : Printable cs) (hds : Printable ds) : Printable (cs ++ ds) :=
  List.forall_mem_append.mpr ⟨h, hds⟩

theorem Printable.cons {cs : List Char} (hc : ' ' ≤ c) (h : Printable cs) : Printable (c :: cs) :=
  List.forall_mem_cons.mpr ⟨hc, h⟩

theorem printable_hexDigits {n : Nat} (h : n < 32) : Printable (hexDigits n) := by
  have hall : ∀ n : Fin 32, Printable (hexDigits n) := by decide
  exact hall ⟨n, h⟩

theorem printable_escape (c : Char) : Printable (escape c) := by
  unfold escape
  split
  · decide
  · decide
  · decide
  · decide
  · decide
  · decide
  · decide
  · split
    · next hc =>
      have hcode : Printable ['\\', 'u', '0', '0'] := by decide
      exact hcode.append (printable_hexDigits hc)
    · next hc => exact .cons (Char.not_lt.mp hc) nofun

theorem printable_quoted (text : String) : Printable (quoted text) := by
  have hescaped : Printable (text.toList.flatMap escape) := by
    intro d hd
    obtain ⟨c, -, hd⟩ := List.mem_flatMap.mp hd
    exact printable_escape c d hd
  exact (hescaped.cons (by decide)).append (.cons (by decide) nofun)

theorem printable_digits {ds : List Char} (h : ∀ c ∈ ds, isDigit c) : Printable ds := by
  intro c hc
  obtain ⟨hzero, -⟩ := isDigit_iff.mp (h c hc)
  exact Char.le_trans (by decide) hzero

theorem Literal.Proper.printable {l : Literal} (h : l.Proper) : Printable l.chars := by
  have hsign (negative : Bool) : Printable (if negative then ['-'] else []) := by
    cases negative <;> decide
  have hwhole := printable_digits h.whole.all.2
  have hfraction : Printable (if l.fraction.isEmpty then [] else '.' :: l.fraction) := by
    split
    · exact nofun
    · exact (printable_digits h.fraction).cons (by decide)
  have hexponent : Printable (exponentChars l.exponent) := by
    cases he : l.exponent with
    | none => exact nofun
    | some e => exact ((hsign e.negative).cons (by decide)).append (printable_digits (h.exponent e he).2)
  rw [l.chars_eq]
  exact (hsign l.negative).append (hwhole.append (hfraction.append hexponent))

/-- A text that goes on after a value: with a mark, or not at all. -/
def Marked (rest : List Char) : Prop := ∀ c ∈ rest.head?, c ∈ [',', ']', '\x7d']

theorem Marked.cons (h : c ∈ [',', ']', '\x7d']) (rest : List Char) : Marked (c :: rest) := by
  simpa [Marked] using h

/-- What holds of no mark does not hold of the character after a value. -/
theorem Marked.not {P : Char → Bool} (h : Marked rest)
    (hP : P ',' = false ∧ P ']' = false ∧ P '\x7d' = false) : ∀ c ∈ rest.head?, ¬ P c := by
  intro c hc
  obtain rfl | rfl | rfl : c = ',' ∨ c = ']' ∨ c = '\x7d' := by simpa using h c hc
  · simp [hP.1]
  · simp [hP.2.1]
  · simp [hP.2.2]

theorem Marked.digitsEnd (h : Marked rest) : DigitsEnd rest := h.not ⟨rfl, rfl, rfl⟩

theorem Marked.head_ne {d : Char} (h : Marked rest) (hd : (',' == d) = false ∧ (']' == d) = false ∧ ('\x7d' == d) = false) :
    rest.head? ≠ some d := by
  have hnot := h.not (P := (· == d)) hd
  intro hhead
  exact hnot d hhead (beq_self_eq_true d)

namespace Symbol

variable {ds fraction : List Char}

theorem scanWhole_append (h : Plain ds) (hrest : DigitsEnd rest) : scanWhole (ds ++ rest) = some (ds, rest) := by
  obtain ⟨c, ds, rfl⟩ := List.exists_cons_of_ne_nil h.all.1
  obtain ⟨hc, hds⟩ := List.forall_mem_cons.mp h.all.2
  rw [List.cons_append, scanWhole]
  by_cases hzero : c = '0'
  · cases h.head (congrArg some hzero)
    rfl
  · rw [if_neg hzero, if_pos hc, hrest.takeWhile hds, hrest.dropWhile hds]

theorem scanFraction_append (h : ∀ c ∈ fraction, isDigit c) (hrest : DigitsEnd rest)
    (hpoint : rest.head? ≠ some '.') :
    scanFraction ((if fraction.isEmpty then [] else '.' :: fraction) ++ rest) = some (fraction, rest) := by
  cases fraction with
  | nil =>
    rw [List.isEmpty_nil, if_pos rfl, List.nil_append, scanFraction.eq_def]
    split
    · exact absurd rfl hpoint
    · rfl
  | cons d ds =>
    rw [List.isEmpty_cons, if_neg Bool.false_ne_true, List.cons_append, scanFraction, hrest.takeWhile h,
      hrest.dropWhile h]
    simp

theorem exponentDigits_append (negative : Bool) (h : Digits ds) (hrest : DigitsEnd rest) :
    exponentDigits negative (ds ++ rest) = some (some ⟨negative, ds⟩, rest) := by
  simp only [exponentDigits, hrest.takeWhile h.2, hrest.dropWhile h.2, if_neg h.1]

theorem scanExponent_append {exponent : Option Exponent} (h : ∀ e ∈ exponent, Digits e.digits)
    (hrest : DigitsEnd rest) (hmark : rest.head? ≠ some 'e' ∧ rest.head? ≠ some 'E') :
    scanExponent (exponentChars exponent ++ rest) = some (exponent, rest) := by
  cases exponent with
  | none =>
    cases rest with
    | nil => rfl
    | cons c rest =>
      have hne : ¬ (c = 'e' ∨ c = 'E') := by simpa using hmark
      simp only [exponentChars, List.nil_append, scanExponent, if_neg hne]
  | some e =>
    obtain ⟨negative, ds⟩ := e
    have hds : Digits ds := h _ rfl
    have hdigits := exponentDigits_append negative hds hrest
    cases negative with
    | true => exact hdigits
    | false =>
      -- a digit is no sign
      obtain ⟨d, more, rfl, hd⟩ := hds.exists_cons
      rw [exponentChars]
      simp only [Bool.false_eq_true, if_false, List.cons_append, scanExponent, true_or, if_true]
      split
      · next heq =>
        cases heq
        exact absurd hd (by decide)
      · next heq =>
        cases heq
        exact absurd hd (by decide)
      · exact hdigits

theorem scanLiteral_append {l : Literal} (h : l.Proper) (hrest : Marked rest) :
    scanLiteral l.negative (l.unsignedChars ++ rest) = some (l, rest) := by
  have hexponent : DigitsEnd (exponentChars l.exponent ++ rest) ∧
      (exponentChars l.exponent ++ rest).head? ≠ some '.' := by
    cases l.exponent with
    | none => exact ⟨hrest.digitsEnd, hrest.head_ne ⟨rfl, rfl, rfl⟩⟩
    | some e => exact ⟨.cons (by decide), by simp [exponentChars]⟩
  have hfraction : DigitsEnd ((if l.fraction.isEmpty then [] else '.' :: l.fraction) ++
      (exponentChars l.exponent ++ rest)) := by
    split
    · exact hexponent.1
    · exact .cons (by decide)
  have hmark : rest.head? ≠ some 'e' ∧ rest.head? ≠ some 'E' :=
    ⟨hrest.head_ne ⟨rfl, rfl, rfl⟩, hrest.head_ne ⟨rfl, rfl, rfl⟩⟩
  rw [Literal.unsignedChars, List.append_assoc, List.append_assoc, scanLiteral, scanWhole_append h.whole hfraction]
  simp only [Option.bind_eq_bind, Option.bind_some, scanFraction_append h.fraction hexponent.1 hexponent.2,
    scanExponent_append h.exponent hrest.digitsEnd hmark]
  rfl

/-- The characters are one scalar where the text goes on in this way. -/
def Scalar (v : Json) (cs rest : List Char) : Prop :=
  ∃ c more, cs = c :: more ∧ isBlank c = false ∧ (ofMark? c).isNone ∧ scanScalar c (more ++ rest) = some (v, rest)

theorem Scalar.scan {v : Json} {cs : List Char} (h : Scalar v cs rest) (found : List Symbol) :
    scan found (cs ++ rest) = scan (.scalar v :: found) rest := by
  obtain ⟨c, more, rfl, hblank, hmark, hscalar⟩ := h
  have hnone : ofMark? c = none := Option.isNone_iff_eq_none.mp hmark
  rw [List.cons_append, Symbol.scan, hblank, if_neg Bool.false_ne_true]
  split
  · next heq => cases hnone.symm.trans heq
  · split
    · next heq => cases hscalar.symm.trans heq
    · next heq =>
      cases hscalar.symm.trans heq
      rfl

theorem scalar_string (text : String) (rest : List Char) : Scalar (.string (some text)) (quoted text) rest := by
  refine ⟨'"', text.toList.flatMap escape ++ ['"'], rfl, rfl, rfl, ?_⟩
  have hpieces := scanPieces_quoted text.toList [] rest
  rw [scanScalar, if_pos rfl, List.append_assoc, List.singleton_append, hpieces, ← textOf?_pieceOf text]
  rfl

theorem scalar_word {c : Char} {cs : List Char} {v : Json} (hv : ofWord? (String.ofList (c :: cs)) = some v)
    (hc : c ≠ '"' ∧ isBlank c = false ∧ (ofMark? c).isNone) (halpha : (c :: cs).all Char.isAlpha)
    (hrest : Marked rest) : Scalar v (c :: cs) rest := by
  obtain ⟨hquote, hblank, hmark⟩ := hc
  obtain ⟨hc, hcs⟩ := List.forall_mem_cons.mp (List.all_eq_true.mp halpha)
  have hend := hrest.not (P := Char.isAlpha) ⟨rfl, rfl, rfl⟩
  refine ⟨c, cs, rfl, hblank, hmark, ?_⟩
  rw [scanScalar, if_neg hquote, if_pos hc, takeWhile_run hcs hend, dropWhile_run hcs hend, hv]
  rfl

/-- The first digit tells a number from a string, a word and a mark. -/
theorem tells_number {d : Char} (hd : isDigit d) :
    isBlank d = false ∧ (ofMark? d).isNone ∧ d ≠ '"' ∧ ¬ d.isAlpha ∧ d ≠ '-' := by
  have hall : ∀ k : Fin 10, isBlank (Char.ofNat (48 + k)) = false ∧ (ofMark? (Char.ofNat (48 + k))).isNone ∧
      Char.ofNat (48 + k) ≠ '"' ∧ ¬ (Char.ofNat (48 + k)).isAlpha ∧ Char.ofNat (48 + k) ≠ '-' := by decide
  obtain ⟨hzero, hnine⟩ : 48 ≤ d.toNat ∧ d.toNat ≤ 57 := isDigit_iff.mp hd
  have hd := hall ⟨d.toNat - 48, by omega⟩
  rwa [Nat.add_sub_cancel' hzero, Char.ofNat_toNat] at hd

theorem scalar_number {l : Literal} (h : l.Proper) (hrest : Marked rest) : Scalar (.number l) l.chars rest := by
  have hscan := scanLiteral_append h hrest
  rw [l.chars_eq]
  cases hnegative : l.negative with
  | true =>
    rw [hnegative] at hscan
    refine ⟨'-', l.unsignedChars, rfl, rfl, rfl, ?_⟩
    rw [scanScalar, if_neg (by decide), if_neg (by decide), if_pos rfl, hscan]
    rfl
  | false =>
    obtain ⟨d, ds, hwhole, hd⟩ := h.whole.all.exists_cons
    obtain ⟨hblank, hmark, hquote, halpha, hminus⟩ := tells_number hd
    rw [hnegative] at hscan
    rw [Literal.unsignedChars, hwhole, List.cons_append] at hscan ⊢
    rw [List.cons_append] at hscan
    refine ⟨d, _, rfl, hblank, hmark, ?_⟩
    rw [scanScalar, if_neg hquote, if_neg halpha, if_neg hminus, hscan]
    rfl

end Symbol

end Reckoner.Json
