import Reckoner.Glyph
import Reckoner.Proofs.Grammar.Agreement
import Reckoner.Proofs.Token.Scanning

/-! Texts that spell the same lexemes with other spaces between them, or with other signs, are scanned to
the same tokens. -/
namespace Reckoner
open Lexeme Token Decimal

variable {w w' cs rest after gap : List Char} {c : Char} {l l' : Lexeme} {opened : Nat}
  {ls ls' : List (List Char × Lexeme)} {words words' : List (List Char)}

namespace Glyph

theorem canonical_of_lt (h : c < '\x7f') : canonical c = c := by
  unfold canonical
  split
  · exact absurd h (by decide)
  · exact absurd h (by decide)
  · exact absurd h (by decide)
  · rfl

theorem map_canonical_of_lt (h : ∀ c ∈ cs, c < '\x7f') : cs.map canonical = cs :=
  (List.map_congr_left fun c hc => canonical_of_lt (h c hc)).trans (List.map_id _)

theorem normalize_eq_self {s : String} (h : ∀ c ∈ s.toList, c < '\x7f') : normalize s = s := by
  rw [normalize, ← String.toList_inj, String.toList_map, map_canonical_of_lt h]

theorem lt_of_space (h : isSpace c) : c < '\x7f' := by
  obtain rfl | rfl | rfl | rfl | rfl := isSpace_iff.mp h <;> decide

theorem map_canonical_of_space (h : ∀ c ∈ cs, isSpace c) : cs.map canonical = cs :=
  map_canonical_of_lt fun c hc => lt_of_space (h c hc)

end Glyph

namespace Lexeme

/-- The characters of spellings: neither spaces nor signs of a keypad. -/
def Visible (c : Char) : Prop := ' ' < c ∧ c < '\x7f'

theorem visible_iff : Visible c ↔ 32 < c.toNat ∧ c.toNat < 127 := Iff.rfl

theorem visible_of_continuesWord (h : continuesWord c) : Visible c := by
  obtain h | rfl : c.isAlphanum ∨ c = '_' := by simpa [continuesWord] using h
  · simp only [Char.isAlphanum, Char.isAlpha, Char.isUpper, Char.isLower, Char.isDigit, Bool.or_eq_true,
      Bool.and_eq_true, decide_eq_true_eq, ge_iff_le, UInt32.le_iff_toNat_le] at h
    change ((65 ≤ c.toNat ∧ c.toNat ≤ 90) ∨ (97 ≤ c.toNat ∧ c.toNat ≤ 122)) ∨ 48 ≤ c.toNat ∧ c.toNat ≤ 57 at h
    rw [visible_iff]
    omega
  · exact ⟨by decide, by decide⟩

theorem Word.visible (h : Word w) : ∀ c ∈ w, Visible c := by
  obtain ⟨hc, hrest⟩ := h
  refine List.forall_mem_cons.mpr ⟨visible_of_continuesWord ?_, fun d hd => visible_of_continuesWord (hrest d hd)⟩
  simp only [startsWord, continuesWord, Char.isAlphanum, Bool.or_eq_true] at hc ⊢
  exact hc.imp_left .inl

theorem Spells.visible (h : Spells w l) : ∀ c ∈ w, Visible c := by
  have hdigit (c : Char) (hc : isDigit c) : continuesWord c := by
    have hc : c.isDigit := hc
    simp [continuesWord, Char.isAlphanum, hc]
  have hnumeric {w : List Char} (h : Numeric w) : ∀ c ∈ w, Visible c :=
    forall_of_numeric h (fun c hc => visible_of_continuesWord (hdigit c hc)) (by simp [Visible])
  cases h with
  | int h => exact hnumeric h.numeric
  | float h => exact hnumeric h
  | reserved h | name h => exact h.visible
  | symbol h => cases l <;> cases h <;> simp [text, Visible]

theorem isSpace_of_isBlank (h : isBlank c) : isSpace c := Bool.or_eq_true_iff.mpr (.inl h)

theorem not_isSpace_of_visible (h : Visible c) : ¬ isSpace c := not_isSpace_of_gt h.1

/-- A spelling that is a lexeme wherever a space follows it, or the end of the text. -/
structure Alone (w : List Char) (l : Lexeme) : Prop where
  spells : Spells w l
  zeros : Digits w → w.head? = some '0' → ∀ c ∈ w, c = '0'

theorem Lexes.alone (h : Lexes w l after) : Alone w l := ⟨h.spells, h.separate.zeros⟩

/-- No spelling goes on with a space. -/
theorem Alone.lexes (h : Alone w l) (hafter : ∀ c ∈ after.head?, isSpace c) : Lexes w l after where
  spells := h.spells
  longest := by
    refine ⟨⟨l, h.spells⟩, List.prefix_append w after, fun w' l' hl' hw' => ?_⟩
    obtain hle | ⟨more, rfl⟩ := List.prefix_or_prefix_of_prefix hw' (List.prefix_append w after)
    · exact hle.length_le
    · cases more with
      | nil => simp
      | cons c more =>
        obtain ⟨z, hz⟩ := (List.prefix_append_right_inj w).mp hw'
        have hc := hafter c (by rw [← hz]; rfl)
        exact absurd hc (not_isSpace_of_visible (hl'.visible c (by simp)))
  separate := by
    refine ⟨h.zeros, fun _ c hc hword => ?_⟩
    obtain rfl | rfl | rfl | rfl | rfl := isSpace_iff.mp (hafter c hc) <;> exact absurd hword (by decide)

/-- The two spellings of the sign of a power. -/
def powers : List (List Char) := [['^'], ['*', '*']]

theorem alone_of_mem_powers (h : w ∈ powers) : ∃ l, Alone w l := by
  have hcaret : Spells (text .caret).toList .caret := .symbol trivial
  have hstar : Spells (text .starStar).toList .starStar := .symbol trivial
  obtain rfl | rfl : w = ['^'] ∨ w = ['*', '*'] := by simpa [powers] using h
  · exact ⟨.caret, hcaret, fun _ hzero => absurd hzero (by decide)⟩
  · exact ⟨.starStar, hstar, fun _ hzero => absurd hzero (by decide)⟩

theorem Spells.eq_of_mem_powers (h : Spells w l) (hw : w ∈ powers) : l = .caret ∨ l = .starStar := by
  obtain rfl | rfl : w = ['^'] ∨ w = ['*', '*'] := by simpa [powers] using hw
  · obtain ⟨hl, htext⟩ := h.isSymbol (by decide) (by decide)
    cases l <;> cases hl <;> first | exact .inl rfl | exact absurd htext (by decide)
  · obtain ⟨hl, htext⟩ := h.isSymbol (by decide) (by decide)
    cases l <;> cases hl <;> first | exact .inr rfl | exact absurd htext (by decide)

/-- Another way to write a lexeme: with keypad signs, or with the other sign of a power. -/
def Respells (w w' : List Char) : Prop :=
  w'.map Glyph.canonical = w ∨ w ∈ powers ∧ w'.map Glyph.canonical ∈ powers

theorem Alone.respell (h : Alone w l) (hw : Respells w w') :
    ∃ l', Alone (w'.map Glyph.canonical) l' ∧ l.Alike l' := by
  obtain rfl | ⟨hpower, hpower'⟩ := hw
  · exact ⟨l, h, .refl l⟩
  · obtain ⟨l', h'⟩ := alone_of_mem_powers hpower'
    refine ⟨l', h', ?_⟩
    obtain rfl | rfl := h.spells.eq_of_mem_powers hpower <;>
      obtain rfl | rfl := h'.spells.eq_of_mem_powers hpower'
    · exact .refl _
    · exact .caret
    · exact .starStar
    · exact .refl _

end Lexeme

namespace Token

/-- A text with its lexemes and their spellings, where this many parentheses are open before it. -/
inductive Spelled : Nat → List Char → List (List Char × Lexeme) → Prop
  | done (opened : Nat) : Spelled opened [] []
  | skip {n d cs xs} (h : Skipped n d cs) (more : Spelled n cs xs) : Spelled n (d :: cs) xs
  | lexeme {n v k cs xs} (h : Lexes v k cs) (more : Spelled (k.parensAfter n) cs xs) :
      Spelled n (v ++ cs) ((v, k) :: xs)

theorem Scanned.exists_spelled {offset : Nat} {tokens : List Token} (h : Scanned offset opened cs tokens) :
    ∃ ls, Spelled opened cs ls ∧ tokens.map Token.lexeme = ls.map Prod.snd ++ [.endOfInput] := by
  induction h with
  | done _ opened => exact ⟨[], .done opened, rfl⟩
  | skip h _ ih =>
    obtain ⟨ls, hls, htokens⟩ := ih
    exact ⟨ls, .skip h hls, htokens⟩
  | @lexeme _ _ w l _ _ h _ ih =>
    obtain ⟨ls, hls, htokens⟩ := ih
    exact ⟨(w, l) :: ls, .lexeme h hls, congrArg (l :: ·) htokens⟩

theorem Spelled.exists_scanned (h : Spelled opened cs ls) (offset : Nat) :
    ∃ tokens, Scanned offset opened cs tokens ∧ tokens.map Token.lexeme = ls.map Prod.snd ++ [.endOfInput] := by
  induction h generalizing offset with
  | done opened => exact ⟨_, .done offset opened, rfl⟩
  | skip h _ ih =>
    obtain ⟨tokens, hscanned, htokens⟩ := ih (offset + 1)
    exact ⟨tokens, .skip h hscanned, htokens⟩
  | @lexeme _ w l _ _ h _ ih =>
    obtain ⟨tokens, hscanned, htokens⟩ := ih (offset + byteCount w)
    exact ⟨_, .lexeme h hscanned, congrArg (l :: ·) htokens⟩

theorem Spelled.alone (h : Spelled opened cs ls) : ∀ x ∈ ls, Alone x.1 x.2 := by
  induction h with
  | done _ => exact List.forall_mem_nil _
  | skip _ _ ih => exact ih
  | lexeme h _ ih => exact List.forall_mem_cons.mpr ⟨h.alone, ih⟩

/-- Words with blanks between any two of them, and spaces after the last. -/
inductive Spaced : List (List Char) → List Char → Prop
  | last (v : List Char) {trail} (h : ∀ c ∈ trail, isSpace c) : Spaced [v] (v ++ trail)
  | cons (v : List Char) {blanks vs cs} (h : ∀ c ∈ blanks, isBlank c) (hne : blanks ≠ [])
      (more : Spaced vs cs) : Spaced (v :: vs) (v ++ (blanks ++ cs))

/-- Words with blanks before and between them, and spaces after the last. -/
def LaidOut (words : List (List Char)) (cs : List Char) : Prop :=
  ∃ gap rest, cs = gap ++ rest ∧ (∀ c ∈ gap, isBlank c) ∧ Spaced words rest

theorem Spelled.blanks (h : Spelled opened rest ls) (hgap : ∀ c ∈ gap, isBlank c) :
    Spelled opened (gap ++ rest) ls := by
  induction gap with
  | nil => exact h
  | cons c gap ih =>
    obtain ⟨hc, hgap⟩ := List.forall_mem_cons.mp hgap
    exact .skip (.inl hc) (ih hgap)

theorem Spelled.spaces (opened : Nat) (h : ∀ c ∈ cs, isSpace c) : Spelled opened cs [] := by
  induction cs with
  | nil => exact .done opened
  | cons c cs ih =>
    obtain ⟨hc, hcs⟩ := List.forall_mem_cons.mp h
    refine .skip ?_ (ih hcs)
    obtain hblank | hbreak := Bool.or_eq_true_iff.mp hc
    · exact .inl hblank
    · exact .inr ⟨hbreak, .inr hcs⟩

theorem Spaced.map_canonical (h : Spaced words cs) :
    Spaced (words.map (List.map Glyph.canonical)) (cs.map Glyph.canonical) := by
  induction h with
  | last v h =>
    rw [List.map_append, Glyph.map_canonical_of_space h]
    exact .last _ h
  | cons v h hne _ ih =>
    rw [List.map_append, List.map_append, Glyph.map_canonical_of_space fun c hc => isSpace_of_isBlank (h c hc)]
    exact .cons _ h hne ih

theorem LaidOut.map_canonical (h : LaidOut words cs) :
    LaidOut (words.map (List.map Glyph.canonical)) (cs.map Glyph.canonical) := by
  obtain ⟨gap, rest, rfl, hgap, hrest⟩ := h
  refine ⟨gap, rest.map Glyph.canonical, ?_, hgap, hrest.map_canonical⟩
  rw [List.map_append, Glyph.map_canonical_of_space fun c hc => isSpace_of_isBlank (hgap c hc)]

/-- Every word stands alone, since a space or the end of the text comes after it. -/
theorem Spaced.spelled (h : Spaced (ls.map Prod.fst) cs) (halone : ∀ x ∈ ls, Alone x.1 x.2) (opened : Nat) :
    Spelled opened cs ls := by
  generalize hwords : ls.map Prod.fst = words at h
  induction h generalizing ls opened with
  | last v h =>
    obtain ⟨⟨w, l⟩, _, rfl, rfl, hmore⟩ := List.map_eq_cons_iff.mp hwords
    cases List.map_eq_nil_iff.mp hmore
    have hl := (List.forall_mem_singleton.mp halone).lexes fun c hc => h c (List.mem_of_mem_head? hc)
    exact .lexeme hl (.spaces _ h)
  | @cons v blanks vs cs h hne _ ih =>
    obtain ⟨⟨w, l⟩, more, rfl, rfl, hmore⟩ := List.map_eq_cons_iff.mp hwords
    obtain ⟨hfirst, hrest⟩ := List.forall_mem_cons.mp halone
    obtain ⟨d, blanks, rfl⟩ := List.exists_cons_of_ne_nil hne
    have hl : Lexes w l (d :: blanks ++ cs) := hfirst.lexes fun c hc => by
      cases hc
      exact isSpace_of_isBlank (h d List.mem_cons_self)
    exact .lexeme hl ((ih hrest _ hmore).blanks h)

theorem exists_respelled (halone : ∀ x ∈ ls, Alone x.1 x.2) (h : List.Forall₂ Respells (ls.map Prod.fst) words) :
    ∃ ls' : List (List Char × Lexeme), ls'.map Prod.fst = words.map (List.map Glyph.canonical) ∧
      (∀ x ∈ ls', Alone x.1 x.2) ∧ List.Forall₂ Lexeme.Alike (ls.map Prod.snd) (ls'.map Prod.snd) := by
  induction ls generalizing words with
  | nil =>
    cases h
    exact ⟨[], rfl, List.forall_mem_nil _, .nil⟩
  | cons x ls ih =>
    obtain ⟨hfirst, hmore⟩ := List.forall_mem_cons.mp halone
    cases h with
    | cons hw hws =>
      obtain ⟨l', hl', halike⟩ := hfirst.respell hw
      obtain ⟨ls', hwords, halone', halikes⟩ := ih hmore hws
      exact ⟨(_, l') :: ls', congrArg _ hwords, List.forall_mem_cons.mpr ⟨hl', halone'⟩, .cons halike halikes⟩

theorem Spelled.layout (h : Spelled opened cs ls) (hwords : List.Forall₂ Respells (ls.map Prod.fst) words)
    (hcs : LaidOut words rest) : ∃ ls', Spelled opened (rest.map Glyph.canonical) ls' ∧
      List.Forall₂ Lexeme.Alike (ls.map Prod.snd) (ls'.map Prod.snd) := by
  obtain ⟨ls', hls', halone, halike⟩ := exists_respelled h.alone hwords
  obtain ⟨gap, more, heq, hgap, hmore⟩ := hcs.map_canonical
  rw [heq]
  rw [← hls'] at hmore
  exact ⟨ls', (hmore.spelled halone opened).blanks hgap, halike⟩

theorem Spelled.ne_nil (h : Spelled opened cs ls) (hls : ls ≠ []) : cs ≠ [] := by
  cases h with
  | done => exact absurd rfl hls
  | skip => exact List.cons_ne_nil _ _
  | lexeme h => exact List.append_ne_nil_of_left_ne_nil h.spells.ne_nil _

theorem Spelled.lt (h : Spelled opened cs ls) : ∀ c ∈ cs, c < '\x7f' := by
  induction h with
  | done _ => exact List.forall_mem_nil _
  | skip h _ ih => exact List.forall_mem_cons.mpr ⟨Glyph.lt_of_space h.isSpace, ih⟩
  | lexeme h _ ih => exact List.forall_mem_append.mpr ⟨fun c hc => (h.spells.visible c hc).2, ih⟩

end Token
end Reckoner
