import Reckoner.Proofs.Token.Spelling

/-! The tokens of a text apart from how they are scanned: every token is the longest lexeme at its place,
and the tokens leave nothing but blanks between them. -/
namespace Reckoner
open Lexeme Token

variable {before rest after w gap cs : List Char} {c : Char} {l : Lexeme} {t : Token} {ts us : List Token}

namespace Token

@[simp] theorem byteCount_append (cs ds : List Char) :
    byteCount (cs ++ ds) = byteCount cs + byteCount ds := by
  induction cs with
  | nil => simp [byteCount]
  | cons c cs ih => simp [byteCount, ih, Nat.add_assoc]

theorem byteCount_pos (h : cs ≠ []) : 0 < byteCount cs := by
  obtain ⟨c, cs, rfl⟩ := List.exists_cons_of_ne_nil h
  exact Nat.add_pos_left c.utf8Size_pos _

theorem byteCount_toList (text : String) : byteCount text.toList = text.utf8ByteSize := by
  have h (cs : List Char) : byteCount cs = (String.ofList cs).utf8ByteSize := by
    induction cs with
    | nil => rfl
    | cons c cs ih => simp [byteCount, ih, String.utf8ByteSize_append]
  rw [h, String.ofList_toList]

/-- The parentheses that are open after some text. One that closes without a partner does not count. -/
def openAfter (cs : List Char) : Nat :=
  cs.foldl (fun n c => if c = '(' then n + 1 else if c = ')' then n - 1 else n) 0

/-- The characters `w` after the text `before` lie on these bytes. -/
def Covers (s : Span) (before w : List Char) : Prop :=
  s.start.toNat = byteCount before ∧ s.stop.toNat = byteCount (before ++ w)

/-- A token at its place in the text after `before`. -/
def Stands (t : Token) (before rest : List Char) : Prop :=
  ∃ gap w after, rest = gap ++ w ++ after ∧ Covers t.span (before ++ gap) w ∧ Lexes w t.lexeme after

/-- A character that may stand outside all tokens, where this many parentheses are open. -/
def Skipped (opened : Nat) (c : Char) (after : List Char) : Prop :=
  isBlank c ∨ isLineBreak c ∧ (0 < opened ∨ ∀ d ∈ after, isSpace d)

/-- No token covers the character at this byte. -/
def Outside (ts : List Token) (offset : Nat) : Prop :=
  ∀ t ∈ ts, ¬ (t.span.start.toNat ≤ offset ∧ offset < t.span.stop.toNat)

end Token

/-- The tokens of the text `rest` that comes after the text `before`. -/
structure Tokenization (before rest : List Char) (ts : List Token) : Prop where
  stands : ∀ t ∈ ts, t.Stands before rest
  nonempty : ∀ t ∈ ts, t.span.start.toNat < t.span.stop.toNat
  increasing : ts.Pairwise fun a b => a.span.stop.toNat ≤ b.span.start.toNat
  skipped : ∀ gap c after, rest = gap ++ c :: after → Outside ts (byteCount (before ++ gap)) →
    Skipped (openAfter (before ++ gap)) c after

theorem Token.Skipped.isSpace {opened : Nat} (h : Skipped opened c after) : isSpace c :=
  Bool.or_eq_true_iff.mpr (h.imp_right And.left)

namespace Token.Stands

theorem le_start (h : t.Stands before rest) : byteCount before ≤ t.span.start.toNat := by
  obtain ⟨gap, w, after, -, ⟨hstart, -⟩, -⟩ := h
  rw [hstart, byteCount_append]
  exact Nat.le_add_right _ _

theorem of_append (h : t.Stands (before ++ w) after) : t.Stands before (w ++ after) := by
  obtain ⟨gap, w', after', rfl, hc, hl⟩ := h
  exact ⟨w ++ gap, w', after', by simp, by simpa using hc, hl⟩

/-- A token that starts late enough stands in what is left of the text. -/
theorem append (h : t.Stands before (w ++ after)) (hfar : byteCount (before ++ w) ≤ t.span.start.toNat) :
    t.Stands (before ++ w) after := by
  obtain ⟨gap, w', after', heq, ⟨hstart, hstop⟩, hl⟩ := h
  rw [hstart, byteCount_append, byteCount_append] at hfar
  rw [List.append_assoc] at heq
  obtain ⟨more, rfl, hmore⟩ | ⟨left, rfl, hleft⟩ := List.append_eq_append_iff.mp heq
  · exact ⟨more, w', after', by simp [hmore], ⟨by simpa using hstart, by simpa using hstop⟩, hl⟩
  · have hnil : left = [] := by
      by_contra hne
      have := byteCount_pos hne
      rw [byteCount_append] at hfar
      omega
    subst hnil
    exact ⟨[], w', after', by simpa using hleft.symm, ⟨by simpa using hstart, by simpa using hstop⟩, hl⟩

theorem of_space (hc : isSpace c) (h : t.Stands before (c :: rest)) : t.Stands (before ++ [c]) rest := by
  obtain ⟨gap, w, after, heq, hcov, hl⟩ := h
  cases gap with
  | nil =>
    obtain ⟨d, w, rfl⟩ := List.exists_cons_of_ne_nil hl.spells.ne_nil
    obtain ⟨rfl, -⟩ := List.cons.inj heq
    exact absurd hc hl.spells.not_isSpace
  | cons d gap =>
    obtain ⟨rfl, rfl⟩ := List.cons.inj heq
    exact ⟨gap, w, after, rfl, by simpa using hcov, hl⟩

/-- The token that starts at once takes the head of the text. -/
theorem lexes_of_start (h : t.Stands before rest) (hstart : t.span.start.toNat ≤ byteCount before) :
    ∃ w after, rest = w ++ after ∧ Covers t.span before w ∧ Lexes w t.lexeme after := by
  obtain ⟨gap, w, after, rfl, hc, hl⟩ := h
  have hgap : gap = [] := by
    by_contra hne
    have := byteCount_pos hne
    rw [hc.1, byteCount_append] at hstart
    omega
  subst hgap
  exact ⟨w, after, rfl, by simpa using hc, hl⟩

end Token.Stands

namespace Tokenization

theorem nil_iff : Tokenization before [] ts ↔ ts = [] := by
  constructor
  · intro h
    apply List.eq_nil_iff_forall_not_mem.mpr
    intro t ht
    obtain ⟨gap, w, after, hnil, -, hl⟩ := h.stands t ht
    have hw : w ≠ [] := hl.spells.ne_nil
    simp at hnil
    exact hw hnil.2.1
  · rintro rfl
    exact ⟨by simp, by simp, .nil, by simp⟩

/-- The tokens after some characters, if those before end within them. -/
theorem drop (us : List Token) (h : Tokenization before (w ++ after) (us ++ ts))
    (hus : ∀ t ∈ us, t.span.stop.toNat ≤ byteCount (before ++ w))
    (hts : ∀ t ∈ ts, byteCount (before ++ w) ≤ t.span.start.toNat) :
    Tokenization (before ++ w) after ts where
  stands t ht := (h.stands t (List.mem_append_right _ ht)).append (hts t ht)
  nonempty t ht := h.nonempty t (List.mem_append_right _ ht)
  increasing := (List.pairwise_append.mp h.increasing).2.1
  skipped gap c rest heq hout := by
    rw [List.append_assoc] at hout ⊢
    refine h.skipped (w ++ gap) c rest (by simp [heq]) fun t ht => ?_
    obtain ht | ht := List.mem_append.mp ht
    · have hstop := hus t ht
      rw [← List.append_assoc, byteCount_append (before ++ w)]
      omega
    · exact hout t ht

/-- A character that is skipped comes before the tokens of the rest. -/
theorem skip (hskip : Skipped (openAfter before) c rest) (h : Tokenization (before ++ [c]) rest ts) :
    Tokenization before (c :: rest) ts where
  stands t ht := (h.stands t ht).of_append (w := [c])
  nonempty := h.nonempty
  increasing := h.increasing
  skipped gap d after heq hout := by
    cases gap with
    | nil =>
      cases heq
      simpa using hskip
    | cons _ gap =>
      cases heq
      simpa using h.skipped gap d after rfl (by simpa using hout)

/-- A token that is the longest lexeme comes before the tokens of the rest. -/
theorem cons (hl : Lexes w t.lexeme after) (hcov : Covers t.span before w)
    (h : Tokenization (before ++ w) after ts) : Tokenization before (w ++ after) (t :: ts) where
  stands := List.forall_mem_cons.mpr ⟨⟨[], w, after, rfl, by simpa using hcov, hl⟩,
    fun a ha => (h.stands a ha).of_append⟩
  nonempty := by
    have hpos := byteCount_pos hl.spells.ne_nil
    refine List.forall_mem_cons.mpr ⟨?_, h.nonempty⟩
    rw [hcov.1, hcov.2, byteCount_append]
    omega
  increasing := by
    refine List.pairwise_cons.mpr ⟨fun a ha => ?_, h.increasing⟩
    rw [hcov.2]
    exact (h.stands a ha).le_start
  skipped gap d more hgap hout := by
    have hrest : Outside ts (byteCount (before ++ gap)) := fun a ha => hout a (List.mem_cons_of_mem t ha)
    obtain ⟨left, rfl, hleft⟩ | ⟨gap, rfl, hmore⟩ := List.append_eq_append_iff.mp hgap.symm
    · cases left with
      | nil =>
        rw [List.append_nil] at h
        simpa using h.skipped [] d more hleft.symm (by simpa using hrest)
      | cons d' left =>
        -- the character lies within the first token
        have hwithin := byteCount_pos (List.cons_ne_nil d' left)
        refine absurd ⟨?_, ?_⟩ (hout t (by simp))
        · rw [hcov.1, byteCount_append]
          omega
        · rw [hcov.2, ← List.append_assoc, byteCount_append (before ++ gap)]
          omega
    · rw [← List.append_assoc] at hrest ⊢
      exact h.skipped gap d more hmore hrest

theorem of_space (hc : isSpace c) (h : Tokenization before (c :: rest) ts) :
    Skipped (openAfter before) c rest ∧ Tokenization (before ++ [c]) rest ts := by
  have hfar (t) (ht : t ∈ ts) : byteCount (before ++ [c]) ≤ t.span.start.toNat :=
    ((h.stands t ht).of_space hc).le_start
  have hout : Outside ts (byteCount before) := fun t ht => by
    have hle := hfar t ht
    have hpos := byteCount_pos (List.cons_ne_nil c [])
    rw [byteCount_append] at hle
    omega
  have hskip := h.skipped [] c rest rfl (by simpa using hout)
  rw [List.append_nil] at hskip
  exact ⟨hskip, drop (w := [c]) [] h (by simp) hfar⟩

/-- Where no character can be skipped, the first token starts. -/
theorem of_not_space (hc : ¬ isSpace c) (h : Tokenization before (c :: rest) ts) :
    ∃ w after t us, c :: rest = w ++ after ∧ ts = t :: us ∧ Lexes w t.lexeme after ∧
      Covers t.span before w ∧ Tokenization (before ++ w) after us := by
  have hfirst : ∃ t ∈ ts, t.span.start.toNat ≤ byteCount before ∧ byteCount before < t.span.stop.toNat := by
    by_contra hout
    exact hc (h.skipped [] c rest rfl fun t ht hin => hout ⟨t, ht, by simpa using hin⟩).isSpace
  obtain ⟨t, ht, hstart, hstop⟩ := hfirst
  obtain ⟨us, vs, rfl⟩ := List.append_of_mem ht
  obtain ⟨-, hinc, hcross⟩ := List.pairwise_append.mp h.increasing
  obtain ⟨w, after, heq, hcov, hl⟩ := (h.stands t ht).lexes_of_start hstart
  have hus : us = [] := by
    -- a token before this one would end where the text starts
    apply List.eq_nil_iff_forall_not_mem.mpr
    intro a ha
    have hmem := List.mem_append_left (t :: vs) ha
    have := hcross a ha t (by simp)
    have := h.nonempty a hmem
    have := (h.stands a hmem).le_start
    omega
  subst hus
  rw [heq] at h
  refine ⟨w, after, t, vs, heq, rfl, hl, hcov, drop [t] h (by simp [hcov.2]) fun a ha => ?_⟩
  rw [← hcov.2]
  exact (List.pairwise_cons.mp hinc).1 a ha

end Tokenization

end Reckoner
