import Reckoner.Proofs.Token.Scanning

/-! Where tokens lie: one after another in the text, and counted from another byte where a slice of the text
is scanned on its own. -/
namespace Reckoner
open Lexeme

variable {k : UInt32} {a b s : Span} {ts us : List Token} {t : Token} {w cs after more : List Char} {l : Lexeme}

namespace Span

/-- The same bytes, counted from byte `k`. -/
def relativeTo (k : UInt32) (s : Span) : Span := ⟨s.start - k, s.stop - k⟩

/-- No part of the span lies before byte `k`. -/
structure NotBefore (k : UInt32) (s : Span) : Prop where
  start : k ≤ s.start
  stop : k ≤ s.stop

theorem merge_eq (a b : Span) : a.merge b =
    ⟨if a.start ≤ b.start then a.start else b.start, if a.stop ≤ b.stop then b.stop else a.stop⟩ := rfl

theorem NotBefore.merge (ha : a.NotBefore k) (hb : b.NotBefore k) : (a.merge b).NotBefore k := by
  rw [merge_eq]
  constructor
  · dsimp only
    split
    · exact ha.start
    · exact hb.start
  · dsimp only
    split
    · exact hb.stop
    · exact ha.stop

theorem sub_le_sub_iff {m n : UInt32} (hm : k ≤ m) (hn : k ≤ n) : m - k ≤ n - k ↔ m ≤ n := by
  rw [UInt32.le_iff_toNat_le, UInt32.le_iff_toNat_le, UInt32.toNat_sub_of_le _ _ hm,
    UInt32.toNat_sub_of_le _ _ hn]
  rw [UInt32.le_iff_toNat_le] at hm hn
  omega

/-- Where nothing lies before the byte that is counted from, spans are merged as before. -/
theorem merge_relativeTo (ha : a.NotBefore k) (hb : b.NotBefore k) :
    (a.relativeTo k).merge (b.relativeTo k) = (a.merge b).relativeTo k := by
  simp only [merge_eq, relativeTo, sub_le_sub_iff ha.start hb.start, sub_le_sub_iff ha.stop hb.stop,
    apply_ite (· - k)]

/-- The bytes between two offsets, counted from an offset before them. -/
theorem between_relativeTo (offset start stop : Nat) :
    (between (offset + start) (offset + stop)).relativeTo offset.toUInt32 = between start stop := by
  simp [between, relativeTo]

end Span

/-- The same token with its place counted from byte `k`. -/
def Token.relativeTo (k : UInt32) (t : Token) : Token := ⟨t.lexeme, t.span.relativeTo k⟩

/-- Tokens one after another, none of them empty. -/
structure Token.InOrder (ts : List Token) : Prop where
  nonempty : ∀ t ∈ ts, t.span.start < t.span.stop
  increasing : ts.Pairwise fun a b => a.span.stop ≤ b.span.start

/-- The span from the start of the first token to the end of the last one. -/
structure Span.Reaches (s : Span) (ts : List Token) : Prop where
  start : ts.head?.map (·.span.start) = some s.start
  stop : ts.getLast?.map (·.span.stop) = some s.stop

theorem Token.InOrder.sublist (h : InOrder ts) (hsub : us.Sublist ts) : InOrder us :=
  ⟨fun t ht => h.nonempty t (hsub.subset ht), h.increasing.sublist hsub⟩

/-- The tokens on both sides of an operator. -/
theorem Token.InOrder.operands (h : InOrder (ts ++ t :: us)) : InOrder ts ∧ InOrder us :=
  ⟨h.sublist (List.sublist_append_left ts (t :: us)),
    h.sublist ((List.sublist_cons_self t us).trans (List.sublist_append_right ts (t :: us)))⟩

namespace Span.Reaches

theorem singleton (t : Token) : t.span.Reaches [t] := ⟨rfl, rfl⟩

theorem exists_first (h : s.Reaches ts) : ∃ first rest, ts = first :: rest ∧ first.span.start = s.start := by
  obtain ⟨first, hfirst, hstart⟩ := Option.map_eq_some_iff.mp h.start
  obtain ⟨rest, rfl⟩ := List.head?_eq_some_iff.mp hfirst
  exact ⟨first, rest, rfl, hstart⟩

theorem exists_last (h : s.Reaches ts) : ∃ rest last, ts = rest ++ [last] ∧ last.span.stop = s.stop := by
  obtain ⟨last, hlast, hstop⟩ := Option.map_eq_some_iff.mp h.stop
  obtain ⟨rest, rfl⟩ := List.getLast?_eq_some_iff.mp hlast
  exact ⟨rest, last, rfl, hstop⟩

/-- All tokens lie within the span. -/
theorem covers (h : s.Reaches ts) (hts : Token.InOrder ts) (ht : t ∈ ts) :
    s.start ≤ t.span.start ∧ t.span.stop ≤ s.stop := by
  constructor
  · obtain ⟨first, rest, rfl, hstart⟩ := h.exists_first
    rw [← hstart]
    obtain rfl | ht := List.mem_cons.mp ht
    · exact UInt32.le_refl _
    · have hle := (List.pairwise_cons.mp hts.increasing).1 t ht
      exact UInt32.le_trans (UInt32.le_of_lt (hts.nonempty first List.mem_cons_self)) hle
  · obtain ⟨rest, last, rfl, hstop⟩ := h.exists_last
    rw [← hstop]
    obtain ht | ht := List.mem_append.mp ht
    · have hle := (List.pairwise_append.mp hts.increasing).2.2 t ht last (List.mem_singleton_self last)
      exact UInt32.le_trans hle (UInt32.le_of_lt (hts.nonempty last (by simp)))
    · cases List.mem_singleton.mp ht
      exact UInt32.le_refl _

/-- A span of some of the tokens lies within the span of all. -/
theorem within (h : a.Reaches us) (hs : s.Reaches ts) (hts : Token.InOrder ts) (hsub : us ⊆ ts) :
    s.start ≤ a.start ∧ a.stop ≤ s.stop := by
  obtain ⟨first, _, hfirst, hstart⟩ := h.exists_first
  obtain ⟨_, last, hlast, hstop⟩ := h.exists_last
  rw [← hstart, ← hstop]
  exact ⟨(hs.covers hts (hsub (by simp [hfirst]))).1, (hs.covers hts (hsub (by simp [hlast]))).2⟩

theorem nonempty (h : s.Reaches ts) (hts : Token.InOrder ts) : s.start < s.stop := by
  obtain ⟨first, _, hfirst, hstart⟩ := h.exists_first
  have hmem : first ∈ ts := by simp [hfirst]
  rw [← hstart]
  exact UInt32.lt_of_lt_of_le (hts.nonempty first hmem) (h.covers hts hmem).2

theorem before (ha : a.Reaches ts) (hb : b.Reaches us)
    (h : ∀ t ∈ ts, ∀ u ∈ us, t.span.stop ≤ u.span.start) : a.stop ≤ b.start := by
  obtain ⟨_, last, hlast, hstop⟩ := ha.exists_last
  obtain ⟨first, _, hfirst, hstart⟩ := hb.exists_first
  rw [← hstart, ← hstop]
  exact h last (by simp [hlast]) first (by simp [hfirst])

/-- Two spans are merged to the span of all tokens from the one to the other. -/
theorem merge (mid : List Token) (ha : a.Reaches ts) (hb : b.Reaches us) (h : Token.InOrder (ts ++ (mid ++ us))) :
    (a.merge b).Reaches (ts ++ (mid ++ us)) := by
  have hcross := (List.pairwise_append.mp h.increasing).2.2
  have hle : a.stop ≤ b.start := ha.before hb fun t ht u hu => hcross t ht u (List.mem_append_right mid hu)
  have halt := ha.nonempty (h.sublist (List.sublist_append_left ts (mid ++ us)))
  have hblt := hb.nonempty (h.sublist ((List.sublist_append_right mid us).trans (List.sublist_append_right ts _)))
  have hstart : a.start ≤ b.start := UInt32.le_trans (UInt32.le_of_lt halt) hle
  have hstop : a.stop ≤ b.stop := UInt32.le_trans hle (UInt32.le_of_lt hblt)
  rw [merge_eq, if_pos hstart, if_pos hstop]
  constructor
  · obtain ⟨first, rest, rfl, hfirst⟩ := ha.exists_first
    simp [hfirst]
  · obtain ⟨last, hlast, hb⟩ := Option.map_eq_some_iff.mp hb.stop
    rw [List.getLast?_append, List.getLast?_append, hlast]
    exact congrArg some hb

end Span.Reaches

theorem Tokenization.inOrder {before rest : List Char} (h : Tokenization before rest ts) : Token.InOrder ts where
  nonempty := h.nonempty
  increasing := h.increasing

theorem Tokenization.ne_endOfInput {before rest : List Char} (h : Tokenization before rest ts) :
    ∀ t ∈ ts, t.lexeme ≠ .endOfInput := by
  intro t ht
  obtain ⟨_, _, _, -, -, hl⟩ := h.stands t ht
  exact hl.spells.ne_endOfInput

/-- A lexeme stays the longest one when the text after it is cut off. -/
theorem Lexeme.Lexes.of_append (h : Lexes w l (after ++ more)) : Lexes w l after where
  spells := h.spells
  longest := ⟨h.longest.spelled, List.prefix_append w after, fun w' l' hl' hw' => by
    refine h.longest.length_le w' l' hl' (hw'.trans ?_)
    rw [← List.append_assoc]
    exact List.prefix_append (w ++ after) more⟩
  separate := ⟨h.separate.zeros, fun hw c hc => h.separate.apart hw c (by simp [Option.mem_def.mp hc])⟩

namespace Token

/-- Without line breaks no character but a blank is skipped. -/
theorem Skipped.isBlank {opened : Nat} {c : Char} (h : Skipped opened c after) (hc : ¬ isLineBreak c) : isBlank c :=
  h.resolve_right fun hbreak => hc hbreak.1

theorem byteCount_cons_space {c : Char} (hc : isSpace c) (cs : List Char) :
    byteCount (c :: cs) = 1 + byteCount cs := by
  obtain rfl | rfl | rfl | rfl | rfl := isSpace_iff.mp hc <;> rfl

namespace Scanned

variable {offset opened : Nat} {tokens : List Token}

/-- The tokens at the head are those of a piece of the text that ends with the last of them. -/
theorem take (ts : List Token) (h : Scanned offset opened cs (ts ++ us)) (hus : us ≠ [])
    (hcs : ∀ c ∈ cs, ¬ isLineBreak c) :
    ∃ w after, cs = w ++ after ∧ Scanned offset opened w (ts ++ [ending (offset + byteCount w)]) ∧
      (ts.getLast?.map (·.span.stop)).getD offset.toUInt32 = (offset + byteCount w).toUInt32 := by
  generalize htokens : ts ++ us = tokens at h
  induction h generalizing ts with
  | done offset opened =>
    obtain ⟨rfl, -⟩ : ts = [] ∧ us = [ending offset] := by
      cases ts <;> simp_all
    exact ⟨[], [], rfl, .done offset opened, rfl⟩
  | @skip offset opened c rest tokens hskip more ih =>
    cases ts with
    | nil =>
      -- a blank after the last of the tokens is left out
      exact ⟨[], c :: rest, rfl, .done offset opened, rfl⟩
    | cons t ts =>
      obtain ⟨hc, hrest⟩ := List.forall_mem_cons.mp hcs
      obtain ⟨w, after, rfl, hw, hstop⟩ := ih (t :: ts) hrest htokens
      have hcount : offset + byteCount (c :: w) = offset + 1 + byteCount w := by
        rw [byteCount_cons_space hskip.isSpace, Nat.add_assoc]
      refine ⟨c :: w, after, rfl, ?_, ?_⟩
      · rw [hcount]
        exact .skip (.inl (hskip.isBlank hc)) hw
      · rw [hcount, ← hstop]
        rfl
  | @lexeme offset opened w l after tokens hl more ih =>
    cases ts with
    | nil => exact ⟨[], w ++ after, rfl, .done offset opened, rfl⟩
    | cons t ts =>
      obtain ⟨rfl, htail⟩ := List.cons.inj htokens
      obtain ⟨v, after, rfl, hv, hstop⟩ := ih ts (fun c hc => hcs c (List.mem_append_right w hc)) htail
      have hcount : offset + byteCount (w ++ v) = offset + byteCount w + byteCount v := by
        rw [byteCount_append, Nat.add_assoc]
      refine ⟨w ++ v, after, (List.append_assoc ..).symm, ?_, ?_⟩
      · rw [hcount]
        exact .lexeme hl.of_append hv
      · rw [hcount, ← hstop, List.getLast?_cons]
        cases ts.getLast? <;> rfl

/-- The tokens from some token on are those of the text from the start of this one. -/
theorem drop (h : Scanned offset opened cs (ts ++ t :: us)) :
    ∃ before rest opened', cs = before ++ rest ∧ t.span.start = (offset + byteCount before).toUInt32 ∧
      Scanned (offset + byteCount before) opened' rest (t :: us) := by
  generalize htokens : ts ++ t :: us = tokens at h
  induction h generalizing ts with
  | done offset opened =>
    obtain ⟨rfl, rfl, rfl⟩ : ts = [] ∧ t = ending offset ∧ us = [] := by
      cases ts <;> simp_all
    exact ⟨[], [], opened, rfl, rfl, .done offset opened⟩
  | @skip offset opened c rest tokens hskip more ih =>
    obtain ⟨before, rest, opened', rfl, hstart, hrest⟩ := ih htokens
    have hcount : offset + byteCount (c :: before) = offset + 1 + byteCount before := by
      rw [byteCount_cons_space hskip.isSpace, Nat.add_assoc]
    exact ⟨c :: before, rest, opened', rfl, hcount ▸ hstart, hcount ▸ hrest⟩
  | @lexeme offset opened w l after tokens hl more ih =>
    cases ts with
    | nil =>
      obtain ⟨rfl, rfl⟩ := List.cons.inj htokens
      exact ⟨[], w ++ after, opened, rfl, rfl, .lexeme hl more⟩
    | cons u ts =>
      obtain ⟨before, rest, opened', rfl, hstart, hrest⟩ := ih (List.cons.inj htokens).2
      have hcount : offset + byteCount (w ++ before) = offset + byteCount w + byteCount before := by
        rw [byteCount_append, Nat.add_assoc]
      exact ⟨w ++ before, rest, opened', (List.append_assoc ..).symm, hcount ▸ hstart, hcount ▸ hrest⟩

/-- A text without line breaks has the same tokens wherever it stands, counted from its start. The parentheses
that are open before it are of no account, for they only let line breaks pass. -/
theorem relativeTo (start : Nat) (h : Scanned (offset + start) opened cs tokens) (hcs : ∀ c ∈ cs, ¬ isLineBreak c)
    (opened' : Nat) : Scanned start opened' cs (tokens.map (Token.relativeTo offset.toUInt32)) := by
  generalize hplace : offset + start = place at h
  induction h generalizing start opened' with
  | done =>
    subst hplace
    rw [List.map_singleton, Token.relativeTo, ending, Span.between_relativeTo]
    exact .done start opened'
  | skip hskip _ ih =>
    subst hplace
    obtain ⟨hc, hrest⟩ := List.forall_mem_cons.mp hcs
    exact .skip (.inl (hskip.isBlank hc)) (ih (start + 1) hrest opened' rfl)
  | @lexeme _ _ w l after tokens hl more ih =>
    subst hplace
    have hmore := ih (start + byteCount w) (fun c hc => hcs c (List.mem_append_right w hc))
      (l.parensAfter opened') (Nat.add_assoc ..).symm
    rw [List.map_cons, Token.relativeTo, Nat.add_assoc, Span.between_relativeTo]
    exact .lexeme hl hmore

/-- The tokens of a run stand in a piece of the text that has the same tokens on its own, with their places
counted from its start. -/
theorem slice {run : List Token} (h : Scanned 0 opened cs tokens) (hcs : ∀ c ∈ cs, ¬ isLineBreak c)
    (htokens : tokens = ts ++ (run ++ us)) (hus : us ≠ []) (hs : s.Reaches run) :
    ∃ before w after, cs = before ++ w ++ after ∧ s = Span.between (byteCount before) (byteCount (before ++ w)) ∧
      Scanned 0 0 w (run.map (Token.relativeTo s.start) ++ [ending (byteCount w)]) := by
  obtain ⟨first, others, rfl, hfirst⟩ := hs.exists_first
  rw [htokens, List.cons_append] at h
  obtain ⟨before, rest, opened', rfl, hstart, hrest⟩ := h.drop
  have hbreaks : ∀ c ∈ rest, ¬ isLineBreak c := fun c hc => hcs c (List.mem_append_right before hc)
  obtain ⟨w, after, rfl, hw, hstop⟩ := hrest.take (first :: others) hus hbreaks
  rw [Nat.zero_add] at hstart hw hstop
  have hplace : s = Span.between (byteCount before) (byteCount (before ++ w)) := by
    rw [hs.stop, Option.getD_some, ← byteCount_append] at hstop
    rw [Span.between, ← hstart, ← hstop, hfirst]
  refine ⟨before, w, after, (List.append_assoc ..).symm, hplace, ?_⟩
  have hmoved := relativeTo 0 hw (fun c hc => hbreaks c (List.mem_append_left after hc)) 0
  have hending : (ending (byteCount before + byteCount w)).relativeTo s.start = ending (byteCount w) := by
    rw [Token.relativeTo, ending, ← hfirst, hstart, Span.between_relativeTo]
    rfl
  rwa [← hstart, hfirst, List.map_append, List.map_singleton, hending] at hmoved

end Scanned
end Token
end Reckoner
