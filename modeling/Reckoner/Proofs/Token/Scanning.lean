import Reckoner.Proofs.Token.Cursor
import Reckoner.Proofs.Failure

/-! The tokens that are scanned are those of the tokenization of a text. -/
namespace Reckoner
open Lexeme Token

variable {before rest after w : List Char} {c : Char} {l : Lexeme} {ts : List Token}

/-- A text without parentheses leaves those before it open. -/
theorem Token.openAfter_append_of_forall (h : ∀ c ∈ w, ¬ Delimiter c) :
    openAfter (before ++ w) = openAfter before := by
  induction w generalizing before with
  | nil => rw [List.append_nil]
  | cons c w ih =>
    obtain ⟨hc, hw⟩ := List.forall_mem_cons.mp h
    obtain ⟨hopening, hclosing, -⟩ : c ≠ '(' ∧ c ≠ ')' ∧ c ≠ ',' := by simpa [Delimiter] using hc
    rw [List.append_cons, ih hw]
    simp [openAfter, hopening, hclosing]

/-- Lexemes open and close the parentheses that are in their spelling. -/
theorem Lexeme.Spells.openAfter_append (h : Spells w l) (before : List Char) :
    openAfter (before ++ w) = l.parensAfter (openAfter before) := by
  cases h with
  | int h => exact openAfter_append_of_forall (numeric_not_delimiter h.numeric)
  | float h => exact openAfter_append_of_forall (numeric_not_delimiter h)
  | reserved h | name h => exact openAfter_append_of_forall h.not_delimiter
  | symbol h =>
    rw [openAfter, List.foldl_append]
    cases l <;> cases h <;> rfl

namespace Token

/-- The end of input of a text of this many bytes. -/
def ending (length : Nat) : Token := ⟨.endOfInput, Span.between length length⟩

theorem covers_between (hsize : byteCount (before ++ w) < UInt32.size) :
    Covers (Span.between (byteCount before) (byteCount (before ++ w))) before w := by
  have hle : byteCount before < UInt32.size := by
    rw [byteCount_append] at hsize
    omega
  exact ⟨Nat.mod_eq_of_lt hle, Nat.mod_eq_of_lt hsize⟩

theorem eq_between {s : Span} (h : Covers s before w) :
    s = Span.between (byteCount before) (byteCount (before ++ w)) := by
  rw [← h.1, ← h.2, Span.between]
  simp

theorem scanFrom_skipped {offset opened : Nat} (h : Skipped opened c rest) :
    scanFrom offset opened (c :: rest) = scanFrom (offset + 1) opened rest := by
  rw [scanFrom]
  split
  · rfl
  next hblank =>
  rw [if_pos ((Bool.or_eq_true_iff.mp h.isSpace).resolve_left hblank), if_neg]
  rintro ⟨rfl, hall⟩
  obtain h | h := (h.resolve_left hblank).2
  · exact absurd h (Nat.lt_irrefl 0)
  · exact hall (List.all_eq_true.mpr h)

theorem scanFrom_lineBreak {offset opened : Nat} (hc : isSpace c) (h : ¬ Skipped opened c rest) :
    scanFrom offset opened (c :: rest) = .error (Fault.lineBreak.at (Span.between offset (offset + 1))) := by
  obtain ⟨hblank, hbreak⟩ := not_or.mp h
  have hc := (Bool.or_eq_true_iff.mp hc).resolve_left hblank
  obtain ⟨hopened, hall⟩ := not_or.mp (not_and.mp hbreak hc)
  rw [scanFrom, if_neg hblank, if_pos hc, if_pos]
  exact ⟨Nat.eq_zero_of_not_pos hopened, fun h => hall (List.all_eq_true.mp h)⟩

theorem scanFrom_lexeme {offset opened : Nat} (h : Lexes w l after) :
    scanFrom offset opened (w ++ after) = do
      let tokens ← scanFrom (offset + byteCount w) (l.parensAfter opened) after
      return ⟨l, Span.between offset (offset + byteCount w)⟩ :: tokens := by
  obtain ⟨c, rest, rfl⟩ := List.exists_cons_of_ne_nil h.spells.ne_nil
  have hspace := h.spells.not_isSpace
  rw [isSpace, Bool.or_eq_true, not_or] at hspace
  have hscan : scan c (rest ++ after) = (.ok l, c :: rest) := scan_eq_ok_iff.mpr ⟨after, rfl, h⟩
  rw [List.cons_append, scanFrom, if_neg hspace.1, if_neg hspace.2]
  simp [hscan]

theorem scanFrom_fault (offset opened : Nat) (hc : ¬ isSpace c)
    (h : ∀ w l after, c :: rest = w ++ after → ¬ Lexes w l after) :
    ∃ fault, (scan c rest).1 = .error fault ∧ scanFrom offset opened (c :: rest) =
      .error (fault.at (Span.between offset (offset + byteCount (scan c rest).2))) := by
  rw [isSpace, Bool.or_eq_true, not_or] at hc
  cases hscan : (scan c rest).1 with
  | ok l =>
    obtain ⟨after, heq, hl⟩ := scan_eq_ok_iff.mp (Prod.ext hscan rfl)
    exact absurd hl (h _ _ _ heq)
  | error fault =>
    refine ⟨fault, rfl, ?_⟩
    rw [scanFrom, if_neg hc.1, if_neg hc.2]
    simp [hscan]

/-- A run of the scanner over some text up to its end, from a byte offset and a number of open parentheses. -/
inductive Scanned : Nat → Nat → List Char → List Token → Prop
  | done (offset opened : Nat) : Scanned offset opened [] [ending offset]
  | skip {offset opened c rest tokens} (h : Skipped opened c rest)
      (more : Scanned (offset + 1) opened rest tokens) : Scanned offset opened (c :: rest) tokens
  | lexeme {offset opened w l after tokens} (h : Lexes w l after)
      (more : Scanned (offset + byteCount w) (l.parensAfter opened) after tokens) :
      Scanned offset opened (w ++ after) (⟨l, Span.between offset (offset + byteCount w)⟩ :: tokens)

theorem Scanned.scanFrom_eq {offset opened : Nat} {tokens : List Token}
    (h : Scanned offset opened rest tokens) : scanFrom offset opened rest = .ok tokens := by
  induction h with
  | done offset opened =>
    rw [scanFrom]
    rfl
  | skip h _ ih => rw [scanFrom_skipped h, ih]
  | lexeme h _ ih =>
    rw [scanFrom_lexeme h, ih]
    rfl

/-- Tokens are found by a run of the scanner, and by that only. -/
theorem scanFrom_eq_ok_iff {offset opened : Nat} {tokens : List Token} :
    scanFrom offset opened rest = .ok tokens ↔ Scanned offset opened rest tokens := by
  refine ⟨fun h => ?_, Scanned.scanFrom_eq⟩
  induction hn : rest.length using Nat.strong_induction_on generalizing offset opened rest tokens with
  | _ n ih =>
  subst hn
  cases rest with
  | nil =>
    rw [scanFrom] at h
    cases h
    exact .done offset opened
  | cons c rest =>
  by_cases hskip : Skipped opened c rest
  · rw [scanFrom_skipped hskip] at h
    exact .skip hskip (ih rest.length (Nat.lt_succ_self _) h rfl)
  by_cases hc : isSpace c
  · rw [scanFrom_lineBreak hc hskip] at h
    cases h
  by_cases hlex : ∃ w l after, c :: rest = w ++ after ∧ Lexes w l after
  · obtain ⟨w, l, after, heq, hl⟩ := hlex
    rw [heq, scanFrom_lexeme hl] at h
    obtain ⟨more, hmore, htokens⟩ := bind_eq_ok_iff.mp h
    cases htokens
    rw [heq] at ih ⊢
    exact .lexeme hl (ih after.length hl.length_lt hmore rfl)
  · obtain ⟨fault, -, hs⟩ := scanFrom_fault offset opened hc fun w l after heq hl => hlex ⟨w, l, after, heq, hl⟩
    rw [hs] at h
    cases h

/-- The last token of a run is the end of input, and no other one is. -/
theorem Scanned.shape {offset opened : Nat} {tokens : List Token}
    (h : Scanned offset opened rest tokens) :
    ∃ ts eof, tokens = ts ++ [eof] ∧ (∀ t ∈ ts, t.lexeme ≠ .endOfInput) ∧ eof.lexeme = .endOfInput := by
  induction h with
  | done offset opened => exact ⟨[], _, rfl, List.forall_mem_nil _, rfl⟩
  | skip _ _ ih => exact ih
  | lexeme h _ ih =>
    obtain ⟨ts, eof, rfl, hts, heof⟩ := ih
    exact ⟨_ :: ts, eof, rfl, List.forall_mem_cons.mpr ⟨h.spells.ne_endOfInput, hts⟩, heof⟩

theorem scanFrom_shape {offset opened : Nat} {tokens : List Token}
    (h : scanFrom offset opened rest = .ok tokens) :
    ∃ ts eof, tokens = ts ++ [eof] ∧ (∀ t ∈ ts, t.lexeme ≠ .endOfInput) ∧ eof.lexeme = .endOfInput :=
  (scanFrom_eq_ok_iff.mp h).shape

theorem openAfter_append_space (hc : isSpace c) : openAfter (before ++ [c]) = openAfter before := by
  apply openAfter_append_of_forall
  rw [List.forall_mem_singleton]
  rintro (rfl | rfl | rfl) <;> exact absurd hc (by decide)

theorem byteCount_append_space (hc : isSpace c) : byteCount (before ++ [c]) = byteCount before + 1 := by
  rw [byteCount_append]
  obtain rfl | rfl | rfl | rfl | rfl := isSpace_iff.mp hc <;> rfl

/-- A run after some text finds the tokens of a tokenization. -/
theorem Scanned.tokenization {offset opened : Nat} {tokens : List Token}
    (h : Scanned offset opened rest tokens) (before : List Char) (hoffset : offset = byteCount before)
    (hopened : opened = openAfter before) (hsize : byteCount (before ++ rest) < UInt32.size) :
    ∃ ts, tokens = ts ++ [ending (byteCount (before ++ rest))] ∧ Tokenization before rest ts := by
  induction h generalizing before with
  | done offset opened =>
    subst hoffset
    rw [List.append_nil]
    exact ⟨[], rfl, Tokenization.nil_iff.mpr rfl⟩
  | @skip offset opened c rest tokens hskip _ ih =>
    subst hoffset hopened
    rw [List.append_cons] at hsize ⊢
    obtain ⟨ts, rfl, ht⟩ := ih (before ++ [c]) (byteCount_append_space hskip.isSpace).symm
      (openAfter_append_space hskip.isSpace).symm hsize
    exact ⟨ts, rfl, ht.skip hskip⟩
  | @lexeme offset opened w l after tokens hl _ ih =>
    subst hoffset hopened
    rw [← List.append_assoc] at hsize ⊢
    obtain ⟨ts, rfl, ht⟩ := ih (before ++ w) (byteCount_append before w).symm
      (hl.spells.openAfter_append before).symm hsize
    have hend : byteCount (before ++ w) < UInt32.size := by
      rw [byteCount_append] at hsize
      omega
    rw [← byteCount_append]
    exact ⟨_, rfl, ht.cons hl (covers_between hend)⟩

/-- The tokens of a tokenization are found by a run. -/
theorem scanned_of_tokenization (h : Tokenization before rest ts) :
    Scanned (byteCount before) (openAfter before) rest (ts ++ [ending (byteCount (before ++ rest))]) := by
  induction hn : rest.length using Nat.strong_induction_on generalizing before rest ts with
  | _ n ih =>
  subst hn
  cases rest with
  | nil =>
    rw [Tokenization.nil_iff.mp h, List.append_nil]
    exact .done _ _
  | cons c rest =>
  by_cases hc : isSpace c
  · obtain ⟨hskip, h⟩ := h.of_space hc
    have hmore := ih rest.length (Nat.lt_succ_self _) h rfl
    rw [byteCount_append_space hc, openAfter_append_space hc, ← List.append_cons] at hmore
    exact .skip hskip hmore
  · obtain ⟨w, after, ⟨l, span⟩, us, heq, rfl, hl, hcov, h⟩ := h.of_not_space hc
    rw [heq] at ih ⊢
    have hmore := ih after.length hl.length_lt h rfl
    rw [hl.spells.openAfter_append, byteCount_append before w, List.append_assoc] at hmore
    cases eq_between hcov
    rw [byteCount_append before w]
    exact .lexeme hl hmore

theorem isValid_byteCount {text : String} (h : text.toList = before ++ rest) :
    String.Pos.Raw.IsValid text ⟨byteCount before⟩ := by
  refine String.Pos.Raw.isValid_iff_exists_append.mpr ⟨String.ofList before, String.ofList rest, ?_, ?_⟩
  · rw [← String.ofList_append, ← h, String.ofList_toList]
  · rw [← String.toList_ofList (l := before), byteCount_toList, String.ofList_toList]
    rfl

/-- A text has tokens exactly if it has a tokenization, and these are its tokens, with the end of input
after them. Wherever a lexeme is scanned, characters are taken as a whole and numerals have values, and a cursor
over the bytes of the text finds the same tokens or the same fault. -/
theorem ofText_eq_ok_iff_tokenization (text : String) :
    (text.utf8ByteSize < UInt32.size → ∀ tokens, ofText text = .ok tokens ↔
      ∃ ts, tokens = ts ++ [ending text.utf8ByteSize] ∧ (∀ t ∈ ts, t.lexeme ≠ .endOfInput) ∧
        Tokenization [] text.toList ts) ∧
    (text.utf8ByteSize < UInt32.size → (¬ ∃ ts, Tokenization [] text.toList ts) →
      ∃ d, ofText text = .error d) ∧
    (∀ before c rest, text.toList = before ++ c :: rest →
      String.Pos.Raw.IsValid text ⟨byteCount before⟩ ∧
      String.Pos.Raw.IsValid text ⟨byteCount (before ++ (scan c rest).2)⟩ ∧
      (scan c rest).2 <+: c :: rest ∧
      ∀ spelling, (scan c rest).1 ≠ .error (.unreadableNumber spelling)) ∧
    Cursor.ofText text = some (ofText text) := by
  have hiff (hsize : text.utf8ByteSize < UInt32.size) (tokens) : ofText text = .ok tokens ↔
      ∃ ts, tokens = ts ++ [ending text.utf8ByteSize] ∧ Tokenization [] text.toList ts := by
    rw [← byteCount_toList] at hsize ⊢
    rw [ofText, scanFrom_eq_ok_iff]
    constructor
    · intro h
      exact h.tokenization [] rfl rfl hsize
    · rintro ⟨ts, rfl, h⟩
      exact scanned_of_tokenization h
  refine ⟨fun hsize tokens => ?_, fun hsize hno => ?_, fun before c rest htext => ?_, Cursor.ofText_eq text⟩
  · rw [hiff hsize]
    constructor
    · rintro ⟨ts, rfl, h⟩
      refine ⟨ts, rfl, fun t ht => ?_, h⟩
      obtain ⟨_, _, _, -, -, hl⟩ := h.stands t ht
      exact hl.spells.ne_endOfInput
    · rintro ⟨ts, rfl, -, h⟩
      exact ⟨ts, rfl, h⟩
  · cases h : ofText text with
    | error d => exact ⟨d, rfl⟩
    | ok tokens =>
      obtain ⟨ts, -, ht⟩ := (hiff hsize tokens).mp h
      exact absurd ⟨ts, ht⟩ hno
  · obtain ⟨after, hafter⟩ := (scan_isPrefix c rest).1
    have hstop : text.toList = before ++ (scan c rest).2 ++ after := by
      rw [htext, List.append_assoc, hafter]
    exact ⟨isValid_byteCount htext, isValid_byteCount hstop, ⟨after, hafter⟩, scan_ne_unreadable c rest⟩

/-- Within parentheses a line break separates two tokens. -/
theorem line_break_in_parens_tokenized : "(12\n+x)".utf8ByteSize < UInt32.size ∧
    Tokenization [] "(12\n+x)".toList
      [⟨.leftParen, ⟨0, 1⟩⟩, ⟨.int 12, ⟨1, 3⟩⟩, ⟨.plus, ⟨4, 5⟩⟩, ⟨.name "x", ⟨5, 6⟩⟩,
        ⟨.rightParen, ⟨6, 7⟩⟩] := by
  have hsize : "(12\n+x)".utf8ByteSize < UInt32.size := by decide
  refine ⟨hsize, ?_⟩
  obtain ⟨ts, heq, -, h⟩ := ((ofText_eq_ok_iff_tokenization _).1 hsize _).mp
    (by cbv : ofText "(12\n+x)" = .ok ([⟨.leftParen, ⟨0, 1⟩⟩, ⟨.int 12, ⟨1, 3⟩⟩, ⟨.plus, ⟨4, 5⟩⟩,
      ⟨.name "x", ⟨5, 6⟩⟩, ⟨.rightParen, ⟨6, 7⟩⟩] ++ [⟨.endOfInput, ⟨7, 7⟩⟩]))
  obtain ⟨rfl, -⟩ := List.append_inj' heq rfl
  exact h

end Token
end Reckoner
