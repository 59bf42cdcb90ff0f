import Reckoner.Text.Lines
import Mathlib.Tactic.Common

/-! The lines of an input are those that its line feeds separate, and the text of a line is the one that is
encoded so. A text without control characters is one line. -/
namespace Reckoner.Text

/-- The lines of an input. A line ends before a line feed, or before a carriage return and a line feed; what
follows the last line feed is a line if there is any of it. -/
inductive Splits : List UInt8 → List (List UInt8) → Prop
  | nothing : Splits [] []
  | unended {line} (hne : line ≠ []) (h : 10 ∉ line) : Splits line [line]
  | fed {line rest ls} (h : 10 ∉ line) (hreturn : line.getLast? ≠ some 13) (hrest : Splits rest ls) :
      Splits (line ++ 10 :: rest) (line :: ls)
  | returned {line rest ls} (h : 10 ∉ line) (hrest : Splits rest ls) :
      Splits (line ++ 13 :: 10 :: rest) (line :: ls)

variable {text : String} {bytes line ending rest : List UInt8} {ls more : List (List UInt8)} {b : UInt8}

/-- The bytes of a text. -/
def encoded (text : String) : List UInt8 := text.toList.flatMap String.utf8EncodeChar

theorem toByteArray_encoded (text : String) : (encoded text).toByteArray = text.toByteArray :=
  String.utf8Encode_toList

theorem ofBytes?_eq_some_iff : ofBytes? bytes = some text ↔ encoded text = bytes := by
  rw [← List.toByteArray_inj, toByteArray_encoded, ofBytes?, String.fromUTF8?]
  constructor
  · intro h
    split at h
    · cases h
      rfl
    · cases h
  · intro h
    have hvalid : bytes.toByteArray.IsValidUTF8 := h ▸ text.isValidUTF8
    rw [dif_pos hvalid, Option.some_inj, ← String.toByteArray_inj]
    exact h.symm

theorem ofBytes?_encoded (text : String) : ofBytes? (encoded text) = some text := ofBytes?_eq_some_iff.mpr rfl

theorem ofBytes?_eq_none (h : ∀ text, encoded text ≠ bytes) : ofBytes? bytes = none := by
  rw [Option.eq_none_iff_forall_not_mem]
  intro text htext
  exact h text (ofBytes?_eq_some_iff.mp htext)

theorem encoded_append (text more : String) : encoded (text ++ more) = encoded text ++ encoded more := by
  simp [encoded]

/-- A byte below 128 is the character itself. -/
theorem toNat_eq_of_mem_utf8EncodeChar {c : Char} (h : b ∈ String.utf8EncodeChar c) (hb : b.toNat < 128) :
    c.toNat = b.toNat := by
  have hcode : c.toNat = c.val.toNat := rfl
  unfold String.utf8EncodeChar at h
  dsimp only at h
  split at h
  · rw [List.mem_singleton] at h
    subst h
    rw [hcode, UInt8.toNat_ofNat']
    omega
  · exfalso
    split at h
    · simp only [List.mem_cons, List.not_mem_nil, or_false] at h
      obtain rfl | rfl := h <;> simp only [UInt8.toNat_ofNat'] at hb <;> omega
    · split at h
      · simp only [List.mem_cons, List.not_mem_nil, or_false] at h
        obtain rfl | rfl | rfl := h <;> simp only [UInt8.toNat_ofNat'] at hb <;> omega
      · simp only [List.mem_cons, List.not_mem_nil, or_false] at h
        obtain rfl | rfl | rfl | rfl := h <;> simp only [UInt8.toNat_ofNat'] at hb <;> omega

theorem lines_fed (rest : List UInt8) : lines (10 :: rest) = [] :: lines rest := by
  rw [lines]

theorem lines_returned (rest : List UInt8) : lines (13 :: 10 :: rest) = [] :: lines rest := by
  rw [lines]

/-- A byte that ends no line stands in front of the first one. -/
theorem lines_cons (hb : b ≠ 10) (hreturn : b = 13 → bytes.head? ≠ some 10) :
    lines (b :: bytes) = match lines bytes with
      | [] => [[b]]
      | line :: more => (b :: line) :: more := by
  rw [lines.eq_def]
  split
  · next heq => cases heq
  · next heq =>
    cases heq
    exact absurd rfl (hreturn rfl)
  · next heq =>
    cases heq
    exact absurd rfl hb
  · next heq =>
    cases heq
    rfl

/-- Bytes without a line feed are in front of a line that would be empty without them; the last of them and
the first byte after them may not make up an end of line. -/
theorem lines_append (hending : lines ending = [] :: more) (h : 10 ∉ line)
    (hreturn : line.getLast? = some 13 → ending.head? ≠ some 10) : lines (line ++ ending) = line :: more := by
  induction line with
  | nil => exact hending
  | cons b line ih =>
    obtain ⟨hb, hline⟩ := List.ne_and_not_mem_of_not_mem_cons h
    have hhead : b = 13 → (line ++ ending).head? ≠ some 10 := by
      rintro rfl
      cases line with
      | nil => exact hreturn rfl
      | cons d line =>
        obtain ⟨hd, -⟩ := List.ne_and_not_mem_of_not_mem_cons hline
        simpa using hd.symm
    have hlast : line.getLast? = some 13 → ending.head? ≠ some 10 := by
      intro hline
      apply hreturn
      rw [List.getLast?_cons, hline]
      rfl
    rw [List.cons_append, lines_cons hb.symm hhead, ih hline hlast]

theorem lines_unended (hne : line ≠ []) (h : 10 ∉ line) : lines line = [line] := by
  induction line with
  | nil => exact absurd rfl hne
  | cons b line ih =>
    obtain ⟨hb, hline⟩ := List.ne_and_not_mem_of_not_mem_cons h
    have hhead : b = 13 → line.head? ≠ some 10 := fun _ hhead => hline (List.mem_of_mem_head? hhead)
    rw [lines_cons hb.symm hhead]
    cases line with
    | nil => rw [lines]
    | cons d line => rw [ih (List.cons_ne_nil d line) hline]

theorem Splits.lines_eq (h : Splits bytes ls) : lines bytes = ls := by
  induction h with
  | nothing => rw [lines]
  | unended hne h => exact lines_unended hne h
  | @fed line rest ls h hreturn hrest ih =>
    rw [← ih]
    exact lines_append (lines_fed rest) h fun hline => absurd hline hreturn
  | @returned line rest ls h hrest ih =>
    rw [← ih]
    exact lines_append (lines_returned rest) h fun _ => by simp

theorem not_mem_cons (hb : b ≠ 10) (h : 10 ∉ line) : 10 ∉ b :: line := by
  simp [hb.symm, h]

theorem Splits.cons (h : Splits bytes (line :: more)) (hb : b ≠ 10) (hreturn : b = 13 → bytes.head? ≠ some 10) :
    Splits (b :: bytes) ((b :: line) :: more) := by
  cases h with
  | unended hne h => exact .unended (List.cons_ne_nil b _) (not_mem_cons hb h)
  | returned h hrest => exact .returned (not_mem_cons hb h) hrest
  | @fed line _ _ h hlast hrest =>
    refine .fed (not_mem_cons hb h) ?_ hrest
    cases line with
    | nil =>
      intro heq
      cases heq
      exact hreturn rfl rfl
    | cons d line => rwa [List.getLast?_cons_cons]

/-- Every input has its lines. -/
theorem splits_lines (bytes : List UInt8) : Splits bytes (lines bytes) := by
  fun_induction lines bytes with
  | case1 => exact .nothing
  | case2 rest ih => exact .returned List.not_mem_nil ih
  | case3 rest ih => exact .fed List.not_mem_nil nofun ih
  | case4 b rest hreturn hb hrest ih =>
    rw [hrest] at ih
    cases ih
    exact .unended (List.cons_ne_nil b []) (not_mem_cons hb List.not_mem_nil)
  | case5 b rest hreturn hb line more hrest ih =>
    rw [hrest] at ih
    refine ih.cons hb fun hb hhead => ?_
    obtain ⟨after, hafter⟩ := List.head?_eq_some_iff.mp hhead
    exact hreturn after hb hafter

theorem splits_iff : Splits bytes ls ↔ lines bytes = ls :=
  ⟨Splits.lines_eq, fun h => h ▸ splits_lines bytes⟩

instance (bytes : List UInt8) (ls : List (List UInt8)) : Decidable (Splits bytes ls) :=
  decidable_of_iff _ splits_iff.symm

example : Splits [97, 13, 10, 10, 98, 13] [[97], [], [98, 13]] := by decide

/-- An input that holds texts line by line, up to its end or to a line that is no text. -/
structure Holds (bytes : List UInt8) (texts : List String) (rest : List (List UInt8)) : Prop where
  lines : Splits bytes (texts.map encoded ++ rest)
  broken : ∀ line ∈ rest.head?, ∀ text, encoded text ≠ line

theorem exists_texts (ls : List (List UInt8)) :
    ∃ (texts : List String) (rest : List (List UInt8)), ls = texts.map encoded ++ rest ∧
      ∀ line ∈ rest.head?, ∀ text, encoded text ≠ line := by
  induction ls with
  | nil => exact ⟨[], [], rfl, nofun⟩
  | cons line ls ih =>
    by_cases htext : ∃ text, encoded text = line
    · obtain ⟨text, rfl⟩ := htext
      obtain ⟨texts, rest, rfl, hrest⟩ := ih
      exact ⟨text :: texts, rest, rfl, hrest⟩
    · refine ⟨[], line :: ls, rfl, ?_⟩
      rintro _ ⟨⟩ text heq
      exact htext ⟨text, heq⟩

theorem exists_holds (bytes : List UInt8) : ∃ texts rest, Holds bytes texts rest := by
  obtain ⟨texts, rest, hlines, hbroken⟩ := exists_texts (lines bytes)
  exact ⟨texts, rest, hlines ▸ splits_lines bytes, hbroken⟩

/-- The bytes of a text without control characters are no control characters either. -/
theorem le_of_mem_encoded (h : ∀ c ∈ text.toList, ' ' ≤ c) (hb : b ∈ encoded text) : 32 ≤ b.toNat := by
  obtain ⟨c, hc, hb⟩ := List.mem_flatMap.mp hb
  by_contra hlt
  have hcode := toNat_eq_of_mem_utf8EncodeChar hb (by omega)
  have hspace : 32 ≤ c.toNat := h c hc
  omega

/-- Texts without control characters, each with a line feed after it, are the lines of what they make up. -/
theorem splits_texts {texts : List String} (h : ∀ text ∈ texts, ∀ c ∈ text.toList, ' ' ≤ c) :
    Splits (encoded (String.join (texts.map (· ++ "\n")))) (texts.map encoded) := by
  induction texts with
  | nil => exact .nothing
  | cons text texts ih =>
    obtain ⟨htext, htexts⟩ := List.forall_mem_cons.mp h
    have hfeed : 10 ∉ encoded text := fun hb => absurd (le_of_mem_encoded htext hb) (by decide)
    have hreturn : (encoded text).getLast? ≠ some 13 := fun hlast =>
      absurd (le_of_mem_encoded htext (List.mem_of_getLast? hlast)) (by decide)
    have hbytes : encoded (String.join ((text :: texts).map (· ++ "\n"))) =
        encoded text ++ 10 :: encoded (String.join (texts.map (· ++ "\n"))) := by
      rw [List.map_cons, String.join_cons, encoded_append, encoded_append, List.append_assoc]
      rfl
    rw [hbytes]
    exact .fed hfeed hreturn (ih htexts)

end Reckoner.Text
