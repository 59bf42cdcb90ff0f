import Reckoner.Proofs.Json.RoundTrip

/-! A text that is read as a value is read as this value as a part of a longer text, blanks around it
included: what is scanned of it does not depend on the mark after it, and what is read does not depend on
the frames below it. -/
namespace Reckoner.Json
open Decimal

variable {cs ds rest after : List Char} {negative : Bool} {ss : List Symbol} {v : Json}

/-- The run at the head of a text does not reach into a text that does not go on with it. -/
theorem takeWhile_append_end {P : Char → Bool} (cs : List Char) (hend : ∀ c ∈ rest.head?, ¬ P c) :
    (cs ++ rest).takeWhile P = cs.takeWhile P := by
  induction cs with
  | nil => exact takeWhile_run (List.forall_mem_nil _) hend
  | cons c cs ih =>
    by_cases hc : P c
    · rw [List.cons_append, List.takeWhile_cons_of_pos hc, List.takeWhile_cons_of_pos hc, ih]
    · rw [List.cons_append, List.takeWhile_cons_of_neg hc, List.takeWhile_cons_of_neg hc]

theorem dropWhile_append_end {P : Char → Bool} (cs : List Char) (hend : ∀ c ∈ rest.head?, ¬ P c) :
    (cs ++ rest).dropWhile P = cs.dropWhile P ++ rest := by
  induction cs with
  | nil => exact dropWhile_run (List.forall_mem_nil _) hend
  | cons c cs ih =>
    by_cases hc : P c
    · rw [List.cons_append, List.dropWhile_cons_of_pos hc, List.dropWhile_cons_of_pos hc, ih]
    · rw [List.cons_append, List.dropWhile_cons_of_neg hc, List.dropWhile_cons_of_neg hc]
      rfl

theorem scanPieces_escaped {letter c : Char} (h : escapes.lookup letter = some c) (found : List Piece)
    (rest : List Char) : scanPieces found ('\\' :: letter :: rest) = scanPieces (.char c :: found) rest := by
  rw [scanPieces.eq_def]
  split
  · next heq => cases heq
  · next heq => cases heq
  · next heq =>
    cases heq
    have hnone : escapes.lookup 'u' = none := rfl
    cases hnone.symm.trans h
  · next heq =>
    cases heq
    rw [h]
  · next hne heq =>
    cases heq
    exact absurd rfl (hne letter rest rfl)

theorem scanPieces_append {found pieces : List Piece} (h : scanPieces found cs = some (pieces, after))
    (rest : List Char) : scanPieces found (cs ++ rest) = some (pieces, after ++ rest) := by
  fun_induction scanPieces found cs with
  | case1 | case4 | case6 | case7 => cases h
  | case2 found cs =>
    cases h
    exact scanPieces.eq_def ..
  | case3 found a b c d cs code hcode ih =>
    simp only [List.cons_append]
    rw [scanPieces, hcode]
    exact ih h
  | case5 found letter cs hunit c hletter ih =>
    rw [List.cons_append, List.cons_append, scanPieces_escaped hletter]
    exact ih h
  | case8 found c cs hquote hunit hslash hc ih =>
    have hescape : c ≠ '\\' := by
      rintro rfl
      cases cs with
      | nil => cases h
      | cons letter cs => exact hslash letter cs rfl rfl
    rw [List.cons_append, scanPieces_char hquote hescape hc]
    exact ih h

namespace Symbol

theorem scanWhole_append_end {whole : List Char} (h : scanWhole cs = some (whole, after)) (hrest : DigitsEnd rest) :
    scanWhole (cs ++ rest) = some (whole, after ++ rest) := by
  cases cs with
  | nil => cases h
  | cons c cs =>
    rw [scanWhole] at h
    rw [List.cons_append, scanWhole, takeWhile_append_end cs hrest, dropWhile_append_end cs hrest]
    split at h
    · next hzero =>
      cases h
      rw [if_pos hzero]
    split at h
    · next hzero hdigit =>
      cases h
      rw [if_neg hzero, if_pos hdigit]
    · cases h

theorem scanFraction_unpointed (h : cs.head? ≠ some '.') : scanFraction cs = some ([], cs) := by
  rw [scanFraction.eq_def]
  split
  · exact absurd rfl h
  · rfl

theorem scanFraction_append_end {fraction : List Char} (h : scanFraction cs = some (fraction, after))
    (hrest : DigitsEnd rest) (hpoint : rest.head? ≠ some '.') :
    scanFraction (cs ++ rest) = some (fraction, after ++ rest) := by
  by_cases hhead : cs.head? = some '.'
  · obtain ⟨cs, rfl⟩ := List.head?_eq_some_iff.mp hhead
    rw [scanFraction] at h
    rw [List.cons_append, scanFraction, takeWhile_append_end cs hrest, dropWhile_append_end cs hrest]
    split at h
    · cases h
    · next hne =>
      cases h
      simp only [if_neg hne]
  · cases (scanFraction_unpointed hhead).symm.trans h
    refine scanFraction_unpointed ?_
    cases cs with
    | nil => exact hpoint
    | cons c cs => exact hhead

theorem exponentDigits_append_end {exponent : Option Exponent}
    (h : exponentDigits negative cs = some (exponent, after)) (hrest : DigitsEnd rest) :
    exponentDigits negative (cs ++ rest) = some (exponent, after ++ rest) := by
  unfold exponentDigits at *
  rw [takeWhile_append_end cs hrest, dropWhile_append_end cs hrest]
  dsimp only at *
  split at h
  · cases h
  · next hne =>
    cases h
    rw [if_neg hne]

theorem scanExponent_append_end {exponent : Option Exponent} (h : scanExponent cs = some (exponent, after))
    (hrest : Marked rest) : scanExponent (cs ++ rest) = some (exponent, after ++ rest) := by
  cases cs with
  | nil =>
    cases h
    have hmark : rest.head? ≠ some 'e' ∧ rest.head? ≠ some 'E' :=
      ⟨hrest.head_ne ⟨rfl, rfl, rfl⟩, hrest.head_ne ⟨rfl, rfl, rfl⟩⟩
    have hnone : scanExponent (exponentChars none ++ rest) = some (none, rest) :=
      scanExponent_append nofun hrest.digitsEnd hmark
    exact hnone
  | cons mark cs =>
    unfold scanExponent at *
    dsimp only [List.cons_append] at *
    split at h
    · next hmark =>
      rw [if_pos hmark]
      cases cs with
      | nil => cases h
      | cons c cs =>
        split at h
        · next heq =>
          cases heq
          exact exponentDigits_append_end h hrest.digitsEnd
        · next heq =>
          cases heq
          exact exponentDigits_append_end h hrest.digitsEnd
        · next hplus hminus =>
          split
          · next heq =>
            cases heq
            exact absurd rfl (hplus cs)
          · next heq =>
            cases heq
            exact absurd rfl (hminus cs)
          · exact exponentDigits_append_end h hrest.digitsEnd
    · next hmark =>
      cases h
      rw [if_neg hmark]
      rfl

theorem scanLiteral_append_end {l : Literal} (h : scanLiteral negative cs = some (l, after)) (hrest : Marked rest) :
    scanLiteral negative (cs ++ rest) = some (l, after ++ rest) := by
  simp only [scanLiteral, Option.bind_eq_bind, Option.bind_eq_some_iff, Prod.exists] at h
  obtain ⟨whole, afterWhole, hwhole, fraction, afterFraction, hfraction, exponent, _, hexponent, heq⟩ := h
  cases heq
  have hpoint : rest.head? ≠ some '.' := hrest.head_ne ⟨rfl, rfl, rfl⟩
  simp only [scanLiteral, Option.bind_eq_bind, Option.bind_some, scanWhole_append_end hwhole hrest.digitsEnd,
    scanFraction_append_end hfraction hrest.digitsEnd hpoint, scanExponent_append_end hexponent hrest]
  rfl

theorem scanScalar_append_end {c : Char} (h : scanScalar c cs = some (v, after)) (hrest : Marked rest) :
    scanScalar c (cs ++ rest) = some (v, after ++ rest) := by
  unfold scanScalar at *
  split at h
  · next hquote =>
    obtain ⟨⟨pieces, more⟩, hpieces, heq⟩ := Option.map_eq_some_iff.mp h
    cases heq
    rw [if_pos hquote, scanPieces_append hpieces]
    rfl
  split at h
  · next hquote halpha =>
    obtain ⟨w, hword, heq⟩ := Option.map_eq_some_iff.mp h
    cases heq
    have hend := hrest.not (P := Char.isAlpha) ⟨rfl, rfl, rfl⟩
    rw [if_neg hquote, if_pos halpha, takeWhile_append_end cs hend, dropWhile_append_end cs hend, hword]
    rfl
  · next hquote halpha =>
    obtain ⟨⟨l, more⟩, hliteral, heq⟩ := Option.map_eq_some_iff.mp h
    cases heq
    rw [if_neg hquote, if_neg halpha]
    split at hliteral
    · next hminus => rw [if_pos hminus, scanLiteral_append_end hliteral hrest]; rfl
    · next hminus =>
      rw [if_neg hminus, ← List.cons_append, scanLiteral_append_end hliteral hrest]
      rfl

theorem Scans.blank {c : Char} (hc : isBlank c = true) (h : Scans cs ss) : Scans (c :: cs) ss := by
  intro found rest hrest
  rw [List.cons_append, scan, if_pos hc, h found rest hrest]

theorem Scans.mark {c : Char} {mark : Symbol} (hmark : ofMark? c = some mark) (hc : isBlank c = false)
    (h : Scans cs ss) : Scans (c :: cs) (mark :: ss) := by
  intro found rest hrest
  rw [List.cons_append, scan_mark hmark hc, h _ rest hrest, List.reverse_cons, List.append_assoc]
  rfl

theorem scan_scalar {c : Char} (hblank : isBlank c = false) (hmark : ofMark? c = none)
    (hscalar : scanScalar c cs = some (v, after)) (found : List Symbol) :
    scan found (c :: cs) = scan (.scalar v :: found) after := by
  rw [scan, hblank, if_neg Bool.false_ne_true]
  split
  · next heq => cases hmark.symm.trans heq
  · split
    · next heq => cases hscalar.symm.trans heq
    · next heq =>
      cases hscalar.symm.trans heq
      rfl

/-- What is scanned as symbols at the end of a text is scanned so before any mark. -/
theorem exists_scans {found : List Symbol} (h : scan found cs = some ss) :
    ∃ ts, ss = found.reverse ++ ts ∧ Scans cs ts := by
  fun_induction scan found cs generalizing ss with
  | case1 found =>
    cases h
    exact ⟨[], (List.append_nil _).symm, .nil⟩
  | case2 found c cs hc ih =>
    obtain ⟨ts, rfl, hts⟩ := ih h
    exact ⟨ts, rfl, hts.blank hc⟩
  | case3 found c cs hc mark hmark ih =>
    obtain ⟨ts, rfl, hts⟩ := ih h
    exact ⟨mark :: ts, by simp, hts.mark hmark (by simpa using hc)⟩
  | case4 => cases h
  | case5 found c cs hc hmark v after hscalar ih =>
    obtain ⟨ts, rfl, hts⟩ := ih h
    have hblank : isBlank c = false := by simpa using hc
    refine ⟨.scalar v :: ts, by simp, fun below rest hrest => ?_⟩
    rw [List.cons_append, scan_scalar hblank hmark (scanScalar_append_end hscalar hrest), hts _ rest hrest,
      List.reverse_cons, List.append_assoc]
    rfl

theorem scans_of_scan (h : scan [] cs = some ss) : Scans cs ss := by
  obtain ⟨ts, rfl, hts⟩ := exists_scans h
  exact hts

end Symbol

mutual

/-- What is read as a value is read so above any frames and before any symbols. -/
theorem readValue_append (stack below : List Frame) (ss rest : List Symbol) (h : readValue stack ss = some v) :
    readValue (stack ++ below) (ss ++ rest) = readRest below v rest := by
  rw [readValue.eq_def] at h
  split at h
  · simp only [List.cons_append]
    rw [readValue]
    exact readRest_append _ _ _ _ _ h
  · simp only [List.cons_append]
    rw [readValue]
    exact readRest_append _ _ _ _ _ h
  · next more hne =>
    have hhead : (more ++ rest).head? ≠ some .closeArray := by
      cases more with
      | nil => cases h
      | cons s more =>
        intro hs
        cases hs
        exact hne more rfl
    rw [List.cons_append, readValue_openArray hhead]
    exact readValue_append _ _ _ _ h
  · simp only [List.cons_append]
    rw [readValue]
    exact readRest_append _ _ _ _ _ h
  · simp only [List.cons_append]
    rw [readValue]
    exact readValue_append _ _ _ _ h
  · cases h

theorem readRest_append (stack below : List Frame) (w : Json) (ss rest : List Symbol)
    (h : readRest stack w ss = some v) :
    readRest (stack ++ below) w (ss ++ rest) = readRest below v rest := by
  rw [readRest.eq_def] at h
  split at h
  · cases h
    rfl
  · simp only [List.cons_append]
    rw [readRest]
    exact readValue_append _ _ _ _ h
  · simp only [List.cons_append]
    rw [readRest]
    exact readRest_append _ _ _ _ _ h
  · simp only [List.cons_append]
    rw [readRest]
    exact readValue_append _ _ _ _ h
  · simp only [List.cons_append]
    rw [readRest]
    exact readRest_append _ _ _ _ _ h
  · cases h

end

/-- Characters that are scanned and read as a value wherever it may stand. -/
def Stands (cs : List Char) (v : Json) : Prop :=
  ∃ ss, Symbol.Scans cs ss ∧ ∀ stack rest, readValue stack (ss ++ rest) = readRest stack v rest

theorem stands_of_read? {text : String} (h : read? text = some v) : Stands text.toList v := by
  obtain ⟨ss, hscan, hread⟩ := Option.bind_eq_some_iff.mp h
  exact ⟨ss, Symbol.scans_of_scan hscan, fun stack rest => readValue_append [] stack ss rest hread⟩

/-- The members of an object, each value given by a text that is read as it. -/
inductive Members : List Char → List (String × Json) → Prop
  | last (key : String) {text : String} {v : Json} (h : read? text = some v) :
    Members (quoted key ++ ':' :: text.toList) [(key, v)]
  | next (key : String) {text : String} {v : Json} {cs : List Char} {members : List (String × Json)}
    (h : read? text = some v) (more : Members cs members) :
    Members (quoted key ++ ':' :: text.toList ++ ',' :: cs) ((key, v) :: members)

/-- The first name stands before all that the members are read from. -/
theorem Members.stand {members : List (String × Json)} (h : Members cs members) :
    ∃ key more, Symbol.Scans cs (.scalar (.string (some key)) :: .colon :: more) ∧
      ∀ found stack rest, readValue (.object found (some key) :: stack) (more ++ .closeObject :: rest) =
        readRest stack (.object (found.reverse ++ named members)) rest := by
  induction h with
  | last key h =>
    obtain ⟨ss, hscans, hreads⟩ := stands_of_read? h
    refine ⟨key, ss, hscans.member key, fun found stack rest => ?_⟩
    rw [hreads, readRest]
    simp [named]
  | next key h _ ih =>
    obtain ⟨ss, hscans, hreads⟩ := stands_of_read? h
    obtain ⟨name, more, hmore, hmembers⟩ := ih
    refine ⟨key, ss ++ .comma :: .scalar (.string (some name)) :: .colon :: more, (hscans.member key).comma hmore,
      fun found stack rest => ?_⟩
    rw [List.append_assoc, hreads]
    simp only [List.cons_append, readRest, hmembers]
    simp

/-- An object is read with the values of its members. -/
theorem Members.read?_object {members : List (String × Json)} (h : Members cs members) :
    read? (String.ofList ('{' :: cs ++ ['}'])) = some (.object (named members)) := by
  obtain ⟨key, more, hscans, hmembers⟩ := h.stand
  have hobject : Symbol.Scans ('{' :: cs ++ ['}']) (.openObject :: _ ++ [.closeObject]) :=
    hscans.enclosed ⟨rfl, rfl⟩ ⟨rfl, rfl, by simp⟩
  have hscan := hobject [] [] nofun
  rw [List.append_nil, List.append_nil, Symbol.scan, List.reverse_reverse] at hscan
  have hread := hmembers [] [] []
  rw [read?, String.toList_ofList, hscan, Option.bind_some]
  simp only [List.cons_append, readValue]
  exact hread

end Reckoner.Json
