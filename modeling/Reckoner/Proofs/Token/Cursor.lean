import Reckoner.Token.Cursor
import Reckoner.Proofs.Text.Lines
import Reckoner.Proofs.Token.Tokenization

/-! The tokens that a cursor finds in the bytes of a text are those of its characters. The cursor looks for characters
of one byte only, and so it stands between two characters wherever it cuts the text. -/
namespace Reckoner.Token.Cursor
open Lexeme Decimal

variable {bytes : List UInt8} {before cs rest after w : List Char} {c d : Char} {offset opened : Nat}
  {kind : Char → Bool}

/-- Characters of one byte. -/
def Narrow (c : Char) : Prop := c.toNat < 128

instance (c : Char) : Decidable (Narrow c) := inferInstanceAs (Decidable (c.toNat < 128))

/-- A kind of characters of one byte. -/
def Kind (kind : Char → Bool) : Prop := ∀ c, kind c → Narrow c

/-- The bytes of some characters. -/
def encode (cs : List Char) : List UInt8 := cs.flatMap String.utf8EncodeChar

/-- The first byte of a character. -/
def first (c : Char) : UInt8 := (String.utf8EncodeChar c).headD 0

/-- The character that the first byte of a character is taken for. -/
def lead (c : Char) : Char := Char.ofUInt8 (first c)

theorem utf8EncodeChar_eq_cons (c : Char) : ∃ more, String.utf8EncodeChar c = first c :: more := by
  unfold first String.utf8EncodeChar
  dsimp only
  split
  · exact ⟨_, rfl⟩
  split
  · exact ⟨_, rfl⟩
  split <;> exact ⟨_, rfl⟩

theorem utf8EncodeChar_of_narrow (h : Narrow c) : String.utf8EncodeChar c = [UInt8.ofNat c.toNat] := by
  simp [String.utf8EncodeChar, Nat.le_of_lt_succ h]

theorem lead_of_narrow (h : Narrow c) : lead c = c := by
  rw [lead, first, utf8EncodeChar_of_narrow h, List.headD_cons]
  apply Char.ext
  apply UInt32.toNat_inj.mp
  rw [Char.ofUInt8, UInt8.toNat_toUInt32, UInt8.toNat_ofNat']
  exact Nat.mod_eq_of_lt (Nat.lt_trans h (by decide))

/-- The first byte of a wide character is no character of its own, and it is not one of those within a character. -/
theorem le_first (h : ¬ Narrow c) : 0xC0 ≤ (first c).toNat := by
  have hcode : ¬ c.val.toNat ≤ 127 := fun hle => h (Nat.lt_succ_of_le hle)
  simp only [first, String.utf8EncodeChar, if_neg hcode]
  split
  on_goal 2 => split
  all_goals
    rw [List.headD_cons, UInt8.toNat_ofNat']
    omega

theorem first_isBoundary (c : Char) : first c < 0x80 ∨ 0xC0 ≤ first c := by
  by_cases h : Narrow c
  · left
    have hc := congrArg Char.toNat (lead_of_narrow h)
    rw [UInt8.lt_iff_toNat_lt]
    exact hc.trans_lt h
  · exact .inr (UInt8.le_iff_toNat_le.mpr (le_first h))

theorem narrow_lead_iff : Narrow (lead c) ↔ Narrow c := by
  refine ⟨fun h => ?_, fun h => (lead_of_narrow h).symm ▸ h⟩
  by_contra hc
  exact absurd (Nat.lt_of_lt_of_le h (by decide : 128 ≤ 0xC0)) (Nat.not_lt_of_le (le_first hc))

/-- What the first byte of a character is taken for is of a kind just if the character is. -/
theorem Kind.lead (hkind : Kind kind) (c : Char) : kind (lead c) = kind c := by
  by_cases h : Narrow c
  · rw [lead_of_narrow h]
  · rw [Bool.eq_false_iff.mpr fun hc => h (hkind c hc),
      Bool.eq_false_iff.mpr fun hc => h (narrow_lead_iff.mp (hkind _ hc))]

theorem map_lead {α : Type} {f : Char → Option α} (hf : ∀ {c a}, f c = some a → Narrow c) (c : Char) :
    f (lead c) = f c := by
  by_cases h : Narrow c
  · rw [lead_of_narrow h]
  · rw [Option.eq_none_iff_forall_not_mem.mpr fun a ha => h (hf ha),
      Option.eq_none_iff_forall_not_mem.mpr fun a ha => h (narrow_lead_iff.mp (hf ha))]

@[simp] theorem encode_append (cs ds : List Char) : encode (cs ++ ds) = encode cs ++ encode ds :=
  List.flatMap_append

theorem encode_cons (c : Char) (cs : List Char) : encode (c :: cs) = String.utf8EncodeChar c ++ encode cs := rfl

theorem encode_cons_of_narrow (h : Narrow c) (cs : List Char) : encode (c :: cs) = first c :: encode cs := by
  rw [encode_cons, first, utf8EncodeChar_of_narrow h]
  rfl

theorem exists_encode_cons (c : Char) (cs : List Char) : ∃ more, encode (c :: cs) = first c :: more := by
  obtain ⟨more, hmore⟩ := utf8EncodeChar_eq_cons c
  exact ⟨more ++ encode cs, by rw [encode_cons, hmore, List.cons_append]⟩

@[simp] theorem length_encode (cs : List Char) : (encode cs).length = byteCount cs := by
  induction cs with
  | nil => rfl
  | cons c cs ih => rw [encode_cons, List.length_append, ih, String.length_utf8EncodeChar, byteCount]

theorem head?_encode (cs : List Char) : (encode cs).head? = cs.head?.map first := by
  cases cs with
  | nil => rfl
  | cons c cs =>
    obtain ⟨more, hmore⟩ := exists_encode_cons c cs
    rw [hmore]
    rfl

theorem encode_toList (text : String) : encode text.toList = text.toByteArray.data.toList := by
  rw [← String.utf8Encode_toList]
  simp [List.utf8Encode, encode]

/-- A run of characters of a kind is a run of bytes of that kind. -/
theorem Kind.takeWhile_encode (hkind : Kind kind) (cs : List Char) :
    (encode cs).takeWhile (fun b => kind (Char.ofUInt8 b)) = encode (cs.takeWhile kind) := by
  induction cs with
  | nil => rfl
  | cons c cs ih =>
    have hlead : kind (Char.ofUInt8 (first c)) = kind c := hkind.lead c
    cases hc : kind c with
    | true =>
      rw [List.takeWhile_cons_of_pos hc, encode_cons_of_narrow (hkind c hc), encode_cons_of_narrow (hkind c hc),
        List.takeWhile_cons, if_pos (hlead.trans hc), ih]
    | false =>
      obtain ⟨more, hmore⟩ := exists_encode_cons c cs
      rw [List.takeWhile_cons_of_neg (by simp [hc]), hmore, List.takeWhile_cons_of_neg (by simp [hlead, hc])]
      rfl

theorem Kind.all_encode (hkind : Kind kind) (cs : List Char) :
    (encode cs).all (fun b => kind (Char.ofUInt8 b)) = cs.all kind := by
  induction cs with
  | nil => rfl
  | cons c cs ih =>
    have hlead : kind (Char.ofUInt8 (first c)) = kind c := hkind.lead c
    cases hc : kind c with
    | true => rw [encode_cons_of_narrow (hkind c hc), List.all_cons, List.all_cons, ih, hlead]
    | false =>
      obtain ⟨more, hmore⟩ := exists_encode_cons c cs
      rw [hmore, List.all_cons, List.all_cons, hlead, hc, Bool.false_and, Bool.false_and]

theorem byteCount_cons_of_narrow (h : Narrow c) (cs : List Char) : byteCount (c :: cs) = byteCount cs + 1 := by
  rw [← length_encode, encode_cons_of_narrow h, List.length_cons, length_encode]

/-- The cursor stands in front of the characters `rest` of a text. -/
def At (bytes : List UInt8) (offset : Nat) (rest : List Char) : Prop :=
  ∃ before, bytes = encode (before ++ rest) ∧ offset = byteCount before

namespace At

theorem append (h : At bytes offset (w ++ after)) : At bytes (offset + byteCount w) after := by
  obtain ⟨before, rfl, rfl⟩ := h
  exact ⟨before ++ w, by rw [List.append_assoc], by rw [byteCount_append]⟩

theorem length_eq (h : At bytes offset rest) : bytes.length = offset + byteCount rest := by
  obtain ⟨before, rfl, rfl⟩ := h
  rw [length_encode, byteCount_append]

theorem drop_eq (h : At bytes offset rest) : bytes.drop offset = encode rest := by
  obtain ⟨before, rfl, rfl⟩ := h
  rw [encode_append, ← length_encode, List.drop_left]

theorem getElem?_eq (h : At bytes offset rest) : bytes[offset]? = rest.head?.map first := by
  rw [← head?_encode, ← h.drop_eq, List.head?_drop]

theorem peek_eq (h : At bytes offset rest) : peek bytes offset = rest.head?.map lead := by
  rw [peek, h.getElem?_eq, Option.map_map]
  rfl

/-- A byte is looked at as the character that comes next would be. -/
theorem any_peek (h : At bytes offset rest) (hkind : Kind kind) :
    (peek bytes offset).any kind = rest.head?.any kind := by
  rw [h.peek_eq]
  cases rest with
  | nil => rfl
  | cons c rest => exact hkind.lead c

theorem peek_eq_some_iff (h : At bytes offset rest) (hd : Narrow d) :
    peek bytes offset = some d ↔ rest.head? = some d := by
  have hany : (peek bytes offset).any (· == d) = rest.head?.any (· == d) :=
    h.any_peek fun c hc => (beq_iff_eq.mp hc) ▸ hd
  have heq (o : Option Char) : o = some d ↔ o.any (· == d) := by cases o <;> simp
  rw [heq, heq, hany]

theorem past_eq (h : At bytes offset rest) (hkind : Kind kind) :
    past bytes kind offset = offset + byteCount (rest.takeWhile kind) := by
  rw [past, h.drop_eq, hkind.takeWhile_encode, length_encode]

theorem isBoundary (h : At bytes offset rest) : isBoundary bytes offset := by
  have hget := h.getElem?_eq
  cases rest with
  | nil =>
    obtain ⟨before, rfl, rfl⟩ := h
    simp [Cursor.isBoundary]
  | cons c rest =>
    rw [List.head?_cons, Option.map_some] at hget
    simpa [Cursor.isBoundary, hget] using .inr (first_isBoundary c)

/-- Characters are cut out of the text as a whole. -/
theorem slice?_eq (h : At bytes offset (w ++ after)) :
    slice? bytes offset (offset + byteCount w) = some (String.ofList w) := by
  have hencoded : Text.encoded (String.ofList w) = encode w := by rw [Text.encoded, String.toList_ofList, encode]
  rw [slice?, h.isBoundary, h.append.isBoundary, h.drop_eq, encode_append, Nat.add_sub_cancel_left, ← length_encode,
    List.take_left, ← hencoded]
  exact Text.ofBytes?_encoded _

end At

theorem kind_continuesWord : Kind continuesWord := by
  intro c hc
  simp only [continuesWord, Char.isAlphanum, Char.isAlpha, Char.isUpper, Char.isLower, Char.isDigit, Bool.or_eq_true,
    Bool.and_eq_true, decide_eq_true_eq] at hc
  obtain ((⟨-, h⟩ | ⟨-, h⟩) | ⟨-, h⟩) | rfl := hc
  · exact Nat.lt_of_le_of_lt (UInt32.le_iff_toNat_le.mp h) (by decide)
  · exact Nat.lt_of_le_of_lt (UInt32.le_iff_toNat_le.mp h) (by decide)
  · exact Nat.lt_of_le_of_lt (UInt32.le_iff_toNat_le.mp h) (by decide)
  · decide

theorem kind_startsWord : Kind startsWord := by
  intro c hc
  apply kind_continuesWord
  simp only [startsWord, continuesWord, Char.isAlphanum, Bool.or_eq_true] at hc ⊢
  exact hc.imp_left .inl

theorem kind_isDigit : Kind isDigit := by
  intro c hc
  apply kind_continuesWord
  simp only [continuesWord, Char.isAlphanum, Bool.or_eq_true]
  exact .inl (.inr hc)

theorem ne_of_isDigit (hc : isDigit c) : c ≠ '.' := by
  rintro rfl
  exact absurd hc (by decide)

theorem kind_isSpace : Kind isSpace := by
  intro c hc
  obtain rfl | rfl | rfl | rfl | rfl := isSpace_iff.mp hc <;> decide

theorem kind_isBlank : Kind isBlank := fun c hc => kind_isSpace c (by rw [isSpace, hc, Bool.true_or])

theorem kind_isLineBreak : Kind isLineBreak := fun c hc => kind_isSpace c (by rw [isSpace, hc, Bool.or_true])

theorem narrow_of_ofSymbol? {l : Lexeme} (h : ofSymbol? c = some l) : Narrow c := by
  unfold ofSymbol? at h
  split at h <;> first | decide | cases h

theorem narrow_of_ofPair? {l : Lexeme} (h : ofPair? c d = some l) : Narrow c ∧ Narrow d := by
  unfold ofPair? at h
  split at h <;> first | decide | cases h

theorem narrow_of_starts (h : Numeral.Starts c rest) : Narrow c := by
  obtain h | ⟨rfl, -⟩ := h
  · exact kind_isDigit c h
  · decide

theorem ofSymbol?_lead (c : Char) : ofSymbol? (lead c) = ofSymbol? c := map_lead narrow_of_ofSymbol? c

theorem ofPair?_lead (c d : Char) : ofPair? c (lead d) = ofPair? c d :=
  map_lead (fun h => (narrow_of_ofPair? h).2) d

theorem ofPair?_of_wide (hc : ¬ Narrow c) : ofPair? c = fun _ => none := by
  funext d
  exact Option.eq_none_iff_forall_not_mem.mpr fun l hl => hc (narrow_of_ofPair? hl).1

theorem kind_isMark : Kind isMark := by
  intro c hc
  simp only [isMark, Bool.or_eq_true, decide_eq_true_eq] at hc
  obtain rfl | rfl := hc <;> decide

theorem kind_isSign : Kind isSign := by
  intro c hc
  simp only [isSign, Bool.or_eq_true, decide_eq_true_eq] at hc
  obtain rfl | rfl := hc <;> decide

theorem takeWhile_eq_nil_iff : cs.takeWhile kind = [] ↔ ¬ cs.head?.any kind := by
  cases cs with
  | nil => simp
  | cons c cs => cases hc : kind c <;> simp [hc]

theorem scaleOf_of_not_isMark (hc : ¬ rest.head?.any isMark) : scaleOf rest = [] := by
  cases rest with
  | nil => rfl
  | cons c rest =>
    have hc : ¬ (c = 'e' ∨ c = 'E') := by simpa [isMark] using hc
    simp [scaleOf, Decimal.exponent?, hc]

theorem scaleOf_isMark (hc : isMark c) (hd : ¬ rest.head?.any isSign) : scaleOf (c :: rest) =
    if rest.takeWhile isDigit = [] then [] else c :: rest.takeWhile isDigit := by
  have hc : c = 'e' ∨ c = 'E' := by simpa [isMark] using hc
  cases rest with
  | nil => simp [scaleOf, Decimal.exponent?]
  | cons d rest =>
    have hd : ¬ (d = '+' ∨ d = '-') := by simpa [isSign] using hd
    simp only [scaleOf, Decimal.exponent?, if_pos hc, if_neg hd, if_true]
    split <;> rfl

theorem scaleOf_isSign (hc : isMark c) (hd : isSign d) : scaleOf (c :: d :: rest) =
    if rest.takeWhile isDigit = [] then [] else c :: d :: rest.takeWhile isDigit := by
  have hc : c = 'e' ∨ c = 'E' := by simpa [isMark] using hc
  have hd : d = '+' ∨ d = '-' := by simpa [isSign] using hd
  simp only [scaleOf, Decimal.exponent?, if_pos hc, if_pos hd, if_neg (List.cons_ne_nil d [])]
  split <;> rfl

namespace At

/-- What follows the first character of one byte. -/
theorem tail (h : At bytes offset (c :: rest)) (hc : Narrow c) : At bytes (offset + 1) rest := by
  have happend : At bytes (offset + byteCount [c]) rest := append h
  rwa [byteCount_cons_of_narrow hc] at happend

theorem digits_eq (h : At bytes offset rest) :
    (if (peek bytes offset).any isDigit then some (past bytes isDigit offset) else none) =
      if rest.takeWhile isDigit = [] then none else some (offset + byteCount (rest.takeWhile isDigit)) := by
  rw [h.any_peek kind_isDigit, h.past_eq kind_isDigit]
  simp only [takeWhile_eq_nil_iff, ite_not]

/-- The exponent at the head of a text is found, with its mark and its sign. -/
theorem exponent?_eq (h : At bytes offset rest) : Cursor.exponent? bytes offset =
    if scaleOf rest = [] then none else some (offset + byteCount (scaleOf rest)) := by
  rw [Cursor.exponent?, h.any_peek kind_isMark]
  by_cases hc : rest.head?.any isMark
  swap
  · rw [if_pos (scaleOf_of_not_isMark hc), Bool.eq_false_iff.mpr hc]
    rfl
  obtain ⟨c, hhead, hmark⟩ := (Option.any_eq_true _ _).mp hc
  obtain ⟨rest, rfl⟩ := List.head?_eq_some_iff.mp hhead
  have hrest := h.tail (kind_isMark c hmark)
  have hcount := byteCount_cons_of_narrow (kind_isMark c hmark)
  rw [List.head?_cons, Option.any_some, hmark, Bool.true_and, digitsAt, hrest.any_peek kind_isSign]
  by_cases hd : rest.head?.any isSign
  · obtain ⟨d, hhead, hd'⟩ := (Option.any_eq_true _ _).mp hd
    obtain ⟨more, rfl⟩ := List.head?_eq_some_iff.mp hhead
    have hcount' := byteCount_cons_of_narrow (kind_isSign d hd')
    rw [if_pos hd, (hrest.tail (kind_isSign d hd')).digits_eq, scaleOf_isSign hmark hd']
    split
    · rfl
    · simp only [reduceCtorEq, if_false, hcount, hcount', Option.some_inj]
      omega
  · rw [if_neg hd, hrest.digits_eq, scaleOf_isMark hmark hd]
    split
    · rfl
    · simp only [reduceCtorEq, if_false, hcount, Option.some_inj]
      omega

theorem past_run (h : At bytes offset (w ++ after)) (hkind : Kind kind) (hw : ∀ c ∈ w, kind c)
    (hafter : ∀ c ∈ after.head?, ¬ kind c) : past bytes kind offset = offset + byteCount w := by
  rw [h.past_eq hkind, takeWhile_run hw hafter]

/-- The digits of a numeral and its point are found, up to its exponent. -/
theorem mantissa_eq (h : At bytes offset (c :: rest)) (hc : Numeral.Starts c rest) :
    ∃ m r, c :: rest = m ++ r ∧ (Numeral.scan (c :: rest)).1 = m ++ scaleOf r ∧
      Cursor.mantissa bytes offset c = (offset + byteCount m, !m.all isDigit) := by
  have hdigit (hne : c ≠ '.') : isDigit c := hc.resolve_right fun hpoint => hne hpoint.1
  obtain ⟨ds, r, hcs, hds, hr, hpoint⟩ | ⟨ds, fs, r, hcs, hds, hfs, hr⟩ := Numeral.exists_mantissa (c :: rest)
  · refine ⟨ds, r, hcs, by rw [hcs, Numeral.scan_whole hds hr hpoint], ?_⟩
    cases ds with
    | nil =>
      rw [List.nil_append] at hcs
      subst hcs
      exact absurd (hdigit fun heq => hpoint (congrArg some heq)) (hr c rfl)
    | cons d ds =>
      obtain ⟨rfl, rfl⟩ := List.cons.inj hcs
      have hd := hds c (List.mem_cons_self ..)
      have hrest := h.tail (kind_isDigit c hd)
      have hwhole := hrest.past_run kind_isDigit (List.forall_mem_cons.mp hds).2 hr
      have hpeek : peek bytes (offset + 1 + byteCount ds) ≠ some '.' := by
        rwa [Ne, hrest.append.peek_eq_some_iff (by decide)]
      have hall : (c :: ds).all isDigit := List.all_eq_true.mpr hds
      simp [Cursor.mantissa, hwhole, hpeek, hall, ne_of_isDigit hd, byteCount_cons_of_narrow (kind_isDigit c hd)]
      omega
  · refine ⟨ds ++ '.' :: fs, r, by simp [hcs], by simp [hcs, Numeral.scan_pointed hds hfs hr], ?_⟩
    have hcount := byteCount_cons_of_narrow (c := '.') (by decide) fs
    have hpoint : isDigit '.' = false := by decide
    cases ds with
    | nil =>
      obtain ⟨rfl, rfl⟩ := List.cons.inj hcs
      have hfraction := (h.tail (by decide)).past_run kind_isDigit hfs hr
      simp [Cursor.mantissa, hfraction, hcount, hpoint]
      omega
    | cons d ds =>
      obtain ⟨rfl, rfl⟩ := List.cons.inj hcs
      have hd := hds c (List.mem_cons_self ..)
      have hrest := h.tail (kind_isDigit c hd)
      have hwhole := hrest.past_run kind_isDigit (List.forall_mem_cons.mp hds).2
        (by simp [hpoint])
      have hpeek : peek bytes (offset + 1 + byteCount ds) = some '.' := by
        rw [hrest.append.peek_eq_some_iff (by decide)]
        rfl
      have hfraction := (hrest.append.tail (by decide)).past_run kind_isDigit hfs hr
      simp [Cursor.mantissa, hwhole, hpeek, hfraction, hcount, hpoint, ne_of_isDigit hd,
        byteCount_cons_of_narrow (kind_isDigit c hd)]
      omega

end At

/-- A numeral is an integer if all its characters are digits. Zeros in front make it longer than one byte. -/
theorem number_eq (hw : Numeric w) : number (String.ofList w) (!w.all isDigit) =
    if w.all isDigit then
      if w.head? = some '0' ∧ w.any (· ≠ '0') then .error .leadingZeros else .ok (.int (value w))
    else .ok (.float ((Numeral.scan w).2.toFloat false)) := by
  obtain ⟨c, rest, heq, -⟩ := hw.starts
  rw [number, String.toList_ofList, readFloat?_numeric hw]
  cases hall : w.all isDigit with
  | false => rfl
  | true =>
    have hdigits : Digits w := ⟨by simp [heq], List.all_eq_true.mp hall⟩
    have hzeros : 1 < (String.ofList w).utf8ByteSize ∧ w.head? = some '0' ∧ w.any (· ≠ '0') ↔
        w.head? = some '0' ∧ w.any (· ≠ '0') := by
      refine and_iff_right_of_imp fun ⟨hhead, hany⟩ => ?_
      obtain ⟨more, rfl⟩ := List.head?_eq_some_iff.mp hhead
      have hmore : more ≠ [] := by
        rintro rfl
        exact absurd hany (by decide)
      rw [← byteCount_toList, String.toList_ofList, byteCount_cons_of_narrow (by decide)]
      exact Nat.lt_add_of_pos_left (byteCount_pos hmore)
    simp only [hzeros, readInt?_digits hdigits, Bool.not_true, Bool.false_eq_true, if_false, if_true]

theorem all_append_scaleOf (m r : List Char) :
    (!m.all isDigit || !(scaleOf r).isEmpty) = !(m ++ scaleOf r).all isDigit := by
  rw [List.all_append, Bool.not_and]
  congr 1
  have hend := (scaleOf_spec r).1.digitsEnd
  cases hscale : scaleOf r with
  | nil => rfl
  | cons c cs =>
    have hc : ¬ isDigit c := by
      rw [hscale] at hend
      exact hend c rfl
    simp [hc]

namespace At

theorem scanNumber_eq (h : At bytes offset (c :: rest)) (hc : Numeral.Starts c rest) :
    Cursor.scanNumber bytes offset c =
      some ((Lexeme.scan c rest).1, offset + byteCount (Lexeme.scan c rest).2) := by
  obtain ⟨w, after, hcs, hnumeric, hlongest, hscan, hs⟩ := scan_number hc
  obtain ⟨m, r, hmr, hw, hmantissa⟩ := h.mantissa_eq hc
  rw [hcs, hscan] at hw
  subst hw
  have hexponent := (hmr ▸ h).append.exponent?_eq
  have hstop : ((Cursor.exponent? bytes (offset + byteCount m)).getD (offset + byteCount m)) =
      offset + byteCount (m ++ scaleOf r) := by
    rw [hexponent, byteCount_append, ← Nat.add_assoc]
    split
    · next hnil => rw [hnil]; rfl
    · rfl
  have hfloat : (!m.all isDigit || (Cursor.exponent? bytes (offset + byteCount m)).isSome) =
      !(m ++ scaleOf r).all isDigit := by
    rw [← all_append_scaleOf, hexponent]
    split
    · next hnil => rw [hnil]; rfl
    · next hne => rw [List.isEmpty_eq_false_iff.mpr hne]; rfl
  rw [hcs] at h
  have hglued := glued_eq_nil_iff (hlongest.digitsEnd hnumeric)
  rw [hs, Lexeme.scanNumber_eq hnumeric hscan, Cursor.scanNumber, hmantissa]
  dsimp only
  rw [hstop, hfloat, h.append.any_peek kind_startsWord]
  by_cases hword : after.head?.any startsWord
  · have hne : after.takeWhile continuesWord ≠ [] := by
      obtain ⟨d, hd, hstarts⟩ := (Option.any_eq_true _ _).mp hword
      exact fun hnil => hglued.mp hnil d hd hstarts
    have htaken : At bytes offset (m ++ scaleOf r ++ after.takeWhile continuesWord ++
        after.dropWhile continuesWord) := by
      rwa [List.append_assoc (m ++ scaleOf r), List.takeWhile_append_dropWhile]
    rw [if_pos hword, if_pos hne, h.append.past_eq kind_continuesWord, Nat.add_assoc, ← byteCount_append,
      htaken.slice?_eq]
    rfl
  · have hnil : after.takeWhile continuesWord = [] :=
      hglued.mpr fun d hd hstarts => hword ((Option.any_eq_true _ _).mpr ⟨d, hd, hstarts⟩)
    rw [if_neg hword, if_neg (not_not.mpr hnil), h.slice?_eq, Option.map_some, number_eq hnumeric]
    split
    · split <;> rfl
    · rfl

theorem scanWord_eq (h : At bytes offset (c :: rest)) (hc : startsWord c) :
    Cursor.scanWord bytes offset = some (.ok (ofWord (String.ofList (Lexeme.scanWord c rest))),
      offset + byteCount (Lexeme.scanWord c rest)) := by
  have hstop : past bytes continuesWord (offset + 1) = offset + byteCount (Lexeme.scanWord c rest) := by
    rw [(h.tail (kind_startsWord c hc)).past_eq kind_continuesWord, Lexeme.scanWord,
      byteCount_cons_of_narrow (kind_startsWord c hc), Nat.add_assoc, Nat.add_comm 1]
  have htaken : At bytes offset (Lexeme.scanWord c rest ++ rest.dropWhile continuesWord) := by
    rwa [Lexeme.scanWord, List.cons_append, List.takeWhile_append_dropWhile]
  rw [Cursor.scanWord, hstop, htaken.slice?_eq]
  rfl

/-- A pair of characters is found just where there is one. -/
theorem pair_eq (h : At bytes offset (c :: rest)) :
    (peek bytes (offset + 1)).bind (ofPair? (lead c)) = rest.head?.bind (ofPair? c) := by
  by_cases hc : Narrow c
  · rw [lead_of_narrow hc, (h.tail hc).peek_eq]
    cases rest with
    | nil => rfl
    | cons d rest => exact ofPair?_lead c d
  · rw [ofPair?_of_wide hc, ofPair?_of_wide (narrow_lead_iff.not.mpr hc), Option.bind_fun_none, Option.bind_fun_none]

theorem scanSymbol_eq (h : At bytes offset (c :: rest)) : Cursor.scanSymbol bytes offset (lead c) =
    some ((Lexeme.scanSymbol c rest).1, offset + byteCount (Lexeme.scanSymbol c rest).2) := by
  rw [Cursor.scanSymbol, h.pair_eq, ofSymbol?_lead, Lexeme.scanSymbol]
  cases hpair : rest.head?.bind (ofPair? c) with
  | some l =>
    obtain ⟨d, hd, hl⟩ := Option.bind_eq_some_iff.mp hpair
    obtain ⟨more, rfl⟩ := List.head?_eq_some_iff.mp hd
    have hcount : byteCount (c :: (d :: more).take 1) = 2 := by
      obtain ⟨hc, hd⟩ := narrow_of_ofPair? hl
      rw [byteCount_cons_of_narrow hc, List.take_succ_cons, byteCount_cons_of_narrow hd]
      rfl
    rw [hcount]
  | none =>
    cases hsymbol : ofSymbol? c with
    | some l =>
      dsimp only
      rw [byteCount_cons_of_narrow (narrow_of_ofSymbol? hsymbol)]
      rfl
    | none =>
      have hrest : At bytes offset (c :: rest ++ []) := by rwa [List.append_nil]
      rw [h.length_eq, hrest.slice?_eq]
      simp [byteCount]

theorem starts_eq (h : At bytes offset (c :: rest)) :
    (isDigit (lead c) || (lead c = '.' && (peek bytes (offset + 1)).any isDigit)) = startsNumber c rest := by
  by_cases hc : Narrow c
  · rw [lead_of_narrow hc, (h.tail hc).any_peek kind_isDigit]
    rfl
  · have hne : c ≠ '.' := by
      rintro rfl
      exact hc (by decide)
    have hlead : lead c ≠ '.' := fun heq => hc (narrow_lead_iff.mp (heq ▸ by decide))
    simp [startsNumber, kind_isDigit.lead, hne, hlead]

/-- The lexeme at a place is found in the bytes, or the fault there. -/
theorem scan_eq (h : At bytes offset (c :: rest)) : Cursor.scan bytes offset (lead c) =
    some ((Lexeme.scan c rest).1, offset + byteCount (Lexeme.scan c rest).2) := by
  rw [Cursor.scan, h.starts_eq]
  by_cases hnum : Numeral.Starts c rest
  · rw [if_pos (startsNumber_iff.mpr hnum), lead_of_narrow (narrow_of_starts hnum), h.scanNumber_eq hnum]
  rw [if_neg fun hs => hnum (startsNumber_iff.mp hs), scan_other hnum, kind_startsWord.lead]
  split
  · next hword => exact h.scanWord_eq hword
  · exact h.scanSymbol_eq

theorem skipSpaces_end (h : At bytes offset []) : Cursor.skipSpaces bytes offset opened = .ok offset := by
  rw [Cursor.skipSpaces]
  split
  · rfl
  · next hpeek =>
    rw [h.peek_eq] at hpeek
    cases hpeek

theorem skipSpaces_eq (h : At bytes offset (c :: rest)) : Cursor.skipSpaces bytes offset opened =
    if isBlank c then Cursor.skipSpaces bytes (offset + 1) opened
    else if isLineBreak c then
      if opened = 0 ∧ ¬ rest.all isSpace then
        .error (Fault.lineBreak.at (Span.between offset (offset + 1)))
      else Cursor.skipSpaces bytes (offset + 1) opened
    else .ok offset := by
  have hblank : isLineBreak c → restIsBlank bytes offset = rest.all isSpace := by
    intro hc
    rw [restIsBlank, h.drop_eq, kind_isSpace.all_encode, List.all_cons, isSpace, hc, Bool.or_true, Bool.true_and]
  rw [Cursor.skipSpaces]
  split
  · next hpeek =>
    rw [h.peek_eq] at hpeek
    cases hpeek
  · next hpeek =>
    rw [h.peek_eq] at hpeek
    cases hpeek
    rw [kind_isBlank.lead, kind_isLineBreak.lead]
    split
    · rfl
    split
    · next hc => rw [hblank hc]
    · rfl

end At

theorem lexFrom_def (bytes : List UInt8) (offset opened : Nat) : lexFrom bytes offset opened =
    match skipSpaces bytes offset opened with
    | .error d => some (.error d)
    | .ok start =>
      match peek bytes start with
      | none => some (.ok [⟨.endOfInput, Span.between start start⟩])
      | some c =>
        match scan bytes start c with
        | none => none
        | some (.error fault, stop) => some (.error (fault.at (Span.between start stop)))
        | some (.ok lexeme, stop) =>
          (lexFrom bytes stop (lexeme.parensAfter opened)).map fun tokens =>
            tokens.map (⟨lexeme, Span.between start stop⟩ :: ·) := by
  rw [lexFrom]
  split
  · next h => rw [h]
  next h =>
  rw [h]
  dsimp only
  split
  · next h => rw [h]
  next h =>
  rw [h]
  dsimp only
  split <;> next h => rw [h]

/-- Behind the lexeme at its place the cursor stands in front of what the lexeme leaves. -/
theorem At.after_scan (h : At bytes offset (c :: rest)) :
    At bytes (offset + byteCount (Lexeme.scan c rest).2) (rest.drop ((Lexeme.scan c rest).2.length - 1)) := by
  obtain ⟨⟨after, hafter⟩, hne⟩ := scan_isPrefix c rest
  obtain ⟨d, w, hw⟩ := List.exists_cons_of_ne_nil hne
  have hdrop : rest.drop ((Lexeme.scan c rest).2.length - 1) = after := by
    rw [hw] at hafter ⊢
    obtain ⟨-, rfl⟩ := List.cons.inj hafter
    exact List.drop_left
  rw [hdrop]
  exact append (hafter.symm ▸ h)

theorem lexFrom_lexeme (h : At bytes offset (c :: rest)) (hblank : ¬ isBlank c) (hbreak : ¬ isLineBreak c) :
    lexFrom bytes offset opened =
      match (Lexeme.scan c rest).1 with
      | .error fault => some (.error (fault.at (Span.between offset (offset + byteCount (Lexeme.scan c rest).2))))
      | .ok lexeme =>
        (lexFrom bytes (offset + byteCount (Lexeme.scan c rest).2) (lexeme.parensAfter opened)).map fun tokens =>
          tokens.map (⟨lexeme, Span.between offset (offset + byteCount (Lexeme.scan c rest).2)⟩ :: ·) := by
  rw [lexFrom_def, h.skipSpaces_eq, if_neg hblank, if_neg hbreak]
  dsimp only
  rw [h.peek_eq, List.head?_cons, Option.map_some]
  dsimp only
  rw [h.scan_eq]
  cases (Lexeme.scan c rest).1 <;> rfl

/-- The tokens found from a place on are those of the characters that come next. -/
theorem lexFrom_eq (h : At bytes offset rest) :
    lexFrom bytes offset opened = some (scanFrom offset opened rest) := by
  fun_induction scanFrom offset opened rest with
  | case1 offset opened =>
    rw [lexFrom_def, h.skipSpaces_end]
    dsimp only
    rw [h.peek_eq]
    rfl
  | case2 offset opened c rest hblank ih =>
    rw [lexFrom_def, h.skipSpaces_eq, if_pos hblank, ← lexFrom_def]
    exact ih (h.tail (kind_isBlank c hblank))
  | case3 offset opened c rest hblank hbreak herror =>
    rw [lexFrom_def, h.skipSpaces_eq, if_neg hblank, if_pos hbreak, if_pos herror]
  | case4 offset opened c rest hblank hbreak herror ih =>
    rw [lexFrom_def, h.skipSpaces_eq, if_neg hblank, if_pos hbreak, if_neg herror, ← lexFrom_def]
    exact ih (h.tail (kind_isLineBreak c hbreak))
  | case5 offset opened c rest hblank hbreak scanned stop span fault hscanned =>
    rw [lexFrom_lexeme h hblank hbreak, hscanned]
  | case6 offset opened c rest hblank hbreak scanned stop span lexeme hscanned ih =>
    rw [lexFrom_lexeme h hblank hbreak, hscanned]
    dsimp only
    rw [ih h.after_scan]
    rfl

/-- Every text is cut between its characters, and its tokens are found. -/
theorem ofText_eq (text : String) : ofText text = some (Token.ofText text) :=
  lexFrom_eq ⟨[], (encode_toList text).symm, rfl⟩

end Reckoner.Token.Cursor
