import Reckoner.Text.Lines
import Reckoner.Token.Lexer

/-! Tokens scanned from the bytes of a text, at an offset that moves over them. A byte is taken for the character of
its code. Words, numbers and unknown characters are cut out of the text, and there is no token where a cut would go
through a character. -/
namespace Reckoner.Token.Cursor
open Lexeme

variable (bytes : List UInt8)

/-- The byte at an offset. -/
def peek (offset : Nat) : Option Char := bytes[offset]?.map Char.ofUInt8

/-- The offset behind the bytes of a kind that stand at an offset. -/
def past (kind : Char → Bool) (offset : Nat) : Nat :=
  offset + ((bytes.drop offset).takeWhile fun b => kind (Char.ofUInt8 b)).length

/-- Whether an offset lies between characters, by the byte that stands there. -/
def isBoundary (offset : Nat) : Bool :=
  offset = bytes.length || bytes[offset]?.any fun b => b < 0x80 || 0xC0 ≤ b

/-- The text between two offsets. -/
def slice? (start stop : Nat) : Option String :=
  if isBoundary bytes start && isBoundary bytes stop then
    Text.ofBytes? ((bytes.drop start).take (stop - start))
  else none

def restIsBlank (offset : Nat) : Bool := (bytes.drop offset).all fun b => isSpace (Char.ofUInt8 b)

theorem lt_of_peek {offset : Nat} {c : Char} (h : peek bytes offset = some c) : offset < bytes.length := by
  obtain ⟨b, hb, -⟩ := Option.map_eq_some_iff.mp h
  exact (List.getElem?_eq_some_iff.mp hb).1

/-- The offset behind the blanks at an offset. -/
def skipSpaces (offset opened : Nat) : Except Diagnostic Nat :=
  match _h : peek bytes offset with
  | none => .ok offset
  | some c =>
    if isBlank c then skipSpaces (offset + 1) opened
    else if isLineBreak c then
      if opened = 0 ∧ ¬ restIsBlank bytes offset then
        .error (Fault.lineBreak.at (Span.between offset (offset + 1)))
      else skipSpaces (offset + 1) opened
    else .ok offset
termination_by bytes.length - offset
decreasing_by all_goals have := lt_of_peek bytes _h; omega

/-- The offset behind the digits of a number and its point, and whether there is a point. -/
def mantissa (start : Nat) (first : Char) : Nat × Bool :=
  let whole := past bytes Decimal.isDigit (start + 1)
  if first ≠ '.' ∧ peek bytes whole = some '.' then (past bytes Decimal.isDigit (whole + 1), true)
  else (whole, first = '.')

def isMark (c : Char) : Bool := c = 'e' || c = 'E'

def isSign (c : Char) : Bool := c = '+' || c = '-'

/-- How far behind its mark the digits of an exponent start. -/
def digitsAt (mark : Nat) : Nat := if (peek bytes (mark + 1)).any isSign then 2 else 1

/-- The offset behind an exponent, which has at least one digit. -/
def exponent? (mark : Nat) : Option Nat :=
  let digits := mark + digitsAt bytes mark
  if (peek bytes mark).any isMark && (peek bytes digits).any Decimal.isDigit then
    some (past bytes Decimal.isDigit digits)
  else none

/-- The value of the text of a number. -/
def number (spelling : String) (isFloat : Bool) : Except Fault Lexeme :=
  if isFloat then
    match Decimal.readFloat? spelling.toList with
    | some x => .ok (.float x)
    | none => .error (.unreadableNumber spelling)
  else if 1 < spelling.utf8ByteSize ∧ spelling.toList.head? = some '0' ∧ spelling.toList.any (· ≠ '0') then
    .error .leadingZeros
  else
    match Decimal.readInt? spelling with
    | some n => .ok (.int n)
    | none => .error (.unreadableNumber spelling)

/-- A number whose first byte is known, and the offset behind it. -/
def scanNumber (start : Nat) (first : Char) : Option (Except Fault Lexeme × Nat) :=
  let (digits, pointed) := mantissa bytes start first
  let exponent := exponent? bytes digits
  let stop := exponent.getD digits
  if (peek bytes stop).any startsWord then
    let stop := past bytes continuesWord stop
    (slice? bytes start stop).map fun spelling => (.error (.gluedNumber spelling), stop)
  else (slice? bytes start stop).map fun spelling => (number spelling (pointed || exponent.isSome), stop)

def scanWord (start : Nat) : Option (Except Fault Lexeme × Nat) :=
  let stop := past bytes continuesWord (start + 1)
  (slice? bytes start stop).map fun word => (.ok (ofWord word), stop)

/-- A symbol of one byte or of two. Of any other character the whole is reported, not just its first byte. -/
def scanSymbol (start : Nat) (first : Char) : Option (Except Fault Lexeme × Nat) :=
  match (peek bytes (start + 1)).bind (ofPair? first) with
  | some lexeme => some (.ok lexeme, start + 2)
  | none =>
    match ofSymbol? first with
    | some lexeme => some (.ok lexeme, start + 1)
    | none =>
      (slice? bytes start bytes.length).map fun rest =>
        let c := rest.toList.headD '?'
        (.error (.unexpectedCharacter c), start + c.utf8Size)

/-- The lexeme at an offset where there is a byte, and the offset behind it. -/
def scan (start : Nat) (first : Char) : Option (Except Fault Lexeme × Nat) :=
  if Decimal.isDigit first || (first = '.' && (peek bytes (start + 1)).any Decimal.isDigit) then
    scanNumber bytes start first
  else if startsWord first then scanWord bytes start
  else scanSymbol bytes start first

theorem le_past (kind : Char → Bool) (offset : Nat) : offset ≤ past bytes kind offset := Nat.le_add_right ..

theorem lt_mantissa (start : Nat) (first : Char) : start < (mantissa bytes start first).1 := by
  have hwhole := le_past bytes Decimal.isDigit (start + 1)
  have hfraction := le_past bytes Decimal.isDigit (past bytes Decimal.isDigit (start + 1) + 1)
  unfold mantissa
  dsimp only
  split <;> dsimp only <;> omega

theorem le_exponent {mark stop : Nat} (h : exponent? bytes mark = some stop) : mark ≤ stop := by
  unfold exponent? at h
  dsimp only at h
  split at h
  · cases h
    exact Nat.le_trans (Nat.le_add_right ..) (le_past ..)
  · cases h

theorem le_skipSpaces {offset opened start : Nat} (h : skipSpaces bytes offset opened = .ok start) :
    offset ≤ start := by
  fun_induction skipSpaces bytes offset opened <;> grind

theorem lt_of_scanNumber {start stop : Nat} {first : Char} {scanned : Except Fault Lexeme}
    (h : scanNumber bytes start first = some (scanned, stop)) : start < stop := by
  have hmantissa := lt_mantissa bytes start first
  have hdigits : (mantissa bytes start first).1 ≤
      (exponent? bytes (mantissa bytes start first).1).getD (mantissa bytes start first).1 := by
    cases hexponent : exponent? bytes (mantissa bytes start first).1 with
    | none => exact Nat.le_refl _
    | some stop => exact le_exponent bytes hexponent
  unfold scanNumber at h
  dsimp only at h
  split at h
  · obtain ⟨spelling, -, heq⟩ := Option.map_eq_some_iff.mp h
    cases heq
    exact Nat.lt_of_lt_of_le (Nat.lt_of_lt_of_le hmantissa hdigits) (le_past ..)
  · obtain ⟨spelling, -, heq⟩ := Option.map_eq_some_iff.mp h
    cases heq
    exact Nat.lt_of_lt_of_le hmantissa hdigits

theorem lt_of_scan {start stop : Nat} {first : Char} {scanned : Except Fault Lexeme}
    (h : scan bytes start first = some (scanned, stop)) : start < stop := by
  unfold scan at h
  split at h
  · exact lt_of_scanNumber bytes h
  split at h
  · obtain ⟨word, -, heq⟩ := Option.map_eq_some_iff.mp h
    cases heq
    exact le_past ..
  · unfold scanSymbol at h
    split at h
    · cases h
      omega
    split at h
    · cases h
      omega
    · obtain ⟨rest, -, heq⟩ := Option.map_eq_some_iff.mp h
      cases heq
      exact Nat.lt_add_of_pos_right (Char.utf8Size_pos _)

/-- The tokens from an offset on, with the number of open parentheses there. -/
def lexFrom (offset opened : Nat) : Option (Except Diagnostic (List Token)) :=
  match _hskip : skipSpaces bytes offset opened with
  | .error d => some (.error d)
  | .ok start =>
    match _hpeek : peek bytes start with
    | none => some (.ok [⟨.endOfInput, Span.between start start⟩])
    | some first =>
      match _hscan : scan bytes start first with
      | none => none
      | some (.error fault, stop) => some (.error (fault.at (Span.between start stop)))
      | some (.ok lexeme, stop) =>
        (lexFrom stop (lexeme.parensAfter opened)).map fun tokens =>
          tokens.map (⟨lexeme, Span.between start stop⟩ :: ·)
termination_by bytes.length - offset
decreasing_by
  have := le_skipSpaces bytes _hskip
  have := lt_of_peek bytes _hpeek
  have := lt_of_scan bytes _hscan
  omega

/-- The tokens of the bytes of a text. -/
def ofText (text : String) : Option (Except Diagnostic (List Token)) := lexFrom text.toByteArray.data.toList 0 0

end Reckoner.Token.Cursor
