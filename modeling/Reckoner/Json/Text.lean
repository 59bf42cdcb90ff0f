/-! JSON strings: their escapes read, and texts written with as few of them as possible. -/
namespace Reckoner.Json

/-- A piece of a string: a character, or a 16-bit unit given by an escape. -/
inductive Piece where
  | char (c : Char)
  | unit (code : Nat)
  deriving Repr, DecidableEq

def hexValue? (c : Char) : Option Nat :=
  if '0' ≤ c ∧ c ≤ '9' then some (c.toNat - '0'.toNat)
  else if 'a' ≤ c ∧ c ≤ 'f' then some (c.toNat - 'a'.toNat + 10)
  else if 'A' ≤ c ∧ c ≤ 'F' then some (c.toNat - 'A'.toNat + 10)
  else none

def hexCode? (cs : List Char) : Option Nat :=
  cs.foldl (fun n? c => n?.bind fun n => (hexValue? c).map (16 * n + ·)) (some 0)

/-- The escapes of one letter. -/
def escapes : List (Char × Char) :=
  [('"', '"'), ('\\', '\\'), ('/', '/'), ('b', '\x08'), ('f', '\x0c'), ('n', '\n'), ('r', '\r'), ('t', '\t')]

/-- The pieces up to the closing quote, and what follows it; `found` holds those before, last first. -/
def scanPieces (found : List Piece) : List Char → Option (List Piece × List Char)
  | [] => none
  | '"' :: rest => some (found.reverse, rest)
  | '\\' :: 'u' :: a :: b :: c :: d :: rest =>
    match hexCode? [a, b, c, d] with
    | some code => scanPieces (.unit code :: found) rest
    | none => none
  | '\\' :: letter :: rest =>
    match escapes.lookup letter with
    | some c => scanPieces (.char c :: found) rest
    | none => none
  | c :: rest => if c < ' ' then none else scanPieces (.char c :: found) rest

theorem length_of_scanPieces {found pieces : List Piece} {cs rest : List Char}
    (h : scanPieces found cs = some (pieces, rest)) : rest.length < cs.length := by
  fun_induction scanPieces found cs <;> simp_all <;> omega

def isHighSurrogate (code : Nat) : Bool := 0xD800 ≤ code && code < 0xDC00

def isLowSurrogate (code : Nat) : Bool := 0xDC00 ≤ code && code < 0xE000

/-- The characters of the pieces; a high surrogate and a low one make one character, and neither may
stand alone. -/
def joinPieces (found : List Char) : List Piece → Option (List Char)
  | [] => some found.reverse
  | .char c :: rest => joinPieces (c :: found) rest
  | .unit high :: .unit low :: rest =>
    if isHighSurrogate high then
      if isLowSurrogate low then
        joinPieces (Char.ofNat (0x10000 + (high - 0xD800) * 0x400 + (low - 0xDC00)) :: found) rest
      else none
    else if isLowSurrogate high then none
    else joinPieces (Char.ofNat high :: found) (.unit low :: rest)
  | .unit code :: rest =>
    if isHighSurrogate code || isLowSurrogate code then none else joinPieces (Char.ofNat code :: found) rest

def textOf? (pieces : List Piece) : Option String := (joinPieces [] pieces).map String.ofList

def hexDigits (n : Nat) : List Char := [Nat.digitChar (n / 16), Nat.digitChar (n % 16)]

/-- A character between quotes: only the quote, the backslash and control characters are escaped. -/
def escape (c : Char) : List Char :=
  match c with
  | '"' => ['\\', '"']
  | '\\' => ['\\', '\\']
  | '\x08' => ['\\', 'b']
  | '\x0c' => ['\\', 'f']
  | '\n' => ['\\', 'n']
  | '\r' => ['\\', 'r']
  | '\t' => ['\\', 't']
  | c => if c < ' ' then ['\\', 'u', '0', '0'] ++ hexDigits c.toNat else [c]

def quoted (text : String) : List Char := '"' :: text.toList.flatMap escape ++ ['"']

end Reckoner.Json
