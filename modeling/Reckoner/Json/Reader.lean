import Reckoner.Json.Basic
import Reckoner.Json.Text
import Reckoner.Decimal.Digits

/-! JSON texts read strictly: symbols first, then the values they make up. Values may be nested to any
depth, so the values that are still open are kept on a stack. -/
namespace Reckoner.Json

inductive Symbol where
  | openArray
  | closeArray
  | openObject
  | closeObject
  | comma
  | colon
  | scalar (value : Json)

namespace Symbol

def isBlank (c : Char) : Bool := c = ' ' || c = '\t' || c = '\n' || c = '\r'

def ofMark? : Char → Option Symbol
  | '[' => some .openArray
  | ']' => some .closeArray
  | '{' => some .openObject
  | '}' => some .closeObject
  | ',' => some .comma
  | ':' => some .colon
  | _ => none

/-- The digits after a point, and what follows them; without a point there are none. -/
def scanFraction : List Char → Option (List Char × List Char)
  | '.' :: rest =>
    let ds := rest.takeWhile Decimal.isDigit
    if ds = [] then none else some (ds, rest.dropWhile Decimal.isDigit)
  | cs => some ([], cs)

def exponentDigits (negative : Bool) (cs : List Char) : Option (Option Exponent × List Char) :=
  let ds := cs.takeWhile Decimal.isDigit
  if ds = [] then none else some (some ⟨negative, ds⟩, cs.dropWhile Decimal.isDigit)

def scanExponent : List Char → Option (Option Exponent × List Char)
  | [] => some (none, [])
  | mark :: rest =>
    if mark = 'e' ∨ mark = 'E' then
      match rest with
      | '+' :: cs => exponentDigits false cs
      | '-' :: cs => exponentDigits true cs
      | cs => exponentDigits false cs
    else some (none, mark :: rest)

/-- The digits before a point; a zero in front stands alone. -/
def scanWhole : List Char → Option (List Char × List Char)
  | [] => none
  | c :: rest =>
    if c = '0' then some (['0'], rest)
    else if Decimal.isDigit c then some (c :: rest.takeWhile Decimal.isDigit, rest.dropWhile Decimal.isDigit)
    else none

def scanLiteral (negative : Bool) (cs : List Char) : Option (Literal × List Char) := do
  let (whole, afterWhole) ← scanWhole cs
  let (fraction, afterFraction) ← scanFraction afterWhole
  let (exponent, rest) ← scanExponent afterFraction
  return (⟨negative, whole, fraction, exponent⟩, rest)

/-- A string, number or word that starts with `c`, and what follows it. -/
def scanScalar (c : Char) (rest : List Char) : Option (Json × List Char) :=
  if c = '"' then (scanPieces [] rest).map fun (pieces, after) => (.string (textOf? pieces), after)
  else if c.isAlpha then
    (ofWord? (String.ofList (c :: rest.takeWhile Char.isAlpha))).map fun v => (v, rest.dropWhile Char.isAlpha)
  else
    (if c = '-' then scanLiteral true rest else scanLiteral false (c :: rest)).map fun (l, after) =>
      (.number l, after)

private theorem length_dropWhile_le (p : Char → Bool) (cs : List Char) :
    (cs.dropWhile p).length ≤ cs.length := (List.dropWhile_sublist p).length_le

theorem length_of_scanWhole {cs whole rest : List Char} (h : scanWhole cs = some (whole, rest)) :
    rest.length < cs.length := by
  unfold scanWhole at h
  split at h
  · simp at h
  · rename_i c cs
    have := length_dropWhile_le Decimal.isDigit cs
    split at h
    · simp_all
    · split at h
      · simp only [Option.some.injEq, Prod.mk.injEq] at h
        simp only [← h.2, List.length_cons]
        omega
      · simp at h

theorem length_of_scanFraction {cs ds rest : List Char} (h : scanFraction cs = some (ds, rest)) :
    rest.length ≤ cs.length := by
  unfold scanFraction at h
  split at h
  · rename_i cs
    have := length_dropWhile_le Decimal.isDigit cs
    dsimp only at h
    split at h <;> simp_all
    omega
  · simp_all

theorem length_of_exponentDigits {negative : Bool} {cs rest : List Char} {e : Option Exponent}
    (h : exponentDigits negative cs = some (e, rest)) : rest.length ≤ cs.length := by
  have := length_dropWhile_le Decimal.isDigit cs
  unfold exponentDigits at h
  dsimp only at h
  split at h <;> simp_all

theorem length_of_scanExponent {cs rest : List Char} {e : Option Exponent}
    (h : scanExponent cs = some (e, rest)) : rest.length ≤ cs.length := by
  unfold scanExponent at h
  split at h
  · simp_all
  · split at h
    · split at h <;> have := length_of_exponentDigits h <;> simp_all <;> omega
    · simp_all

theorem length_of_scanLiteral {negative : Bool} {cs rest : List Char} {l : Literal}
    (h : scanLiteral negative cs = some (l, rest)) : rest.length < cs.length := by
  simp only [scanLiteral, Option.bind_eq_bind, Option.bind_eq_some_iff, Prod.exists] at h
  obtain ⟨_, _, hw, _, _, hf, _, _, he, hr⟩ := h
  have := length_of_scanWhole hw
  have := length_of_scanFraction hf
  have := length_of_scanExponent he
  simp_all
  omega

theorem length_of_scanScalar {c : Char} {rest after : List Char} {v : Json}
    (h : scanScalar c rest = some (v, after)) : after.length < (c :: rest).length := by
  have := length_dropWhile_le Char.isAlpha rest
  unfold scanScalar at h
  split at h
  · simp only [Option.map_eq_some_iff, Prod.exists] at h
    obtain ⟨_, _, hp, hr⟩ := h
    have := length_of_scanPieces hp
    simp_all
    omega
  · split at h
    · simp only [Option.map_eq_some_iff, Prod.mk.injEq] at h
      obtain ⟨_, _, _, hr⟩ := h
      simp only [← hr, List.length_cons]
      omega
    · simp only [Option.map_eq_some_iff, Prod.exists, Prod.mk.injEq] at h
      obtain ⟨_, _, hl, _, hr⟩ := h
      rw [hr] at hl
      split at hl
      · exact Nat.lt_succ_of_lt (length_of_scanLiteral hl)
      · exact length_of_scanLiteral hl

/-- All symbols of a text; `found` holds those before it, last first. -/
def scan (found : List Symbol) : List Char → Option (List Symbol)
  | [] => some found.reverse
  | c :: rest =>
    if isBlank c then scan found rest
    else
      match ofMark? c with
      | some mark => scan (mark :: found) rest
      | none =>
        match _h : scanScalar c rest with
        | none => none
        | some (v, after) => scan (.scalar v :: found) after
termination_by cs => cs.length
decreasing_by
  · simp
  · simp
  · exact length_of_scanScalar _h

end Symbol

/-- An array or object that is still open, with what is complete of it, last first. -/
inductive Frame where
  | array (items : List Json)
  | object (members : List (Option String × Json)) (key : Option String)

mutual

/-- The value that starts here. -/
def readValue (stack : List Frame) : List Symbol → Option Json
  | .scalar v :: rest => readRest stack v rest
  | .openArray :: .closeArray :: rest => readRest stack (.array []) rest
  | .openArray :: rest => readValue (.array [] :: stack) rest
  | .openObject :: .closeObject :: rest => readRest stack (.object []) rest
  | .openObject :: .scalar (.string key) :: .colon :: rest => readValue (.object [] key :: stack) rest
  | _ => none

/-- What follows a complete value. -/
def readRest : List Frame → Json → List Symbol → Option Json
  | [], v, [] => some v
  | .array items :: stack, v, .comma :: rest => readValue (.array (v :: items) :: stack) rest
  | .array items :: stack, v, .closeArray :: rest => readRest stack (.array (v :: items).reverse) rest
  | .object members key :: stack, v, .comma :: .scalar (.string next) :: .colon :: rest =>
    readValue (.object ((key, v) :: members) next :: stack) rest
  | .object members key :: stack, v, .closeObject :: rest =>
    readRest stack (.object ((key, v) :: members).reverse) rest
  | _, _, _ => none

end

/-- The value of a whole text. -/
def read? (text : String) : Option Json := (Symbol.scan [] text.toList).bind (readValue [])

end Reckoner.Json
