import Reckoner.Wire.Serialization
import Reckoner.Json.Reader
import Reckoner.Json.Writer
import Reckoner.Json.Numeric

/-! The serialization that the program runs with. A record is an object with its fields by name, in any order and
among others, or an array with its fields by position. -/
namespace Reckoner
namespace Serialization.Standard

/-- No field has two values. -/
def unambiguous (names : List String) (members : List (Option String × Json)) : Bool :=
  names.all fun name => (members.filter fun m => m.1 = some name).length ≤ 1

def member? (members : List (Option String × Json)) (name : String) : Option Json :=
  (members.find? fun m => m.1 = some name).map Prod.snd

/-- What is found for the fields of a record, in the order of their names. -/
def values? (names : List String) : Json → Option (List (Option Json))
  | .array items =>
    if items.length ≤ names.length then
      some (items.map some ++ List.replicate (names.length - items.length) none)
    else none
  | .object members =>
    if (members.all fun m => m.1.isSome) && unambiguous names members then
      some (names.map (member? members))
    else none
  | _ => none

def fieldsOf? {β : Type} (fields : Fields β) (v : Json) : Option β :=
  (values? fields.names v).bind fields.ofValues?

/-- The natural number below a bound that a value is. -/
def natBelow? (bound : Nat) : Json → Option Nat
  | .number l => l.integer?.bind fun n => if 0 ≤ n ∧ n < bound then some n.toNat else none
  | _ => none

def bool : Codec Bool where
  encode := .bool
  decode?
    | .bool b => some b
    | _ => none

def string : Codec String where
  encode text := .string (some text)
  decode?
    | .string text => text
    | _ => none

def word {α : Type} (bound : Nat) (ofNat : Nat → α) (toNat : α → Nat) : Codec α where
  encode x := .natural (toNat x)
  decode? v := (natBelow? bound v).map ofNat

/-- What is missing is `null`. -/
def optional {α : Type} (inner : Codec α) : Codec (Option α) where
  encode x := x.elim .null inner.encode
  decode?
    | .null => some none
    | v => (inner.decode? v).map some

def newtype {α β : Type} (inner : Codec α) (wrap : α → β) (unwrap : β → α) : Codec β where
  encode x := inner.encode (unwrap x)
  decode? v := (inner.decode? v).map wrap

def record {α β : Type} (fields : Fields β) (split : α → β) (make : β → α) : Codec α where
  encode x := .record (fields.encode (split x))
  decode? v := (fieldsOf? fields v).map make

/-- The kind of a name. -/
def named? {α : Type} (all : List α) (name : α → String) (text : String) : Option α :=
  all.find? fun x => name x = text

/-- A kind is its name, or an object with the name as only key and nothing under it. -/
def units {α : Type} (all : List α) (name : α → String) : Codec α where
  encode x := .string (some (name x))
  decode?
    | .string text => text.bind (named? all name)
    | .object [(text, .null)] => text.bind (named? all name)
    | _ => none

/-- The deepest nesting that is held back. -/
def maxHeldDepth : Nat := 127

mutual

/-- Whether a value can be held back within a number of levels: its numbers are in range, and its strings are texts. -/
def holdable (levels : Nat) : Json → Bool
  | .null => true
  | .bool _ => true
  | .number l => l.numeric?.isSome
  | .string text => text.isSome
  | .array items => 0 < levels && holdableItems (levels - 1) items
  | .object members => 0 < levels && holdableMembers (levels - 1) members

def holdableItems (levels : Nat) : List Json → Bool
  | [] => true
  | v :: vs => holdable levels v && holdableItems levels vs

def holdableMembers (levels : Nat) : List (Option String × Json) → Bool
  | [] => true
  | (key, v) :: ms => key.isSome && holdable levels v && holdableMembers levels ms

end

/-- The name under a tag, and the fields beside it; in an array the name comes first. -/
def untag? (tag : String) : Json → Option (String × Json)
  | .array (.string name :: items) => name.map fun text => (text, .array items)
  | .object members =>
    match members.filter fun m => m.1 = some tag with
    | [(_, .string name)] => name.map fun text => (text, .object (members.filter fun m => m.1 ≠ some tag))
    | _ => none
  | _ => none

/-- The tag may come last, so the fields are held back until it is known, and what is held back has to be in range, in
text and not nested too deeply, whether it is used or not. -/
def tagged {κ α : Type} (t : Tagged κ α) : Codec α where
  encode x := .record ((t.tag, .string (some (t.name (t.kind x)))) :: (t.fields (t.kind x)).encode (t.split x))
  decode? v := do
    let (name, held) ← untag? t.tag v
    let kind ← named? t.kinds t.name name
    if holdable maxHeldDepth held then (fieldsOf? (t.fields kind) held).map (t.make kind) else none

def scalar? : Json → Option Json.Scalar
  | .null => some .null
  | .number l => l.numeric?.map .number
  | .string text => text.map .string
  | _ => some .other

end Serialization.Standard

instance Serialization.standard : Serialization where
  parse? := Json.read?
  print v := .ok v.write
  scalar? := Standard.scalar?
  numberText := Json.Numeric.text
  bool := Standard.bool
  string := Standard.string
  word := Standard.word
  optional := Standard.optional
  newtype := Standard.newtype
  record := Standard.record
  units := Standard.units
  tagged := Standard.tagged

end Reckoner
