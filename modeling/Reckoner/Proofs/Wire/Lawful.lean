import Reckoner.Json.Numeric
import Reckoner.Json.Reader
import Reckoner.Json.Writer
import Reckoner.Wire.Basic
import Reckoner.Proofs.Json.RoundTrip
import Mathlib.Data.List.Nodup

/-! The rules that a library for serialization has to follow, and what comes of them: a type loses nothing if its parts
lose nothing, in whichever way it is declared. -/
namespace Reckoner

namespace Json

/-- Values without arrays whose strings are texts, nested to a depth at most. -/
inductive Ordinary (P : Literal → Prop) : ℕ → Json → Prop
  | null {depth : ℕ} : Ordinary P depth .null
  | bool {depth : ℕ} (b : Bool) : Ordinary P depth (.bool b)
  | number {depth : ℕ} {l : Literal} (h : P l) : Ordinary P depth (.number l)
  | string {depth : ℕ} (text : String) : Ordinary P depth (.string (some text))
  | record {depth : ℕ} {members : List (String × Json)} (h : ∀ m ∈ members, Ordinary P depth m.2) :
    Ordinary P (depth + 1) (Json.record members)

/-- The digits of a natural number of 64 bits. -/
def Literal.IsWord (l : Literal) : Prop := ∃ n < UInt64.size, l = .ofNat n

variable {P Q : Literal → Prop} {depth n : ℕ} {v : Json}

theorem Ordinary.imp (h : v.Ordinary P depth) (hpq : ∀ l, P l → Q l) : v.Ordinary Q depth := by
  induction h with
  | null => exact .null
  | bool b => exact .bool b
  | number h => exact .number (hpq _ h)
  | string text => exact .string text
  | record h ih => exact .record ih

theorem Literal.IsWord.proper {l : Literal} (h : l.IsWord) : l.Proper := by
  obtain ⟨n, -, rfl⟩ := h
  exact ⟨Decimal.digits_plain n, List.forall_mem_nil _, nofun⟩

theorem Ordinary.proper (h : v.Ordinary Literal.IsWord depth) : v.Proper := by
  induction h with
  | null => exact .null
  | bool b => exact .bool b
  | number h => exact .number h.proper
  | string text => exact .string text
  | record h ih => exact .object ih

theorem ordinary_natural (h : n < UInt64.size) : (natural n).Ordinary Literal.IsWord depth := .number ⟨n, h, rfl⟩

end Json

namespace Serialization
open Json (Ordinary)

/-- The rules for texts: how a value is written, which texts are read, and what is known of a value without a type. -/
structure LawfulTexts (S : Serialization) : Prop where
  /-- Texts are read by the grammar of JSON, up to a depth of 127. -/
  parse_iff {text : String} {v : Json} (h : v.Ordinary (fun _ => True) 127) :
    S.parse? text = some v ↔ Json.read? text = some v
  /-- Values are written without blanks, each control character escaped. -/
  print_eq {v : Json} (h : v.Ordinary Json.Literal.IsWord 127) : S.print v = .ok v.write
  scalar_string (text : String) : S.scalar? (.string (some text)) = some (.string text)
  /-- Integers of 64 bits are exact. -/
  scalar_integer {l : Json.Literal} {n : ℤ} (h : l.integer? = some n) : S.scalar? (.number l) = some (.number (.int n))
  /-- All other numbers are doubles, none of them infinite or NaN. -/
  scalar_float {l : Json.Literal} {s : Json.Scalar} (h : l.integer? = none) (hs : S.scalar? (.number l) = some s) :
    ∃ x negative m e, s = .number (.float x) ∧ Binary64.view x = .finite negative m e
  numberText_int (n : ℤ) : S.numberText (.int n) = Decimal.intText n
  /-- Doubles are written by their shortest digits, whole numbers with a zero behind the point, and with an exponent if
  they are very small or very large. -/
  numberText_float {x : Float} {negative : Bool} {m : ℕ} {e : ℤ} (h : Binary64.view x = .finite negative m e) :
    ∃ l : Decimal.Layout, l.pointZero = true ∧ l.exponentWidth ≤ 1 ∧ (∀ k, l.positional k = true → k.natAbs ≤ 16) ∧
      S.numberText (.float x) = l.text x

/-- The rules for types: what becomes of each way to declare one. -/
structure LawfulTypes (S : Serialization) : Prop where
  bool_encode (b : Bool) : S.bool.encode b = .bool b
  bool_decode (b : Bool) : S.bool.decode? (.bool b) = some b
  string_encode (text : String) : S.string.encode text = .string (some text)
  string_decode (text : String) : S.string.decode? (.string (some text)) = some text
  /-- A word is the number that it is. -/
  word_encode {α : Type} (bound : ℕ) (ofNat : ℕ → α) (toNat : α → ℕ) (x : α) :
    (S.word bound ofNat toNat).encode x = Json.natural (toNat x)
  word_decode {α : Type} {bound n : ℕ} (ofNat : ℕ → α) (toNat : α → ℕ) (h : n < bound) (hbound : bound ≤ UInt64.size) :
    (S.word bound ofNat toNat).decode? (Json.natural n) = some (ofNat n)
  /-- What is missing is `null`. -/
  optional_encode {α : Type} (inner : Codec α) (x : Option α) :
    (S.optional inner).encode x = x.elim .null inner.encode
  optional_null {α : Type} (inner : Codec α) : (S.optional inner).decode? .null = some none
  optional_decode {α : Type} (inner : Codec α) {v : Json} (h : v ≠ .null) :
    (S.optional inner).decode? v = (inner.decode? v).map some
  /-- A type with one unnamed field is sent as the field. -/
  newtype_encode {α β : Type} (inner : Codec α) (wrap : α → β) (unwrap : β → α) (y : β) :
    (S.newtype inner wrap unwrap).encode y = inner.encode (unwrap y)
  newtype_decode {α β : Type} (inner : Codec α) (wrap : α → β) (unwrap : β → α) (v : Json) :
    (S.newtype inner wrap unwrap).decode? v = (inner.decode? v).map wrap
  /-- A record is an object with the fields as members, and its fields are looked up by their names; other members
  are passed over. -/
  record_encode {α β : Type} (fields : Fields β) (split : α → β) (make : β → α) (x : α) :
    (S.record fields split make).encode x = Json.record (fields.encode (split x))
  record_decode {α β : Type} (fields : Fields β) (split : α → β) (make : β → α) {members : List (String × Json)}
    (hnames : fields.names.Nodup) (hmembers : (members.map Prod.fst).Nodup) :
    (S.record fields split make).decode? (Json.record members) =
      (fields.ofValues? (fields.names.map (members.lookup ·))).map make
  /-- A kind without fields is its name. -/
  units_encode {α : Type} (all : List α) (name : α → String) (x : α) :
    (S.units all name).encode x = .string (some (name x))
  units_decode {α : Type} {all : List α} {name : α → String} {x : α} (hnames : (all.map name).Nodup) (h : x ∈ all) :
    (S.units all name).decode? (.string (some (name x))) = some x
  /-- The tag stands before the fields of its kind. -/
  tagged_encode {κ α : Type} (t : Tagged κ α) (x : α) :
    (S.tagged t).encode x =
      Json.record ((t.tag, .string (some (t.name (t.kind x)))) :: (t.fields (t.kind x)).encode (t.split x))
  /-- The name under the tag tells which fields are looked up among the other members. -/
  tagged_decode {κ α : Type} (t : Tagged κ α) {k : κ} {members : List (String × Json)}
    (hkinds : (t.kinds.map t.name).Nodup) (hk : k ∈ t.kinds) (hnames : (t.tag :: (t.fields k).names).Nodup)
    (hmembers : (t.tag :: members.map Prod.fst).Nodup)
    (hordinary : ∀ m ∈ members, m.2.Ordinary Json.Literal.IsWord 126) :
    (S.tagged t).decode? (Json.record ((t.tag, .string (some (t.name k))) :: members)) =
      ((t.fields k).ofValues? ((t.fields k).names.map (members.lookup ·))).map (t.make k)

/-- A library that follows the rules. -/
structure Lawful (S : Serialization) : Prop extends LawfulTexts S, LawfulTypes S

end Serialization

variable {α β : Type} {depth : ℕ}

/-- Every value of the type is made JSON that it is read back from. -/
structure Codec.Lossless (depth : ℕ) (c : Codec α) : Prop where
  ordinary (x : α) : (c.encode x).Ordinary Json.Literal.IsWord depth
  decoded (x : α) : c.decode? (c.encode x) = some x

namespace Fields

/-- Nothing is lost of any field. -/
def Lossless (depth : ℕ) {β : Type} : Fields β → Prop
  | .nil => True
  | .cons _ codec _ rest => codec.Lossless depth ∧ rest.Lossless depth

@[simp]
theorem names_nil : Fields.nil.names = [] := rfl

@[simp]
theorem names_required (name : String) (codec : Codec α) (rest : Fields β) :
    (required name codec rest).names = name :: rest.names := rfl

@[simp]
theorem names_orElse (default : α) (name : String) (codec : Codec α) (rest : Fields β) :
    (orElse default name codec rest).names = name :: rest.names := rfl

@[simp]
theorem ofValues?_nil (found : List (Option Json)) : Fields.nil.ofValues? found = some () := by
  cases found <;> rfl

@[simp]
theorem ofValues?_orElse (default : α) (name : String) (codec : Codec α) (rest : Fields β) (found : Option Json)
    (others : List (Option Json)) : (orElse default name codec rest).ofValues? (found :: others) =
      (found.elim (some default) codec.decode?).bind fun x => (rest.ofValues? others).bind fun y => some (x, y) := rfl

theorem names_encode (fields : Fields β) (y : β) : (fields.encode y).map Prod.fst = fields.names := by
  induction fields with
  | nil => rfl
  | cons name codec absent rest ih => exact congrArg (name :: ·) (ih y.2)

theorem ordinary_encode {fields : Fields β} (h : fields.Lossless depth) (y : β) :
    ∀ m ∈ fields.encode y, m.2.Ordinary Json.Literal.IsWord depth := by
  induction fields with
  | nil => exact List.forall_mem_nil _
  | cons name codec absent rest ih => exact List.forall_mem_cons.mpr ⟨h.1.ordinary y.1, ih h.2 y.2⟩

/-- Fields that are all there are told from their members. -/
theorem ofValues?_encode {fields : Fields β} (h : fields.Lossless depth) (y : β) :
    fields.ofValues? ((fields.encode y).map fun m => some m.2) = some y := by
  induction fields with
  | nil => rfl
  | cons name codec absent rest ih =>
    obtain ⟨x, y⟩ := y
    rw [encode, List.map_cons, ofValues?, Option.elim_some, h.1.decoded, ih h.2 y]
    rfl

end Fields

/-- Members with different names are looked up by them. -/
theorem lookup_names {members : List (String × Json)} (h : (members.map Prod.fst).Nodup) :
    (members.map Prod.fst).map (members.lookup ·) = members.map fun m => some m.2 := by
  induction members with
  | nil => rfl
  | cons m ms ih =>
    obtain ⟨name, v⟩ := m
    obtain ⟨hname, hms⟩ := List.nodup_cons.mp h
    have hothers : (ms.map Prod.fst).map (((name, v) :: ms).lookup ·) = (ms.map Prod.fst).map (ms.lookup ·) := by
      apply List.map_congr_left
      intro other hother
      have hne : (other == name) = false := beq_eq_false_iff_ne.mpr fun heq => hname (heq ▸ hother)
      rw [List.lookup_cons, hne]
    rw [List.map_cons, List.map_cons, hothers, ih hms, List.map_cons, List.lookup_cons_self]

/-- The fields of a record are found where they were sent. -/
theorem Fields.ofValues?_lookup {fields : Fields β} (h : fields.Lossless depth) (hnames : fields.names.Nodup) (y : β) :
    fields.ofValues? (fields.names.map ((fields.encode y).lookup ·)) = some y := by
  rw [← fields.names_encode y] at *
  rw [lookup_names hnames, ofValues?_encode h]

namespace Serialization.Lawful

variable [S : Serialization] (h : S.Lawful)

include h

theorem lossless_bool : (Wire.codec : Codec Bool).Lossless depth where
  ordinary b := h.bool_encode b ▸ .bool b
  decoded b := by
    change S.bool.decode? (S.bool.encode b) = some b
    rw [h.bool_encode, h.bool_decode]

theorem lossless_string : (Wire.codec : Codec String).Lossless depth where
  ordinary text := h.string_encode text ▸ .string text
  decoded text := by
    change S.string.decode? (S.string.encode text) = some text
    rw [h.string_encode, h.string_decode]

theorem lossless_word {bound : ℕ} {ofNat : ℕ → α} {toNat : α → ℕ} (hbound : bound ≤ UInt64.size)
    (hlt : ∀ x, toNat x < bound) (hof : ∀ x, ofNat (toNat x) = x) : (S.word bound ofNat toNat).Lossless depth where
  ordinary x := h.word_encode bound ofNat toNat x ▸ Json.ordinary_natural ((hlt x).trans_le hbound)
  decoded x := by rw [h.word_encode, h.word_decode ofNat toNat (hlt x) hbound, hof]

theorem lossless_uint16 : (Wire.codec : Codec UInt16).Lossless depth :=
  h.lossless_word (by decide) UInt16.toNat_lt fun _ => UInt16.ofNat_toNat

theorem lossless_uint32 : (Wire.codec : Codec UInt32).Lossless depth :=
  h.lossless_word (by decide) UInt32.toNat_lt fun _ => UInt32.ofNat_toNat

theorem lossless_uint64 : (Wire.codec : Codec UInt64).Lossless depth :=
  h.lossless_word le_rfl UInt64.toNat_lt fun _ => UInt64.ofNat_toNat

/-- What is there may not look like what is missing. -/
theorem lossless_optional {inner : Codec α} (hinner : inner.Lossless depth) (hne : ∀ x, inner.encode x ≠ .null) :
    (S.optional inner).Lossless depth where
  ordinary x := by
    rw [h.optional_encode]
    cases x with
    | none => exact .null
    | some x => exact hinner.ordinary x
  decoded x := by
    rw [h.optional_encode]
    cases x with
    | none => exact h.optional_null inner
    | some x => rw [Option.elim_some, h.optional_decode inner (hne x), hinner.decoded, Option.map_some]

theorem lossless_newtype {inner : Codec α} {wrap : α → β} {unwrap : β → α} (hinner : inner.Lossless depth)
    (hwrap : ∀ y, wrap (unwrap y) = y) : (S.newtype inner wrap unwrap).Lossless depth where
  ordinary y := h.newtype_encode inner wrap unwrap y ▸ hinner.ordinary _
  decoded y := by rw [h.newtype_encode, h.newtype_decode, hinner.decoded, Option.map_some, hwrap]

theorem lossless_record {fields : Fields β} {split : α → β} {make : β → α} (hfields : fields.Lossless depth)
    (hnames : fields.names.Nodup) (hmake : ∀ x, make (split x) = x) :
    (S.record fields split make).Lossless (depth + 1) where
  ordinary x := h.record_encode fields split make x ▸ .record (Fields.ordinary_encode hfields _)
  decoded x := by
    have hmembers : ((fields.encode (split x)).map Prod.fst).Nodup := (fields.names_encode _).symm ▸ hnames
    rw [h.record_encode, h.record_decode fields split make hnames hmembers, Fields.ofValues?_lookup hfields hnames,
      Option.map_some, hmake]

theorem lossless_units {all : List α} {name : α → String} (hnames : (all.map name).Nodup) (hall : ∀ x, x ∈ all) :
    (S.units all name).Lossless depth where
  ordinary x := h.units_encode all name x ▸ .string _
  decoded x := by rw [h.units_encode, h.units_decode hnames (hall x)]

theorem lossless_tagged {κ : Type} {t : Tagged κ α} (hfields : ∀ k, (t.fields k).Lossless 126)
    (hkinds : (t.kinds.map t.name).Nodup) (hall : ∀ k, k ∈ t.kinds)
    (hnames : ∀ k, (t.tag :: (t.fields k).names).Nodup) (hmake : ∀ x, t.make (t.kind x) (t.split x) = x) :
    (S.tagged t).Lossless 127 where
  ordinary x := h.tagged_encode t x ▸
    .record (List.forall_mem_cons.mpr ⟨.string _, Fields.ordinary_encode (hfields _) _⟩)
  decoded x := by
    have hmembers : (t.tag :: ((t.fields (t.kind x)).encode (t.split x)).map Prod.fst).Nodup :=
      (Fields.names_encode _ _).symm ▸ hnames (t.kind x)
    rw [h.tagged_encode, h.tagged_decode t hkinds (hall _) (hnames _) hmembers
        (Fields.ordinary_encode (hfields _) _),
      Fields.ofValues?_lookup (hfields _) (List.nodup_cons.mp (hnames _)).2, Option.map_some, hmake]

end Serialization.Lawful
end Reckoner
