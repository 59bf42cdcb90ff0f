import Reckoner.Proofs.Json.Scalars

/-! Whatever is written as JSON is read back: the text has the symbols of the value, and these are read as
the value. The text is a line. -/
namespace Reckoner.Json

variable {v : Json} {cs ds : List Char} {rest : List Symbol}

/-- The members with these names; each name is a text. -/
def named (members : List (String × Json)) : List (Option String × Json) :=
  members.map fun (name, v) => (some name, v)

@[simp]
theorem named_cons (m : String × Json) (ms : List (String × Json)) :
    named (m :: ms) = (some m.1, m.2) :: named ms := rfl

theorem mem_named {members : List (String × Json)} {key : Option String} :
    (key, v) ∈ named members ↔ ∃ name, (name, v) ∈ members ∧ some name = key := by
  simp only [named, List.mem_map, Prod.exists, Prod.mk.injEq]
  constructor
  · rintro ⟨name, w, hmem, hkey, rfl⟩
    exact ⟨name, hmem, hkey⟩
  · rintro ⟨name, hmem, hkey⟩
    exact ⟨name, v, hmem, hkey, rfl⟩

/-- A value whose strings are texts and whose numbers are as JSON writes them. -/
inductive Proper : Json → Prop
  | null : Proper .null
  | bool (b : Bool) : Proper (.bool b)
  | number {l : Literal} (h : l.Proper) : Proper (.number l)
  | string (text : String) : Proper (.string (some text))
  | array {items : List Json} (h : ∀ v ∈ items, Proper v) : Proper (.array items)
  | object {members : List (String × Json)} (h : ∀ m ∈ members, Proper m.2) : Proper (.object (named members))

mutual

/-- The symbols of a value. -/
def symbols : Json → List Symbol
  | .array items => .openArray :: itemSymbols items ++ [.closeArray]
  | .object members => .openObject :: memberSymbols members ++ [.closeObject]
  | v => [.scalar v]

def itemSymbols : List Json → List Symbol
  | [] => []
  | [v] => symbols v
  | v :: vs => symbols v ++ .comma :: itemSymbols vs

def memberSymbols : List (Option String × Json) → List Symbol
  | [] => []
  | [(key, v)] => .scalar (.string key) :: .colon :: symbols v
  | (key, v) :: ms => .scalar (.string key) :: .colon :: symbols v ++ .comma :: memberSymbols ms

end

namespace Symbol

variable {ss ts : List Symbol} {mark : Symbol} {c : Char}

/-- The characters have these symbols, whatever text goes on after them as after a value. -/
def Scans (cs : List Char) (ss : List Symbol) : Prop :=
  ∀ found rest, Marked rest → scan found (cs ++ rest) = scan (ss.reverse ++ found) rest

theorem scan_mark (hmark : ofMark? c = some mark) (hblank : isBlank c = false) (found : List Symbol)
    (rest : List Char) : scan found (c :: rest) = scan (mark :: found) rest := by
  rw [scan, hblank, if_neg Bool.false_ne_true]
  split
  · next heq =>
    cases hmark.symm.trans heq
    rfl
  · next heq => cases hmark.symm.trans heq

theorem Scans.nil : Scans [] [] := fun _ _ _ => rfl

theorem Scans.scalar (h : ∀ rest, Marked rest → Scalar v cs rest) : Scans cs [.scalar v] :=
  fun found rest hrest => (h rest hrest).scan found

theorem Scans.comma (h : Scans cs ss) (ht : Scans ds ts) : Scans (cs ++ ',' :: ds) (ss ++ .comma :: ts) := by
  intro found rest hrest
  rw [List.append_assoc, List.cons_append, h _ _ (.cons (by simp) _), scan_mark rfl rfl, ht _ _ hrest]
  simp

theorem Scans.member (key : String) (h : Scans cs ss) :
    Scans (quoted key ++ ':' :: cs) (.scalar (.string (some key)) :: .colon :: ss) := by
  intro found rest hrest
  rw [List.append_assoc, (scalar_string key _).scan, List.cons_append, scan_mark rfl rfl, h _ _ hrest]
  simp

theorem Scans.enclosed {first last : Char} {opening closing : Symbol} (h : Scans cs ss)
    (hfirst : ofMark? first = some opening ∧ isBlank first = false)
    (hlast : ofMark? last = some closing ∧ isBlank last = false ∧ last ∈ [',', ']', '\x7d']) :
    Scans (first :: cs ++ [last]) (opening :: ss ++ [closing]) := by
  intro found rest hrest
  obtain ⟨hmark, hblank, hlast⟩ := hlast
  rw [List.append_assoc, List.singleton_append, List.cons_append, scan_mark hfirst.1 hfirst.2,
    h _ _ (.cons hlast rest), scan_mark hmark hblank]
  simp

theorem scans_items {items : List Json} (h : ∀ v ∈ items, Scans v.chars v.symbols) :
    Scans (itemChars items) (itemSymbols items) := by
  induction items with
  | nil => exact .nil
  | cons v vs ih =>
    obtain ⟨hv, hvs⟩ := List.forall_mem_cons.mp h
    cases vs with
    | nil => exact hv
    | cons w ws => exact hv.comma (ih hvs)

theorem scans_members {members : List (String × Json)} (h : ∀ m ∈ members, Scans m.2.chars m.2.symbols) :
    Scans (memberChars (named members)) (memberSymbols (named members)) := by
  induction members with
  | nil => exact .nil
  | cons m ms ih =>
    obtain ⟨hm, hms⟩ := List.forall_mem_cons.mp h
    have hfirst := hm.member m.1
    cases ms with
    | nil => exact hfirst
    | cons n ns => exact hfirst.comma (ih hms)

/-- What is written of a value has its symbols. -/
theorem scans_chars (h : Proper v) : Scans v.chars v.symbols := by
  induction h with
  | null => exact .scalar fun rest hrest => scalar_word rfl ⟨by decide, rfl, rfl⟩ rfl hrest
  | bool b =>
    cases b with
    | true => exact .scalar fun rest hrest => scalar_word rfl ⟨by decide, rfl, rfl⟩ rfl hrest
    | false => exact .scalar fun rest hrest => scalar_word rfl ⟨by decide, rfl, rfl⟩ rfl hrest
  | number h => exact .scalar fun rest hrest => scalar_number h hrest
  | string text => exact .scalar fun rest _ => scalar_string text rest
  | array h ih => exact (scans_items ih).enclosed ⟨rfl, rfl⟩ ⟨rfl, rfl, by simp⟩
  | object h ih => exact (scans_members ih).enclosed ⟨rfl, rfl⟩ ⟨rfl, rfl, by simp⟩

end Symbol

/-- The symbols of a value start with no closing mark of an array. -/
theorem symbols_head (v : Json) (rest : List Symbol) : (symbols v ++ rest).head? ≠ some .closeArray := by
  cases v <;> simp [symbols]

theorem itemSymbols_head (v : Json) (vs : List Json) (rest : List Symbol) :
    (itemSymbols (v :: vs) ++ rest).head? ≠ some .closeArray := by
  cases vs with
  | nil => exact symbols_head v rest
  | cons w ws =>
    have hsymbols : itemSymbols (v :: w :: ws) = v.symbols ++ .comma :: itemSymbols (w :: ws) := rfl
    rw [hsymbols, List.append_assoc]
    exact symbols_head v _

theorem readValue_openArray (h : rest.head? ≠ some .closeArray) (stack : List Frame) :
    readValue stack (.openArray :: rest) = readValue (.array [] :: stack) rest := by
  rw [readValue.eq_def]
  split
  · next heq => cases heq
  · next heq =>
    cases heq
    exact absurd rfl h
  · next heq =>
    cases heq
    rfl
  · next heq => cases heq
  · next heq => cases heq
  · next hne _ _ => exact absurd rfl (hne rest)

/-- The symbols are read as the value, wherever it stands. -/
def Reads (v : Json) : Prop :=
  ∀ stack rest, readValue stack (v.symbols ++ rest) = readRest stack v rest

/-- Items are read after those that were found before them. -/
theorem reads_items {items : List Json} (h : ∀ v ∈ items, Reads v) (hne : items ≠ []) (found : List Json)
    (stack : List Frame) (rest : List Symbol) :
    readValue (.array found :: stack) (itemSymbols items ++ .closeArray :: rest) =
      readRest stack (.array (found.reverse ++ items)) rest := by
  induction items generalizing found with
  | nil => exact absurd rfl hne
  | cons v vs ih =>
    obtain ⟨hv, hvs⟩ := List.forall_mem_cons.mp h
    cases vs with
    | nil =>
      rw [itemSymbols, hv, readRest]
      simp
    | cons w ws =>
      rw [itemSymbols, List.append_assoc, hv, List.cons_append, readRest, ih hvs (List.cons_ne_nil w ws)]
      · simp
      · simp

/-- The first name of an object stands before all that its members are read from. -/
theorem reads_members {m : String × Json} {ms : List (String × Json)} (h : ∀ n ∈ m :: ms, Reads n.2) :
    ∃ more, memberSymbols (named (m :: ms)) = .scalar (.string (some m.1)) :: .colon :: more ∧
      ∀ found stack rest, readValue (.object found (some m.1) :: stack) (more ++ .closeObject :: rest) =
        readRest stack (.object (found.reverse ++ named (m :: ms))) rest := by
  induction ms generalizing m with
  | nil =>
    refine ⟨m.2.symbols, rfl, fun found stack rest => ?_⟩
    rw [h m (List.mem_singleton_self m), readRest]
    simp [named]
  | cons n ns ih =>
    obtain ⟨hm, hns⟩ := List.forall_mem_cons.mp h
    obtain ⟨more, hsymbols, hmore⟩ := ih hns
    refine ⟨m.2.symbols ++ .comma :: memberSymbols (named (n :: ns)), rfl, fun found stack rest => ?_⟩
    rw [List.append_assoc, hm, hsymbols]
    simp only [List.cons_append, readRest, hmore]
    simp [named]

theorem Proper.reads (h : Proper v) : Reads v := by
  induction h with
  | null | bool | number | string =>
    intro stack rest
    simp [symbols, readValue]
  | @array items h ih =>
    intro stack rest
    rw [symbols, List.append_assoc, List.singleton_append, List.cons_append]
    cases items with
    | nil => rw [itemSymbols, List.nil_append, readValue]
    | cons v vs =>
      rw [readValue_openArray (itemSymbols_head v vs _), reads_items ih (List.cons_ne_nil v vs)]
      simp
  | @object members h ih =>
    intro stack rest
    rw [symbols, List.append_assoc, List.singleton_append, List.cons_append]
    cases members with
    | nil => simp [named, memberSymbols, readValue]
    | cons m ms =>
      obtain ⟨more, hsymbols, hmore⟩ := reads_members ih
      rw [hsymbols, List.cons_append, List.cons_append, readValue, hmore]
      simp

/-- What is written of a value is read as the value. -/
theorem read?_write (h : Proper v) : read? v.write = some v := by
  have hscan : Symbol.scan [] (write v).toList = some v.symbols := by
    have hchars := Symbol.scans_chars h [] [] (by simp [Marked])
    rw [write, String.toList_ofList]
    simpa [Symbol.scan] using hchars
  have hread := h.reads [] []
  rw [List.append_nil, readRest] at hread
  rw [read?, hscan, Option.bind_some, hread]

theorem printable_items {items : List Json} (h : ∀ v ∈ items, Printable v.chars) : Printable (itemChars items) := by
  induction items with
  | nil => exact nofun
  | cons v vs ih =>
    obtain ⟨hv, hvs⟩ := List.forall_mem_cons.mp h
    cases vs with
    | nil => exact hv
    | cons w ws => exact hv.append ((ih hvs).cons (by decide))

theorem printable_members {members : List (String × Json)} (h : ∀ m ∈ members, Printable m.2.chars) :
    Printable (memberChars (named members)) := by
  induction members with
  | nil => exact nofun
  | cons m ms ih =>
    obtain ⟨hm, hms⟩ := List.forall_mem_cons.mp h
    have hfirst := (printable_quoted m.1).append (hm.cons (c := ':') (by decide))
    cases ms with
    | nil => exact hfirst
    | cons n ns => exact hfirst.append ((ih hms).cons (by decide))

/-- What is written of a value has no control characters, and so no line breaks. -/
theorem Proper.printable (h : Proper v) : Printable v.chars := by
  induction h with
  | null => decide
  | bool b => cases b <;> decide
  | number h => exact h.printable
  | string text => exact printable_quoted text
  | array h ih => exact ((printable_items ih).cons (by decide)).append (by decide)
  | object h ih => exact ((printable_members ih).cons (by decide)).append (by decide)

end Reckoner.Json
