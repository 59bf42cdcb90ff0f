import Reckoner.Proofs.Json.Numeric
import Reckoner.Proofs.Wire.Lawful

/-! The serialization that the program runs with follows the rules. -/
namespace Reckoner.Serialization
namespace Standard
open Json (Ordinary)

variable {names : List String} {members : List (String × Json)} {name : String} {depth n bound : ℕ} {v : Json}

theorem integer?_ofNat (h : n < UInt64.size) : (Json.Literal.ofNat n).integer? = some (n : ℤ) := by
  simp [Json.Literal.ofNat, Json.Literal.integer?, Json.Literal.isInteger, h]

theorem natBelow?_natural (h : n < bound) (hbound : bound ≤ UInt64.size) :
    natBelow? bound (Json.natural n) = some n := by
  have hrange : (0 : ℤ) ≤ n ∧ (n : ℤ) < bound := ⟨Int.natCast_nonneg n, mod_cast h⟩
  rw [Json.natural, natBelow?, integer?_ofNat (h.trans_le hbound), Option.bind_some, if_pos hrange, Int.toNat_natCast]

theorem member?_named (members : List (String × Json)) (name : String) :
    member? (Json.named members) name = members.lookup name := by
  rw [member?]
  induction members with
  | nil => rfl
  | cons m ms ih =>
    obtain ⟨other, v⟩ := m
    rw [Json.named_cons]
    obtain rfl | hne := eq_or_ne name other
    · rw [List.find?_cons_of_pos (by simp), List.lookup_cons_self, Option.map_some]
    · rw [List.find?_cons_of_neg (by simpa using hne.symm), ih, List.lookup_cons, beq_eq_false_iff_ne.mpr hne]

theorem unambiguous_named (h : (members.map Prod.fst).Nodup) : unambiguous names (Json.named members) := by
  rw [unambiguous, List.all_eq_true]
  intro name _
  have hcount := List.nodup_iff_count_le_one.mp h name
  have hfilter : ((Json.named members).filter fun m => m.1 = some name).length = (members.map Prod.fst).count name := by
    rw [← List.countP_eq_length_filter, Json.named, List.countP_map, List.count, List.countP_map]
    apply List.countP_congr
    simp
  rw [hfilter]
  exact decide_eq_true hcount

/-- What is found for the fields of a record is what their names are looked up to. -/
theorem values?_record (h : (members.map Prod.fst).Nodup) :
    values? names (Json.record members) = some (names.map (members.lookup ·)) := by
  have hsome : (Json.named members).all fun m => m.1.isSome := by
    rw [List.all_eq_true]
    rintro ⟨key, v⟩ hmem
    obtain ⟨name, -, rfl⟩ := Json.mem_named.mp hmem
    rfl
  have hrecord : Json.record members = .object (Json.named members) := rfl
  rw [hrecord, values?, hsome, unambiguous_named h, Bool.and_self, if_pos rfl]
  exact congrArg some (List.map_congr_left fun name _ => member?_named members name)

theorem named?_eq {α : Type} {all : List α} {name : α → String} {x : α} (hnames : (all.map name).Nodup) (hx : x ∈ all) :
    named? all name (name x) = some x := by
  obtain ⟨y, hy⟩ : ∃ y, named? all name (name x) = some y := by
    rw [← Option.isSome_iff_exists, named?, List.find?_isSome]
    exact ⟨x, hx, by simp⟩
  have hsame : name y = name x := by simpa using List.find?_some hy
  rw [hy, List.inj_on_of_nodup_map hnames (List.mem_of_find?_eq_some hy) hx hsame]

/-- The fields are held back with the tag taken out from among them. -/
theorem untag?_record {tag text : String} (h : tag ∉ members.map Prod.fst) :
    untag? tag (Json.record ((tag, .string (some text)) :: members)) = some (text, Json.record members) := by
  have hother {key : Option String} {v : Json} (hmem : (key, v) ∈ Json.named members) : key ≠ some tag := by
    obtain ⟨name, hfield, rfl⟩ := Json.mem_named.mp hmem
    rintro ⟨⟩
    exact h (List.mem_map_of_mem (f := Prod.fst) hfield)
  have hothers : (Json.named members).filter (fun m => m.1 ≠ some tag) = Json.named members := by
    rw [List.filter_eq_self]
    exact fun m hm => decide_eq_true (hother hm)
  have hnone : (Json.named members).filter (fun m => m.1 = some tag) = [] := by
    rw [List.filter_eq_nil_iff]
    exact fun m hm heq => hother hm (of_decide_eq_true heq)
  have hrecord (ms : List (String × Json)) : Json.record ms = .object (Json.named ms) := rfl
  rw [hrecord, hrecord, Json.named_cons, untag?, List.filter_cons_of_pos (by simp), List.filter_cons_of_neg (by simp),
    hnone, hothers]
  rfl

/-- A record takes one level more than its members. -/
theorem holdable_record (h : ∀ m ∈ members, holdable depth m.2) : holdable (depth + 1) (Json.record members) := by
  have hmembers : holdableMembers depth (Json.named members) := by
    induction members with
    | nil => rfl
    | cons m ms ih =>
      obtain ⟨hm, hms⟩ := List.forall_mem_cons.mp h
      simp [holdableMembers, hm, ih hms]
  have hrecord : Json.record members = .object (Json.named members) := rfl
  simp [hrecord, holdable, hmembers]

theorem holdable_ordinary (h : v.Ordinary Json.Literal.IsWord depth) : holdable depth v := by
  induction h with
  | null => rfl
  | bool b => rfl
  | number h =>
    obtain ⟨n, hn, rfl⟩ := h
    simp [holdable, Json.Literal.numeric?, integer?_ofNat hn]
  | string text => rfl
  | record h ih => exact holdable_record ih

theorem lawfulTexts : LawfulTexts standard where
  parse_iff _ := Iff.rfl
  print_eq _ := rfl
  scalar_string _ := rfl
  scalar_integer {l n} h := by
    change l.numeric?.map Json.Scalar.number = _
    rw [Json.Literal.numeric?, h]
    rfl
  scalar_float {l s} h hs := by
    obtain ⟨v, hv, rfl⟩ := Option.map_eq_some_iff.mp hs
    cases Json.Literal.bounded hv with
    | int hn =>
      rw [Json.Literal.numeric?, h] at hv
      obtain ⟨x, -, hx⟩ := Option.map_eq_some_iff.mp hv
      cases hx
    | float hview => exact ⟨_, _, _, _, rfl, hview⟩
  numberText_int _ := rfl
  numberText_float _ := ⟨Json.floatLayout, rfl, le_rfl, fun k hk => by simp [Json.floatLayout] at hk; omega, rfl⟩

theorem lawfulTypes : LawfulTypes standard where
  bool_encode _ := rfl
  bool_decode _ := rfl
  string_encode _ := rfl
  string_decode _ := rfl
  word_encode _ _ _ _ := rfl
  word_decode ofNat _ h hbound := congrArg (Option.map ofNat) (natBelow?_natural h hbound)
  optional_encode _ _ := rfl
  optional_null _ := rfl
  optional_decode := by
    intro α inner v h
    cases v with
    | null => exact absurd rfl h
    | _ => rfl
  newtype_encode _ _ _ _ := rfl
  newtype_decode _ _ _ _ := rfl
  record_encode _ _ _ _ := rfl
  record_decode fields _ make _ _ hmembers :=
    congrArg (fun found => (Option.bind found fields.ofValues?).map make) (values?_record hmembers)
  units_encode _ _ _ := rfl
  units_decode hnames h := named?_eq hnames h
  tagged_encode _ _ := rfl
  tagged_decode := by
    intro κ α t k members hkinds hk _ hmembers hordinary
    obtain ⟨htag, hmembers⟩ := List.nodup_cons.mp hmembers
    have hhold : holdable maxHeldDepth (Json.record members) := holdable_record fun m hm => holdable_ordinary (hordinary m hm)
    change (untag? t.tag _).bind _ = _
    rw [untag?_record htag, Option.bind_some]
    change (named? t.kinds t.name (t.name k)).bind _ = _
    rw [named?_eq hkinds hk, Option.bind_some, if_pos hhold, fieldsOf?, values?_record hmembers, Option.bind_some]

end Standard

/-- The program runs with a library that follows the rules. -/
theorem standard_lawful : standard.Lawful := ⟨Standard.lawfulTexts, Standard.lawfulTypes⟩

end Reckoner.Serialization
