import Reckoner.Proofs.Evaluator.Failures

/-! Names are checked before anything is evaluated, so evaluation never meets one that is not allowed. -/
namespace Reckoner

variable {e : Expr} {es : List Expr} {name : String} {span : Span}

/-- Every name in the expression may be used. -/
def Expr.Allowed (e : Expr) : Prop := ∀ i ∈ e.identifiers, Whitelist.allows i.name

def Expr.AllAllowed (es : List Expr) : Prop := ∀ i ∈ identifiersOfAll es, Whitelist.allows i.name

namespace Whitelist

theorem mem_names_of_ofName? {f : Function} (h : Function.ofName? name = some f) : name ∈ names := by
  rw [← Function.name_of_ofName? h]
  cases f <;> decide

/-- What is looked up stands for something just if the name is in the list. -/
theorem allows_iff (name : String) : allows name ↔ name ∈ names := by
  rw [allows, lookup]
  constructor
  · intro h
    split at h
    · next hpi => exact hpi ▸ by decide
    · split at h
      · next he => exact he ▸ by decide
      · obtain ⟨f, hf⟩ := Option.isSome_iff_exists.mp (Option.isSome_map ▸ h)
        exact mem_names_of_ofName? hf
  · intro h
    have hall : ∀ name ∈ names, (lookup name).isSome := by decide
    exact hall name h

theorem exists_lookup (h : allows name) : ∃ binding, lookup name = some binding :=
  Option.isSome_iff_exists.mp h

/-- The first identifier that is not allowed is reported, if there is one. -/
theorem validate_eq (e : Expr) : validate e =
    match e.identifiers.find? fun i => i.name ∉ names with
    | none => .ok ()
    | some i => .error (.nameNotAllowed i.name i.span) := by
  have hsame : (fun i : Identifier => !allows i.name) = fun i => decide (i.name ∉ names) := by
    funext i
    simp only [← allows_iff]
    cases allows i.name <;> rfl
  rw [validate, rejected, hsame, ← List.head?_filter]
  cases e.identifiers.filter fun i => decide (i.name ∉ names) <;> rfl

theorem validate_eq_ok_iff : validate e = .ok () ↔ e.Allowed := by
  rw [validate_eq]
  simp only [Expr.Allowed, allows_iff]
  cases h : e.identifiers.find? fun i => i.name ∉ names with
  | none => simpa using h
  | some i =>
    have hmem := List.mem_of_find?_eq_some h
    have hno := List.find?_some h
    simp only [reduceCtorEq, false_iff]
    exact fun hall => absurd (hall i hmem) (by simpa using hno)

end Whitelist

namespace Evaluator
open Arithmetic

theorem nameValue_arithmetic (h : Whitelist.allows name) : Arithmetic (nameValue name span) := by
  obtain ⟨binding, hbinding⟩ := Whitelist.exists_lookup h
  rw [nameValue, hbinding]
  cases binding with
  | constant x => exact ok _
  | function f => exact error trivial

theorem callee_arithmetic (h : Whitelist.allows name) : Arithmetic (callee name span) := by
  obtain ⟨binding, hbinding⟩ := Whitelist.exists_lookup h
  rw [callee, hbinding]
  cases binding with
  | constant x => exact error trivial
  | function f => exact ok f

mutual

theorem value_arithmetic (bits : UInt64) : ∀ e : Expr, e.Allowed → Arithmetic (value bits e)
  | .int _ _, _ => ok _
  | .float _ _, _ => ok _
  | .name _ _, h => nameValue_arithmetic (h _ (List.mem_singleton_self _))
  | .call _ _ args _, h => by
    obtain ⟨hcallee, hargs⟩ := List.forall_mem_cons.mp h
    exact (callee_arithmetic hcallee).bind fun f => (values_arithmetic bits args hargs).bind fun xs =>
      f.call_arithmetic xs
  | .binary op left right _, h => by
    obtain ⟨hleft, hright⟩ := List.forall_mem_append.mp h
    exact (value_arithmetic bits left hleft).bind fun x => (value_arithmetic bits right hright).bind fun y =>
      Number.binary_arithmetic op x y bits
  | .signed _ operand _, h => (value_arithmetic bits operand h).bind fun _ => ok _
  | .paren inner _, h => value_arithmetic bits inner h

theorem values_arithmetic (bits : UInt64) : ∀ es, Expr.AllAllowed es → Arithmetic (values bits es)
  | [], _ => ok _
  | e :: es, h => by
    obtain ⟨he, hes⟩ := List.forall_mem_append.mp h
    exact (value_arithmetic bits e he).bind fun _ => (values_arithmetic bits es hes).bind fun _ => ok _

end

/-- An expression whose names are checked never fails for a name, whatever the limits. -/
theorem run_ne_nameNotAllowed (h : Whitelist.validate e = .ok ()) (limits : Limits) (gas : Nat) :
    (run limits gas e).1 ≠ .error (.nameNotAllowed name span) := by
  rw [run_eq]
  split
  · intro hname
    exact value_arithmetic limits.maxIntBits e (Whitelist.validate_eq_ok_iff.mp h) _ hname
  · simp

end Evaluator
end Reckoner
