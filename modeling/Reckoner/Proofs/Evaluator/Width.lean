import Reckoner.Proofs.Evaluator.Metering
import Reckoner.Proofs.Expr.Parts
import Reckoner.Proofs.Number.Width

/-! The integers that are values of expressions: what is true of the narrow ones and of those written in an
expression is true of all of them, as far as rounding to places keeps it. -/
namespace Reckoner.Evaluator

variable {bits : UInt64} {P : Int → Prop}

theorem name_of_lookup {name : String} {f : Function} (h : Whitelist.lookup name = some (.function f)) :
    f.name = name := by
  unfold Whitelist.lookup at h
  split at h
  · cases h
  · split at h
    · cases h
    · obtain ⟨g, hg, h⟩ := Option.map_eq_some_iff.mp h
      cases h
      exact Function.name_of_ofName? hg

theorem name_of_callee {name : String} {span : Span} {f : Function} (h : callee name span = .ok f) :
    f.name = name := by
  unfold callee at h
  split at h
  · next hlookup =>
    cases h
    exact name_of_lookup hlookup
  · cases h
  · cases h

/-- The integers written in an expression have a property, and so has a rounding that its value may come from. -/
structure Supports (P : Int → Prop) (e : Expr) : Prop where
  written : ∀ n span, .int n span ∈ e.parts → P n
  rounds : e.PassesRounding → Function.KeepsRounding P

theorem Supports.argument {name : String} {span s : Span} {args : List Expr} {e : Expr}
    (h : Supports P (.call name span args s)) (he : e ∈ args) : Supports P e where
  written n span hn := h.written n span (List.mem_cons_of_mem _ (Expr.mem_partsOfAll he hn))
  rounds hround := h.rounds (.call he hround)

theorem Supports.operand {sign : Sign} {e : Expr} {s : Span} (h : Supports P (.signed sign e s)) :
    Supports P e where
  written n span hn := h.written n span (List.mem_cons_of_mem _ hn)
  rounds hround := h.rounds (.signed hround)

theorem Supports.inner {e : Expr} {s : Span} (h : Supports P (.paren e s)) : Supports P e where
  written n span hn := h.written n span (List.mem_cons_of_mem _ hn)
  rounds hround := h.rounds (.paren hround)

theorem length_values (es : List Expr) {xs : List Number} (h : values bits es = .ok xs) :
    xs.length = es.length := by
  induction es generalizing xs with
  | nil =>
    cases h
    rfl
  | cons e es ih =>
    obtain ⟨x, -, h⟩ := bind_eq_ok_iff.mp h
    obtain ⟨ys, hys, h⟩ := bind_eq_ok_iff.mp h
    cases h
    rw [List.length_cons, List.length_cons, ih hys]

mutual

theorem value_yields (h : Width bits P) : ∀ e : Expr, Supports P e → Yields P (value bits e)
  | .int n span, hp => .int (hp.written n span (List.mem_singleton_self _))
  | .float x _, _ => .float x
  | .name text span, _ => by
    rw [value, nameValue]
    split
    · exact .float _
    · exact .error _
    · exact .error _
  | .call name span args s, hp => .bind fun f hf => .bind fun xs hxs => by
    refine Function.call_yields h f (fun hround hlength => ?_) fun n hn => ?_
    · refine hp.rounds (.round ⟨?_, (length_values args hxs).symm.trans hlength⟩)
      rw [← hround, name_of_callee hf]
    · exact values_yield h args (fun _ he => hp.argument he) xs hxs n hn
  | .binary op left right _, _ => .bind fun x _ => .bind fun y _ => Number.binary_yields h op x y
  | .signed sign operand _, hp => .bind fun x hx => by
    have hn (n : Int) (hn : x = .int n) : P n := value_yields h operand hp.operand n (hn ▸ hx)
    cases x with
    | float x => cases sign <;> exact .float _
    | int n =>
      cases sign with
      | negative => exact .int (h.neg n (hn n rfl))
      | positive => exact .int (hn n rfl)
  | .paren inner _, hp => value_yields h inner hp.inner

theorem values_yield (h : Width bits P) : ∀ es : List Expr, (∀ e ∈ es, Supports P e) →
    ∀ xs, values bits es = .ok xs → ∀ n, .int n ∈ xs → P n
  | [], _, xs, hxs, n, hn => by
    cases hxs
    cases hn
  | e :: es, hp, xs, hxs, n, hn => by
    obtain ⟨he, hes⟩ := List.forall_mem_cons.mp hp
    obtain ⟨x, hx, hxs⟩ := bind_eq_ok_iff.mp hxs
    obtain ⟨ys, hys, hxs⟩ := bind_eq_ok_iff.mp hxs
    cases hxs
    obtain rfl | hn := List.mem_cons.mp hn
    · exact value_yields h e he n hx
    · exact values_yield h es hes ys hys n hn

end

end Reckoner.Evaluator
