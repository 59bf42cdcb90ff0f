import Reckoner.Proofs.Expr.Places
import Reckoner.Proofs.Grammar.Derivation

/-! Where derived expressions lie: each reaches from the first to the last of its tokens, the expressions
directly inside it lie there one after another, and with its tokens it can be moved to another place. -/
namespace Reckoner

variable {k : UInt32} {ts us : List Token} {t : Token}

/-- The expressions directly inside lie within it, one after another. -/
structure Expr.Nested (e : Expr) : Prop where
  inside : ∀ s ∈ e.childSpans, e.span.start ≤ s.start ∧ s.stop ≤ e.span.stop
  increasing : e.childSpans.Pairwise fun a b => a.stop ≤ b.start

namespace Grammar
open Token

variable {p : Phrase} {e q : Expr}

/-- A derived expression covers its tokens from the first to the last one. -/
theorem Derives.reaches (h : Derives p ts e) (hts : InOrder ts) : e.span.Reaches ts := by
  induction h with
  | term _ ih | factor _ ih | unsigned _ ih | base _ ih | primary _ ih => exact ih hts
  | @sum t _ _ _ _ _ _ _ _ ihl ihr | @product t _ _ _ _ _ _ _ _ ihl ihr
  | @power t _ _ _ _ _ _ _ _ ihl ihr =>
    obtain ⟨hleft, hright⟩ := hts.operands
    exact (ihl hleft).merge [t] (ihr hright) hts
  | @sign t ts _ _ _ _ ih =>
    exact (Span.Reaches.singleton t).merge [] (ih (hts.sublist (List.sublist_cons_self t ts))) hts
  | @call callee opening closing _ inside =>
    exact (Span.Reaches.singleton callee).merge (opening :: inside) (.singleton closing) hts
  | int _ | float _ | name _ => exact .singleton _
  | @paren opening closing ts =>
    exact (Span.Reaches.singleton opening).merge ts (.singleton closing) hts

/-- What is directly inside a derived expression has tokens of its own, one run after another. -/
theorem Derives.exists_childRuns (h : Derives p ts e) (hts : InOrder ts) :
    ∃ runs : List (List Token × Span), runs.map Prod.snd = e.childSpans ∧
      (runs.map Prod.fst).flatten.Sublist ts ∧ ∀ r ∈ runs, r.2.Reaches r.1 := by
  induction h with
  | term _ ih | factor _ ih | unsigned _ ih | base _ ih | primary _ ih => exact ih hts
  | @sum t ts us l r _ hl _ hr | @product t ts us l r _ hl _ hr | @power t ts us l r _ hl _ hr =>
    obtain ⟨hleft, hright⟩ := hts.operands
    exact ⟨[(ts, l.span), (us, r.span)], rfl, by simp, by simpa using ⟨hl.reaches hleft, hr.reaches hright⟩⟩
  | @sign t ts _ e _ operand =>
    have hoperand := operand.reaches (hts.sublist (List.sublist_cons_self t ts))
    exact ⟨[(ts, e.span)], rfl, by simp, by simpa using hoperand⟩
  | @call callee opening closing name inside args _ _ hargs separated _ =>
    have hinside : InOrder inside := hts.sublist (by simp [List.sublist_append_left])
    refine ⟨([callee], callee.span) :: args.map fun a => (a.1, a.2.span), by simp [Expr.childSpans], ?_, ?_⟩
    · have hflat := separated.flatten_sublist.trans (List.sublist_append_left inside [closing])
      simpa [Function.comp_def] using (hflat.cons opening).cons_cons callee
    · refine List.forall_mem_cons.mpr ⟨.singleton callee, List.forall_mem_map.mpr fun a ha => ?_⟩
      have hsub := (separated.isInfix (List.mem_map_of_mem ha)).sublist
      exact (hargs a ha).reaches (hinside.sublist hsub)
  | int _ | float _ | name _ => exact ⟨[], rfl, by simp, by simp⟩
  | @paren opening closing ts e _ inner =>
    have hinner : InOrder ts := hts.sublist (by simp)
    exact ⟨[(ts, e.span)], rfl, by simp, by simpa using inner.reaches hinner⟩

theorem Derives.nested (h : Derives p ts e) (hts : InOrder ts) : e.Nested := by
  obtain ⟨runs, hspans, hsub, hruns⟩ := h.exists_childRuns hts
  have horder := (List.pairwise_flatten.mp (hts.sublist hsub).increasing).2
  rw [List.pairwise_map] at horder
  constructor
  · rw [← hspans]
    refine List.forall_mem_map.mpr fun r hr => (hruns r hr).within (h.reaches hts) hts fun t ht => ?_
    exact hsub.subset (List.mem_flatten.mpr ⟨r.1, List.mem_map_of_mem hr, ht⟩)
  · rw [← hspans, List.pairwise_map]
    exact horder.imp_of_mem fun hr hr' hcross => (hruns _ hr).before (hruns _ hr') hcross

/-- Whatever binds tighter is a sum of a single operand as well. -/
theorem Derives.widen (h : Derives p ts e) : Derives .sum ts e := by
  cases p with
  | sum => exact h
  | product => exact .term h
  | unary => exact .term (.factor h)
  | power => exact .term (.factor (.unsigned h))
  | call => exact .term (.factor (.unsigned (.base h)))
  | primary => exact .term (.factor (.unsigned (.base (.primary h))))

theorem exists_run_of_operands {l r : Expr} {op : BinaryOp} (whole : Derives p (ts ++ t :: us) (l.join op r))
    (hl : q ∈ l.parts → ∃ run, run <:+: ts ∧ Derives .sum run q)
    (hr : q ∈ r.parts → ∃ run, run <:+: us ∧ Derives .sum run q) (hq : q ∈ (l.join op r).parts) :
    ∃ run, run <:+: ts ++ t :: us ∧ Derives .sum run q := by
  obtain rfl | hq := List.mem_cons.mp hq
  · exact ⟨_, List.infix_refl _, whole.widen⟩
  obtain hq | hq := List.mem_append.mp hq
  · obtain ⟨run, hrun, hd⟩ := hl hq
    exact ⟨run, hrun.trans (List.prefix_append ts _).isInfix, hd⟩
  · obtain ⟨run, hrun, hd⟩ := hr hq
    exact ⟨run, hrun.trans ((List.suffix_cons t us).trans (List.suffix_append ts _)).isInfix, hd⟩

/-- Every part of a derived expression is derived from some tokens that stand together. -/
theorem Derives.exists_run (h : Derives p ts e) (hq : q ∈ e.parts) :
    ∃ run, run <:+: ts ∧ Derives .sum run q := by
  induction h with
  | term _ ih | factor _ ih | unsigned _ ih | base _ ih | primary _ ih => exact ih hq
  | sum left operator right ihl ihr => exact exists_run_of_operands (.sum left operator right) ihl ihr hq
  | product left operator right ihl ihr => exact exists_run_of_operands (.product left operator right) ihl ihr hq
  | power base operator exponent ihb ihx => exact exists_run_of_operands (.power base operator exponent) ihb ihx hq
  | @sign t ts _ _ hsign operand ih =>
    obtain rfl | hq := List.mem_cons.mp hq
    · exact ⟨_, List.infix_refl _, (Derives.sign hsign operand).widen⟩
    · obtain ⟨run, hrun, hd⟩ := ih hq
      exact ⟨run, hrun.trans (List.suffix_cons t ts).isInfix, hd⟩
  | @call callee opening closing _ inside _ hcallee hopening hargs separated hclosing ih =>
    obtain rfl | hq := List.mem_cons.mp hq
    · exact ⟨_, List.infix_refl _, (Derives.call hcallee hopening hargs separated hclosing).widen⟩
    · rw [Expr.partsOfAll_eq] at hq
      obtain ⟨_, hmem, hq⟩ := List.mem_flatMap.mp hq
      obtain ⟨a, ha, rfl⟩ := List.mem_map.mp hmem
      obtain ⟨run, hrun, hd⟩ := ih a ha hq
      have hinside : inside <:+: callee :: opening :: (inside ++ [closing]) := ⟨[callee, opening], [closing], by simp⟩
      exact ⟨run, (hrun.trans (separated.isInfix (List.mem_map_of_mem ha))).trans hinside, hd⟩
  | int h =>
    cases List.mem_singleton.mp hq
    exact ⟨_, List.infix_refl _, (Derives.int h).widen⟩
  | float h =>
    cases List.mem_singleton.mp hq
    exact ⟨_, List.infix_refl _, (Derives.float h).widen⟩
  | name h =>
    cases List.mem_singleton.mp hq
    exact ⟨_, List.infix_refl _, (Derives.name h).widen⟩
  | @paren opening closing ts _ hopening inner hclosing ih =>
    obtain rfl | hq := List.mem_cons.mp hq
    · exact ⟨_, List.infix_refl _, (Derives.paren hopening inner hclosing).widen⟩
    · obtain ⟨run, hrun, hd⟩ := ih hq
      have hinner : ts <:+: opening :: (ts ++ [closing]) := ⟨[opening], [closing], by simp⟩
      exact ⟨run, hrun.trans hinner, hd⟩

theorem Separated.relativeTo {parts : List (List Token)} {inside : List Token} (h : Separated parts inside)
    (k : UInt32) : Separated (parts.map (List.map (Token.relativeTo k))) (inside.map (Token.relativeTo k)) := by
  induction h with
  | none => exact .none
  | last part => exact .last _
  | comma part hcomma _ ih =>
    rw [List.map_append, List.map_cons]
    exact .comma _ hcomma ih

theorem Derives.notBefore (h : Derives p ts e) (hts : ∀ t ∈ ts, t.span.NotBefore k) : e.span.NotBefore k := by
  induction h with
  | term _ ih | factor _ ih | unsigned _ ih | base _ ih | primary _ ih => exact ih hts
  | sum _ _ _ ihl ihr | product _ _ _ ihl ihr | power _ _ _ ihl ihr =>
    obtain ⟨hleft, hright⟩ := List.forall_mem_append.mp hts
    exact (ihl hleft).merge (ihr (List.forall_mem_cons.mp hright).2)
  | sign _ _ ih =>
    obtain ⟨hsign, hoperand⟩ := List.forall_mem_cons.mp hts
    exact hsign.merge (ih hoperand)
  | call _ _ _ _ _ _ | paren _ _ _ _ => exact (hts _ (by simp)).merge (hts _ (by simp))
  | int _ | float _ | name _ => exact hts _ (List.mem_singleton_self _)

/-- Tokens whose places are counted from an earlier byte derive the expression whose places are. -/
theorem Derives.relativeTo (h : Derives p ts e) (hts : ∀ t ∈ ts, t.span.NotBefore k) :
    Derives p (ts.map (Token.relativeTo k)) (e.relativeTo k) := by
  induction h with
  | term _ ih => exact .term (ih hts)
  | factor _ ih => exact .factor (ih hts)
  | unsigned _ ih => exact .unsigned (ih hts)
  | base _ ih => exact .base (ih hts)
  | primary _ ih => exact .primary (ih hts)
  | sum left operator right ihl ihr =>
    simp only [List.forall_mem_append, List.forall_mem_cons] at hts
    obtain ⟨hl, -, hr⟩ := hts
    rw [List.map_append, List.map_cons, ← Expr.join_relativeTo (left.notBefore hl) (right.notBefore hr)]
    exact .sum (ihl hl) operator (ihr hr)
  | product left operator right ihl ihr =>
    simp only [List.forall_mem_append, List.forall_mem_cons] at hts
    obtain ⟨hl, -, hr⟩ := hts
    rw [List.map_append, List.map_cons, ← Expr.join_relativeTo (left.notBefore hl) (right.notBefore hr)]
    exact .product (ihl hl) operator (ihr hr)
  | power base operator exponent ihb ihx =>
    simp only [List.forall_mem_append, List.forall_mem_cons] at hts
    obtain ⟨hb, -, hx⟩ := hts
    rw [List.map_append, List.map_cons, ← Expr.join_relativeTo (base.notBefore hb) (exponent.notBefore hx)]
    exact .power (ihb hb) operator (ihx hx)
  | sign hsign operand ih =>
    obtain ⟨ht, ho⟩ := List.forall_mem_cons.mp hts
    rw [List.map_cons, Expr.relativeTo, ← Span.merge_relativeTo ht (operand.notBefore ho), ← Expr.span_relativeTo]
    exact .sign hsign (ih ho)
  | @call callee opening closing _ inside args hcallee hopening hargs separated hclosing ih =>
    have hmerge := Span.merge_relativeTo (hts callee (by simp)) (hts closing (by simp))
    have hinside (a) (ha : a ∈ args) (t) (ht : t ∈ a.1) : t.span.NotBefore k := by
      have hmem := (separated.isInfix (List.mem_map_of_mem ha)).subset ht
      exact hts t (by simp [hmem])
    let moved := args.map fun a => (a.1.map (Token.relativeTo k), a.2.relativeTo k)
    have hmoved : ∀ a ∈ moved, Derives .sum a.1 a.2 :=
      List.forall_mem_map.mpr fun a ha => ih a ha (hinside a ha)
    have hseparated : Separated (moved.map Prod.fst) (inside.map (Token.relativeTo k)) := by
      simpa [moved, Function.comp_def] using separated.relativeTo k
    have hcall : Derives .call (callee.relativeTo k :: opening.relativeTo k ::
        (inside.map (Token.relativeTo k) ++ [closing.relativeTo k])) _ :=
      .call hcallee hopening hmoved hseparated hclosing
    simpa [Expr.relativeTo, Expr.relativeToAll_eq, moved, Function.comp_def, ← hmerge, Token.relativeTo] using hcall
  | int h => exact .int h
  | float h => exact .float h
  | name h => exact .name h
  | @paren opening closing ts _ hopening inner hclosing ih =>
    have hmerge := Span.merge_relativeTo (hts opening (by simp)) (hts closing (by simp))
    have hinner (t) (ht : t ∈ ts) : t.span.NotBefore k := hts t (by simp [ht])
    rw [List.map_cons, List.map_append, Expr.relativeTo, ← hmerge]
    exact .paren hopening (ih hinner) hclosing

end Grammar
end Reckoner
