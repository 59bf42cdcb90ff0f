import Reckoner.Proofs.Calculation.Naming
import Reckoner.Proofs.Token.Context
import Reckoner.Proofs.Token.Layout

/-! What is calculated from a text depends on its lexemes alone: spaces between them, keypad signs, and the
sign chosen for powers change neither a display nor what is said of a failure. -/
namespace Reckoner
open Token

variable {limits : Limits} {s s' : String} {tokens tokens' : List Token} {e e' : Expr}

theorem Agree.refl {α : Type} (x : Except Diagnostic α) : Agree Eq x x := by
  cases x with
  | ok a => exact .ok rfl
  | error d => exact .error ⟨rfl, rfl, rfl⟩

theorem Agree.eq_ok {α : Type} {a : α} {y : Except Diagnostic α} (h : Agree Eq (.ok a) y) : y = .ok a := by
  cases h with
  | ok h => rw [h]

/-- The first name that is not allowed is the same in trees that are the same up to places. -/
theorem Whitelist.validate_agree (h : e.bare = e'.bare) :
    Agree (fun _ _ => e.Allowed ∧ e'.Allowed) (validate e) (validate e') := by
  have hfirst (ids : List Identifier) : ((ids.map Expr.bareIdentifier).find? fun i => i.name ∉ names) =
      (ids.find? fun i => i.name ∉ names).map Expr.bareIdentifier := List.find?_map ..
  have hfind := hfirst e.identifiers
  rw [← Expr.identifiers_bare, h, Expr.identifiers_bare, hfirst] at hfind
  by_cases ha : e.Allowed
  · have ha' : e'.Allowed := by rwa [← Expr.allowed_bare, ← h, Expr.allowed_bare]
    rw [validate_eq_ok_iff.mpr ha, validate_eq_ok_iff.mpr ha']
    exact .ok ⟨ha, ha'⟩
  · rw [← validate_eq_ok_iff] at ha
    rw [validate_eq] at ha ⊢
    rw [validate_eq]
    cases hi : e.identifiers.find? fun i => i.name ∉ names with
    | none =>
      rw [hi] at ha
      exact absurd rfl ha
    | some i =>
      rw [hi] at hfind
      obtain ⟨i', hi', hname⟩ := Option.map_eq_some_iff.mp hfind
      rw [hi']
      simp only [Expr.bareIdentifier, Identifier.mk.injEq, and_true] at hname
      exact .error ⟨rfl, rfl, by simp only [Diagnostic.display, hname]⟩

namespace Calculation

theorem evaluate_eq_bind (limits : Limits) (source : String) : evaluate limits source = (do
    let e ← read limits source
    Whitelist.validate e
    (Evaluator.run limits 0 e).1.mapError EvalError.diagnostic) := by
  cases hread : read limits source with
  | error d =>
    rw [evaluate, result, hread]
    rfl
  | ok e => exact evaluate_of_read hread

/-- Tokens that are alike are evaluated alike, in texts that are not too long. -/
theorem evaluate_agree (h : ofText s = .ok tokens) (h' : ofText s' = .ok tokens')
    (halike : List.Forall₂ Token.Alike tokens tokens') (hlength : s.length ≤ limits.maxInputLength.toNat)
    (hlength' : s'.length ≤ limits.maxInputLength.toNat) : Agree Eq (evaluate limits s) (evaluate limits s') := by
  have hread {s : String} {tokens : List Token} (h : ofText s = .ok tokens)
      (hlength : s.length ≤ limits.maxInputLength.toNat) :
      read limits s = Expr.ofTokens limits.maxDepth tokens := by
    simp only [read, if_neg (Nat.not_lt.mpr hlength)]
    change ofText s >>= Expr.ofTokens limits.maxDepth = _
    rw [h]
    rfl
  rw [evaluate_eq_bind, evaluate_eq_bind, hread h hlength, hread h' hlength']
  apply (Expr.ofTokens_agree limits.maxDepth halike).bind
  intro e e' he
  apply (Whitelist.validate_agree he).bind
  rintro _ _ ⟨ha, ha'⟩
  rw [← Evaluator.run_bare limits 0 ha, he, Evaluator.run_bare limits 0 ha']
  exact .refl _

theorem calculate_of_ne_nil (h : (Glyph.normalize s).toList ≠ []) : calculate limits s = (do
    let v ← evaluate limits (Glyph.normalize s)
    (Display.number v).mapError EvalError.diagnostic) := by
  have hempty : ¬ (Glyph.normalize s).isEmpty := by
    rw [String.isEmpty_iff, ← String.toList_inj]
    exact h
  simp only [calculate, if_neg hempty]

/-- A text that has tokens is a sequence of lexemes with their spellings. Laid out with other spaces between
them, and with keypad signs or the other sign of powers, they are read as the same tokens, and what is
calculated is the same: the display, or the kind, the code and the display of the failure. -/
theorem layout_changes_nothing (s : String) (tokens : List Token) (h : ofText s = .ok tokens) :
    (∃ ls, Spelled 0 s.toList ls) ∧
    ∀ ls, Spelled 0 s.toList ls → tokens.map Token.lexeme = ls.map Prod.snd ++ [.endOfInput] ∧
      ∀ (words : List (List Char)) (s' : String),
        List.Forall₂ Lexeme.Respells (ls.map Prod.fst) words → LaidOut words s'.toList →
        (∃ tokens', ofText (Glyph.normalize s') = .ok tokens' ∧ List.Forall₂ Token.Alike tokens tokens') ∧
        ∀ limits : Limits, s.length ≤ limits.maxInputLength.toNat → s'.length ≤ limits.maxInputLength.toNat →
          Agree Eq (calculate limits s) (calculate limits s') := by
  refine ⟨(scanFrom_eq_ok_iff.mp h).exists_spelled.imp fun ls hls => hls.1, fun ls hls => ?_⟩
  obtain ⟨_, hscanned, htokens⟩ := hls.exists_scanned 0
  cases h.symm.trans hscanned.scanFrom_eq
  refine ⟨htokens, fun words s' hwords hs' => ?_⟩
  obtain ⟨ls', hls', halike⟩ := hls.layout hwords hs'
  rw [← String.toList_map] at hls'
  obtain ⟨tokens', hscanned', htokens'⟩ := hls'.exists_scanned 0
  have h' : ofText (Glyph.normalize s') = .ok tokens' := hscanned'.scanFrom_eq
  have hsame : List.Forall₂ Token.Alike tokens tokens' := by
    have hlexemes : List.Forall₂ Lexeme.Alike (tokens.map Token.lexeme) (tokens'.map Token.lexeme) := by
      rw [htokens, htokens']
      exact List.rel_append halike (.cons (.refl _) .nil)
    rwa [List.forall₂_map_left_iff, List.forall₂_map_right_iff] at hlexemes
  refine ⟨⟨tokens', h', hsame⟩, fun limits hlength hlength' => ?_⟩
  have hne : ls ≠ [] := by
    rintro rfl
    cases hwords
    obtain ⟨_, _, -, -, hno⟩ := hs'
    cases hno
  have hne' : ls' ≠ [] := by
    rintro rfl
    exact hne (List.map_eq_nil_iff.mp (List.forall₂_nil_right_iff.mp halike))
  have hnormal : Glyph.normalize s = s := Glyph.normalize_eq_self hls.lt
  have hlength' : (Glyph.normalize s').length ≤ limits.maxInputLength.toNat := by
    rwa [Glyph.normalize, String.length_map]
  rw [calculate_of_ne_nil (hls'.ne_nil hne'), calculate_of_ne_nil (by rw [hnormal]; exact hls.ne_nil hne), hnormal]
  apply (evaluate_agree h h' hsame hlength hlength').bind
  rintro v _ rfl
  exact .refl _

/-- A difference with spaces, a keypad minus and the other sign of powers is the same number. -/
theorem difference_laid_out_anew : calculate .standard "5-2**3" = .ok "-3" ∧
    LaidOut [['5'], ['−'], ['2'], ['^'], ['3']] " 5 − 2\t^ 3 \n".toList ∧
    calculate .standard " 5 − 2\t^ 3 \n" = .ok "-3" := by
  have hshown : calculate .standard "5-2**3" = .ok "-3" := by decide +kernel
  obtain ⟨tokens, htokens⟩ : ∃ tokens, ofText "5-2**3" = .ok tokens := ⟨_, by cbv⟩
  have hspelled : Spelled 0 (['5'] ++ (['-'] ++ (['2'] ++ (['*', '*'] ++ (['3'] ++ [])))))
      [(['5'], .int 5), (['-'], .minus), (['2'], .int 2), (['*', '*'], .starStar), (['3'], .int 3)] :=
    .lexeme (Lexeme.lexes_of_scan rfl) (.lexeme (Lexeme.lexes_of_scan rfl) (.lexeme (Lexeme.lexes_of_scan rfl)
      (.lexeme (Lexeme.lexes_of_scan rfl) (.lexeme (Lexeme.lexes_of_scan rfl) (.done _)))))
  have hrespelled : List.Forall₂ Lexeme.Respells [['5'], ['-'], ['2'], ['*', '*'], ['3']]
      [['5'], ['−'], ['2'], ['^'], ['3']] :=
    .cons (.inl rfl) (.cons (.inl rfl) (.cons (.inl rfl) (.cons (.inr ⟨by decide, by decide⟩)
      (.cons (.inl rfl) .nil))))
  have hblank : ∀ c ∈ [' '], Lexeme.isBlank c := List.forall_mem_singleton.mpr rfl
  have htab : ∀ c ∈ ['\t'], Lexeme.isBlank c := List.forall_mem_singleton.mpr rfl
  have htrail : ∀ c ∈ [' ', '\n'], Lexeme.isSpace c :=
    List.forall_mem_cons.mpr ⟨rfl, List.forall_mem_singleton.mpr rfl⟩
  have hlaid : LaidOut [['5'], ['−'], ['2'], ['^'], ['3']] " 5 − 2\t^ 3 \n".toList :=
    ⟨[' '], _, rfl, hblank, .cons ['5'] hblank (List.cons_ne_nil _ _) (.cons ['−'] hblank (List.cons_ne_nil _ _)
      (.cons ['2'] htab (List.cons_ne_nil _ _) (.cons ['^'] hblank (List.cons_ne_nil _ _) (.last ['3'] htrail))))⟩
  have hagree := (((layout_changes_nothing "5-2**3" tokens htokens).2 _ hspelled).2 _ _ hrespelled hlaid).2
    .standard (by decide) (by decide)
  rw [hshown] at hagree
  exact ⟨hshown, hlaid, hagree.eq_ok⟩

end Calculation
end Reckoner
