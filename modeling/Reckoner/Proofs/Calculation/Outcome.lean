import Reckoner.Proofs.Calculation.Composition
import Reckoner.Proofs.Evaluator.Allowance

/-! What is calculated from a text, told from what is read of it. -/
namespace Reckoner.Calculation

variable {limits : Limits} {s d : String} {e : Expr} {v : Number}

theorem mapError_eq_ok_iff {ε ε' α : Type} {x : Except ε α} {f : ε → ε'} {a : α} :
    x.mapError f = .ok a ↔ x = .ok a := by
  cases x with
  | error d => simp [Except.mapError]
  | ok b => simp [Except.mapError]

/-- What is read is read with all of its tokens. -/
theorem reading_of_read (h : read limits s = .ok e) (ha : e.Allowed) : ∃ ts, Reading s ts e ∧
    s.length ≤ limits.maxInputLength.toNat ∧ e.depth ≤ limits.maxDepth.toNat := by
  obtain ⟨hlength, tokens, ht, hp⟩ := read_eq_ok_iff.mp h
  obtain ⟨ts, eof, rfl, hts, heof⟩ := Token.scanFrom_shape ht
  obtain ⟨hd, hlt⟩ := Grammar.derivesWithin_of_ofTokens hts heof hp
  exact ⟨ts, ⟨⟨eof, heof, ht⟩, hd, ha⟩, hlength, by rw [Expr.depth]; omega⟩

/-- Texts with a value are those within the limits whose expression has one at this width. -/
theorem evaluate_eq_ok_iff : evaluate limits s = .ok v ↔
    ∃ ts e, Reading s ts e ∧ Fits limits s e ∧ Evaluator.value limits.maxIntBits e = .ok v := by
  constructor
  · intro h
    cases hread : read limits s with
    | error d =>
      rw [evaluate, result, hread] at h
      cases h
    | ok e =>
      rw [evaluate_of_read hread] at h
      obtain ⟨_, hvalid, h⟩ := bind_eq_ok_iff.mp h
      obtain ⟨ts, hr, hlength, hdepth⟩ := reading_of_read hread (Whitelist.validate_eq_ok_iff.mp hvalid)
      obtain ⟨hv, hgas⟩ := Evaluator.run_eq_ok_iff.mp (mapError_eq_ok_iff.mp h)
      exact ⟨ts, e, hr, ⟨hlength, hdepth, by omega⟩, hv⟩
  · rintro ⟨ts, e, hr, hfits, hv⟩
    rw [hr.evaluate limits hfits, hv]
    rfl

/-- A display is that of an empty text or that of a value. -/
theorem calculate_eq_ok_iff : calculate limits s = .ok d ↔
    if (Glyph.normalize s).isEmpty then d = emptyDisplay
    else ∃ v, evaluate limits (Glyph.normalize s) = .ok v ∧ Display.number v = .ok d := by
  unfold calculate
  dsimp only
  split
  · exact ⟨fun h => (Except.ok.inj h).symm, fun h => congrArg Except.ok h.symm⟩
  · exact bind_eq_ok_iff.trans (exists_congr fun v => and_congr_right fun _ => mapError_eq_ok_iff)

end Reckoner.Calculation
