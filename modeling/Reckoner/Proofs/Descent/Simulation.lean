import Reckoner.Proofs.Descent.Invariant
import Reckoner.Proofs.Grammar.Progress

/-! Each routine of the machine reads what its rule of the grammar reads, uniformly in the calls that wait for it. The
induction is on the levels that are left; within a level, loops go by the tokens ahead. -/
namespace Reckoner.Descent
open Grammar StateTransition

variable {α β : Type} {d : Descent} {s t u : State} {f : Frame} {frames : List Frame} {e : Expr}
  {reason : Diagnostic} {r : Routine} {strength : Strength} {levels : ℕ} {nested operand : Rule Expr}
  {give : α → Control} {opened : ℕ} {x : Except Diagnostic (Expr × Cursor)}

@[simp]
theorem call_frames (s : State) (f : Frame) : (s.call f).frames = f :: s.frames := rfl

theorem Strength.not_startsOperand (strength : Strength) (l : Lexeme) (op : BinaryOp) (h : strength.op? l = some op) :
    ¬StartsOperand l := by
  cases strength <;> cases l <;> first | exact id | cases h

section Cursors

/-- The tokens that are not passed. -/
def cursor (d : Descent) (s : State) : Cursor :=
  ⟨d.tokens.drop s.position, d.tokens.getLast?.getD ⟨.endOfInput, .point 0⟩⟩

theorem cursor_start (d : Descent) : d.cursor .start = .ofTokens d.tokens := rfl

theorem cursor_congr (h : t.position = s.position) : d.cursor t = d.cursor s := by
  rw [cursor, cursor, h]

@[simp]
theorem cursor_call (d : Descent) (s : State) (f : Frame) : d.cursor (s.call f) = d.cursor s := rfl

@[simp]
theorem cursor_token (d : Descent) (s : State) : (d.cursor s).token = d.token s := by
  rw [Cursor.token, cursor, List.head?_drop, token]

@[simp]
theorem cursor_lexeme (d : Descent) (s : State) : (d.cursor s).lexeme = d.lexeme s := by
  rw [Cursor.lexeme, cursor_token, lexeme]

@[simp]
theorem cursor_span (d : Descent) (s : State) : (d.cursor s).span = d.span s := by
  rw [Cursor.span, cursor_token, span]

@[simp]
theorem cursor_second (d : Descent) (s : State) : (d.cursor s).second = d.second s := by
  rw [Cursor.second, cursor, List.tail_drop, List.head?_drop, second]

@[simp]
theorem cursor_next (d : Descent) (s : State) : (d.cursor s).next = d.cursor (d.advance s) := by
  rw [Cursor.next, cursor, List.tail_drop, cursor, advance]
  split
  · rfl
  · next h => rw [List.drop_of_length_le (by omega), List.drop_of_length_le (by omega)]

theorem cursor_advance_congr (h : t.position = s.position) : d.cursor (d.advance t) = d.cursor (d.advance s) := by
  rw [← cursor_next, ← cursor_next, cursor_congr h]

/-- What a diagnostic says of a cursor, it says of the token there. -/
theorem unexpected_token (context : String) (opened : ℕ) (d : Descent) (s : State) :
    Grammar.unexpected context opened ⟨[], d.token s⟩ = Grammar.unexpected context opened (d.cursor s) := by
  simp only [Grammar.unexpected, cursor_lexeme, cursor_span]
  rfl

theorem unexpected_eq (context : String) (h : s.opened.toNat = opened) :
    d.unexpected s context = s.fail (Grammar.unexpected context opened (d.cursor s)) := by
  rw [unexpected, h, unexpected_token]

/-- The token that is passed is the one passed last, even where it is seen once more. -/
theorem previous?_advance (h : s.position ≤ d.tokens.length) : d.previous? (d.advance s) = some (d.span s) := by
  unfold advance span token
  split
  · next hlt =>
    rw [previous?, if_pos (Nat.succ_pos _)]
    simp [List.getElem?_eq_getElem hlt]
  · next hge =>
    have hend : s.position = d.tokens.length := by omega
    rw [previous?, hend, List.getLast?_eq_getElem?, List.getElem?_eq_none le_rfl]
    split
    · next hpos => simp [List.getElem?_eq_getElem (Nat.sub_lt hpos Nat.one_pos)]
    · next hpos => simp [List.eq_nil_of_length_eq_zero (Nat.eq_zero_of_not_pos hpos)]

end Cursors

section Steps

theorem failed_of_enter? (hstep : d.enter? s f = some t) (hdepth : s.depth.toNat = d.maxDepth.toNat) :
    t.control = .failed (nestingError d.maxDepth.toNat (d.span s)) := by
  obtain ⟨depth, hincrement, h⟩ := Option.bind_eq_some_iff.mp hstep
  have hlt : d.maxDepth < depth := by
    rw [UInt32.lt_iff_toNat_lt, (toNat_of_increment? hincrement), hdepth]
    exact Nat.lt_succ_self _
  rw [if_pos hlt] at h
  cases h
  rfl

theorem called_of_enter? (hstep : d.enter? s f = some t) (hdepth : s.depth.toNat < d.maxDepth.toNat) :
    t.control = .run f.awaited ∧ t.frames = f :: s.frames ∧ t.position = s.position := by
  obtain ⟨depth, hincrement, h⟩ := Option.bind_eq_some_iff.mp hstep
  have hle : ¬d.maxDepth < depth := by
    rw [UInt32.lt_iff_toNat_lt, (toNat_of_increment? hincrement)]
    omega
  rw [if_neg hle] at h
  cases h
  exact ⟨rfl, rfl, rfl⟩

theorem called_of_open? (hstep : open? s f = some t) :
    t.control = .run f.awaited ∧ t.frames = f :: s.frames ∧ t.position = s.position := by
  obtain ⟨opened, -, h⟩ := Option.bind_eq_some_iff.mp hstep
  cases h
  exact ⟨rfl, rfl, rfl⟩

theorem left_of_leave? (hstep : leave? s = some t) : t.frames = s.frames ∧ t.position = s.position := by
  obtain ⟨depth, -, h⟩ := Option.bind_eq_some_iff.mp hstep
  cases h
  exact ⟨rfl, rfl⟩

theorem closed_of_close? {make : Span → Expr} (hstep : d.close? s make = some t) (hle : s.position ≤ d.tokens.length)
    (hclose : d.lexeme s = .rightParen) :
    t.control = .done (make (d.span s)) ∧ t.frames = s.frames ∧ t.position = (d.advance s).position := by
  rw [close?, hclose] at hstep
  obtain ⟨opened, -, h⟩ := Option.bind_eq_some_iff.mp hstep
  rw [previous?_advance hle] at h
  cases h
  exact ⟨rfl, advance_frames d s, rfl⟩

end Steps

/-- A run comes back to some calls with what a rule reads, or fails as the rule does. -/
inductive Yields (d : Descent) (give : α → Control) (frames : List Frame) (s : State) :
    Except Diagnostic (α × Cursor) → Prop
  | ok {a : α} {t : State} (hreaches : Reaches d.step? s t) (hcontrol : t.control = give a)
    (hframes : t.frames = frames) : Yields d give frames s (.ok (a, d.cursor t))
  | error {reason : Diagnostic} {t : State} (hreaches : Reaches d.step? s t)
    (hresult : d.result? t = some (.error reason)) : Yields d give frames s (.error reason)

namespace Yields

theorem of_reaches {x : Except Diagnostic (α × Cursor)} (hreaches : Reaches d.step? s t)
    (h : Yields d give frames t x) : Yields d give frames s x := by
  cases h with
  | ok h hcontrol hframes => exact .ok (hreaches.trans h) hcontrol hframes
  | error h hresult => exact .error (hreaches.trans h) hresult

theorem of_step {x : Except Diagnostic (α × Cursor)} (hstep : d.step? s = some t) (h : Yields d give frames t x) :
    Yields d give frames s x :=
  h.of_reaches (.single hstep)

/-- What is given in one step. -/
theorem given {a : α} {c : Cursor} (hstep : d.step? s = some t) (hcontrol : t.control = give a)
    (hframes : t.frames = frames) (hc : d.cursor t = c) : Yields d give frames s (.ok (a, c)) := by
  subst hc
  exact .of_step hstep (.ok .refl hcontrol hframes)

theorem failed (h : Sound d s) (hcontrol : s.control = .failed reason) :
    Yields d give frames s (.error reason) := by
  cases h with
  | running _ hrun => cases hrun.symm.trans hcontrol
  | returning _ hdone => cases hdone.symm.trans hcontrol
  | listing _ hlisted => cases hlisted.symm.trans hcontrol
  | failing h hfailed =>
    obtain ⟨t, hreaches, hresult⟩ := h.unwinds hfailed
    cases hfailed.symm.trans hcontrol
    exact .error hreaches hresult

/-- A rule behind another one: the calls in between are what waits for the first one. -/
theorem bind (hmax : d.maxDepth.toNat < 2 ^ 32 - 1) {give' : β → Control} {frames' : List Frame}
    {x : Except Diagnostic (α × Cursor)} {k : α × Cursor → Except Diagnostic (β × Cursor)}
    (h : Yields d give frames s x) (hsound : Sound d s)
    (hk : ∀ a t, x = .ok (a, d.cursor t) → Sound d t → t.control = give a → t.frames = frames →
      Yields d give' frames' t (k (a, d.cursor t))) : Yields d give' frames' s (x >>= k) := by
  cases h with
  | ok hreaches hcontrol hframes =>
    exact .of_reaches hreaches (hk _ _ rfl (hsound.of_reaches hmax hreaches) hcontrol hframes)
  | error hreaches hresult => exact .error hreaches hresult

end Yields

/-- A routine reads what a rule does, with a number of levels left. -/
def Performs (d : Descent) (levels : ℕ) (give : α → Control) (r : Routine) (rule : Rule α) : Prop :=
  ∀ s, Sound d s → s.control = .run r → entered s.frames + levels = d.maxDepth.toNat →
    Yields d give s.frames s (rule (unclosed s.frames) (d.cursor s))

/-- A parenthesis that is closed, or the failure in its place. -/
theorem Yields.closed {make : Span → Expr} (hstep : d.step? s = some u) (hsound : Sound d u)
    (hclose : d.close? t make = some u) (hopened : t.opened.toNat = opened) (hle : t.position ≤ d.tokens.length) :
    Yields d .done t.frames s (closing opened (d.cursor t) >>= fun x => .ok (make x.1.span, x.2)) := by
  unfold closing
  rw [cursor_lexeme]
  split
  · next hl =>
    obtain ⟨hcontrol, hframes, hposition⟩ := closed_of_close? hclose hle hl
    refine .given hstep ?_ hframes ?_
    · rw [hcontrol, cursor_token]
      rfl
    · rw [cursor_congr hposition, cursor_next]
  · have hfail : d.close? t make = some (d.unexpected t "expected ')'") := by
      unfold close?
      split
      · contradiction
      · rfl
    rw [hfail, unexpected_eq _ hopened] at hclose
    cases hclose
    exact .of_step hstep (.failed hsound rfl)

/-- A call a level further down reads what a rule does. -/
def Descends (d : Descent) (levels : ℕ) (f : Frame) (rule : Rule Expr) : Prop :=
  ∀ s t, d.enter? s f = some t → Sound d t → s.depth.toNat = entered s.frames →
    entered s.frames + levels = d.maxDepth.toNat →
      Yields d .done (f :: s.frames) t (rule (unclosed s.frames) (d.cursor s))

theorem descends_zero (h : ∀ opened c, operand opened c = .error (nestingError d.maxDepth.toNat c.span)) :
    Descends d 0 f operand := by
  intro s t henter ht hdepth hlevels
  rw [h, cursor_span]
  exact .failed ht (failed_of_enter? henter (hdepth.trans hlevels))

theorem descends_succ (henters : f.enters = true) (hopens : f.opens = false)
    (h : Performs d levels .done f.awaited operand) : Descends d (levels + 1) f operand := by
  intro s t henter ht hdepth hlevels
  obtain ⟨hrun, hframes, hposition⟩ := called_of_enter? henter (by omega)
  have hread := h t ht hrun (by
    rw [hframes, entered_cons, henters, Bool.toNat_true]
    omega)
  rw [hframes, unclosed_cons, hopens, cursor_congr hposition] at hread
  exact hread

section Routines

variable (hmax : d.maxDepth.toNat < 2 ^ 32 - 1)
include hmax

theorem Sound.next (h : Sound d s) (hresult : d.result? s = none) : ∃ t, d.step? s = some t ∧ Sound d t := by
  obtain ⟨result, hsome⟩ | hnext := h.step hmax
  · cases hresult.symm.trans hsome
  · exact hnext

theorem Sound.begins (h : Sound d s) (hcontrol : s.control = .run r) :
    ∃ t, d.step? s = some t ∧ d.begin? s r = some t ∧ Sound d t := by
  obtain ⟨t, hstep, ht⟩ := h.next hmax (by rw [result?, hcontrol])
  exact ⟨t, hstep, (step?_run hcontrol).symm.trans hstep, ht⟩

theorem Sound.resumes (h : Sound d s) (hcontrol : s.control = .done e) (hframes : s.frames = f :: frames) :
    ∃ t, d.step? s = some t ∧ d.resume? { s with frames } e f = some t ∧ Sound d t := by
  obtain ⟨t, hstep, ht⟩ := h.next hmax (by rw [result?, hcontrol, hframes])
  exact ⟨t, hstep, (step?_done hcontrol hframes).symm.trans hstep, ht⟩

theorem Sound.closes {es : List Expr} {callee : String} {place : Span} (h : Sound d s)
    (hcontrol : s.control = .listed es) (hframes : s.frames = .arguments callee place :: frames) :
    ∃ t, d.step? s = some t ∧
      (d.close? { s with frames } fun last => .call callee place es (place.merge last)) = some t ∧ Sound d t := by
  obtain ⟨t, hstep, ht⟩ := h.next hmax (by rw [result?, hcontrol, hframes])
  exact ⟨t, hstep, (step?_listed hcontrol hframes).symm.trans hstep, ht⟩

/-- What a call gives back as it is given to it. -/
theorem Yields.passed (h : Yields d .done (f :: frames) s x) (hsound : Sound d s)
    (hresume : ∀ s e, d.resume? s e f = some (s.give e)) : Yields d .done frames s x := by
  rw [← bind_pure x]
  refine h.bind hmax hsound fun e t _ _ hcontrol hframes => ?_
  exact .given ((step?_done hcontrol hframes).trans (hresume _ e)) rfl rfl rfl

/-- What a call gives back when it has left its level. -/
theorem Yields.left {e' : Expr} (h : Sound d s) (hcontrol : s.control = .done e) (hframes : s.frames = f :: frames)
    (hresume : ∀ s, d.resume? s e f = (leave? s).map (·.give e')) :
    Yields d .done frames s (.ok (e', d.cursor s)) := by
  obtain ⟨t, hstep, hleave, -⟩ := h.resumes hmax hcontrol hframes
  rw [hresume] at hleave
  obtain ⟨u, hu, rfl⟩ := Option.map_eq_some_iff.mp hleave
  obtain ⟨hframes', hposition⟩ := left_of_leave? hu
  exact .given hstep rfl hframes' (cursor_congr hposition)

theorem performs_primary (h : Performs d levels .done .expression (sum nested)) :
    Performs d levels .done .primary (primary nested) := by
  intro s hsound hcontrol hlevels
  obtain ⟨t, hstep, hbegin, ht⟩ := hsound.begins hmax hcontrol
  have hopened : s.opened.toNat = unclosed s.frames := (hsound.balanced (by simp [hcontrol])).opened
  unfold primary
  rw [cursor_lexeme, cursor_span, cursor_next]
  cases hl : d.lexeme s with
  | int n | float x | name text =>
    rw [begin?, hl] at hbegin
    cases hbegin
    exact .given hstep rfl (advance_frames d s) rfl
  | leftParen =>
    rw [begin?, hl] at hbegin
    obtain ⟨hrun, hframes, hposition⟩ := called_of_open? hbegin
    rw [advance_frames] at hframes
    have hinner := h t ht hrun (by rw [hframes, entered_cons]; exact hlevels)
    rw [hframes, unclosed_cons, cursor_congr hposition] at hinner
    refine .of_step hstep (hinner.bind hmax ht fun inner u _ hu hdone hrest => ?_)
    obtain ⟨v, hnext, hresume, hv⟩ := hu.resumes hmax hdone hrest
    have hbalanced := hu.balanced (by simp [hdone])
    have hparens := hbalanced.opened
    rw [hrest, unclosed_cons] at hparens
    have hlexeme : d.lexeme { u with frames := s.frames } = d.lexeme u := rfl
    dsimp only
    rw [cursor_lexeme, cursor_span]
    rw [resume?, hlexeme] at hresume
    cases hcomma : d.lexeme u with
    | comma =>
      rw [hcomma] at hresume
      cases hresume
      exact .of_step hnext (.failed hv rfl)
    | _ =>
      rw [hcomma] at hresume
      exact .closed hnext hv hresume hparens hbalanced.position_le
  | leftBracket =>
    rw [begin?, hl] at hbegin
    cases hbegin
    exact .of_step hstep (.failed ht rfl)
  | _ =>
    rw [begin?, hl, unexpected_eq _ hopened] at hbegin
    cases hbegin
    exact .of_step hstep (.failed ht rfl)

/-- The arguments from one that starts, behind those found before it. -/
theorem yields_arguments (hg : Grounded operand) (h : Performs d levels .done .expression operand) {found : List Expr}
    (hsound : Sound d s) (hcontrol : s.control = .run .expression) (hframes : s.frames = .argument found :: frames)
    (hlevels : entered frames + levels = d.maxDepth.toNat) (hopen : d.lexeme s ≠ .rightParen) :
    Yields d .listed frames s
      (arguments operand (unclosed frames) (d.cursor s) >>= fun x => .ok (found.reverse ++ x.1, x.2)) := by
  induction hn : (d.cursor s).ahead.length using Nat.strongRecOn generalizing s found with
  | _ n ih =>
  subst hn
  have hfirst := h s hsound hcontrol (by rw [hframes, entered_cons]; exact hlevels)
  rw [hframes, unclosed_cons] at hfirst
  rw [hg.arguments_eq (by rwa [cursor_lexeme]), bind_assoc]
  refine hfirst.bind hmax hsound fun first t hread ht hdone hrest => ?_
  obtain ⟨u, hnext, hresume, hu⟩ := ht.resumes hmax hdone hrest
  have hlexeme : d.lexeme { t with frames } = d.lexeme t := rfl
  dsimp only
  rw [cursor_lexeme, cursor_span, cursor_next]
  rw [resume?, hlexeme] at hresume
  cases hl : d.lexeme t with
  | equals =>
    rw [hl] at hresume
    cases hresume
    exact .of_step hnext (.failed hu rfl)
  | comma =>
    have hless := hg.length_next_lt hread ((cursor_lexeme d t).trans hl)
    have hafter : d.cursor (d.advance t) = d.cursor (d.advance { t with frames }) := cursor_advance_congr rfl
    rw [cursor_next, hafter] at hless
    rw [hafter]
    rw [hl] at hresume
    dsimp only at hresume
    split at hresume
    · next hclose =>
      cases hresume
      rw [arguments_close ((cursor_lexeme _ _).trans hclose)]
      exact .given hnext (by simp [State.giveAll]) (advance_frames _ _) rfl
    · next hopen =>
      cases hresume
      have hmore := ih _ hless hu rfl (congrArg _ (advance_frames _ _)) hopen rfl
      refine .of_step hnext ?_
      simpa using hmore
  | _ =>
    rw [hl] at hresume
    cases hresume
    exact .given hnext (by simp [State.giveAll]) rfl rfl

theorem performs_arguments (hg : Grounded operand) (h : Performs d levels .done .expression operand) :
    Performs d levels .listed .arguments (arguments operand) := by
  intro s hsound hcontrol hlevels
  obtain ⟨t, hstep, hbegin, ht⟩ := hsound.begins hmax hcontrol
  dsimp only [begin?] at hbegin
  split at hbegin
  · next hclose =>
    cases hbegin
    rw [arguments_close ((cursor_lexeme d s).trans hclose)]
    exact .given hstep rfl rfl rfl
  · next hopen =>
    cases hbegin
    have hmore := yields_arguments hmax hg h ht rfl rfl hlevels hopen
    change Yields _ _ _ _ (_ >>= pure) at hmore
    rw [bind_pure] at hmore
    exact .of_step hstep hmore

theorem performs_call (hg : Grounded nested) (h : Performs d levels .done .expression (sum nested)) :
    Performs d levels .done .call (call nested) := by
  intro s hsound hcontrol hlevels
  obtain ⟨t, hstep, hbegin, ht⟩ := hsound.begins hmax hcontrol
  dsimp only [begin?] at hbegin
  split at hbegin
  · next callee hname hparen =>
    rw [call_eq_bind nested _ ((cursor_lexeme d s).trans hname) ((cursor_second d s).trans hparen)]
    rw [cursor_next, cursor_next, cursor_span]
    obtain ⟨hrun, hframes, hposition⟩ := called_of_open? hbegin
    rw [advance_frames, advance_frames] at hframes
    have hargs := performs_arguments hmax (leftAssociative_grounded (leftAssociative_grounded hg)) h t ht hrun
      (by rw [hframes, entered_cons]; exact hlevels)
    rw [hframes, unclosed_cons, cursor_congr hposition] at hargs
    refine .of_step hstep (hargs.bind hmax ht fun args u _ hu hlisted hrest => ?_)
    obtain ⟨v, hnext, hclose, hv⟩ := hu.closes hmax hlisted hrest
    have hbalanced := hu.balanced (by simp [hlisted])
    have hparens := hbalanced.opened
    rw [hrest, unclosed_cons] at hparens
    exact .closed hnext hv hclose hparens hbalanced.position_le
  · next hno =>
    cases hbegin
    have hprimary := performs_primary hmax h _ ht rfl hlevels
    rw [call_eq_primary fun name hname hparen =>
      hno name ((cursor_lexeme d s).symm.trans hname) ((cursor_second d s).symm.trans hparen)]
    exact .of_step hstep (.passed hmax hprimary ht fun _ _ => rfl)

theorem performs_power (hcall : Performs d levels .done .call (call nested))
    (hnested : ∀ base op, Descends d levels (.exponent base op) nested) :
    Performs d levels .done .power (power nested) := by
  intro s hsound hcontrol hlevels
  obtain ⟨t, hstep, hbegin, ht⟩ := hsound.begins hmax hcontrol
  cases hbegin
  refine .of_step hstep ((hcall _ ht rfl hlevels).bind hmax ht fun base u _ hu hdone hrest => ?_)
  obtain ⟨v, hnext, hresume, hv⟩ := hu.resumes hmax hdone hrest
  have hdepth := (hu.balanced (by simp [hdone])).depth
  rw [hrest, call_frames, entered_cons] at hdepth
  have hlexeme : d.lexeme { u with frames := s.frames } = d.lexeme u := rfl
  rw [resume?, hlexeme] at hresume
  dsimp only
  rw [cursor_lexeme, cursor_next]
  cases hop : powerOp? (d.lexeme u) with
  | none =>
    rw [hop] at hresume
    cases hresume
    exact .given hnext rfl rfl rfl
  | some op =>
    rw [hop] at hresume
    have hafter : d.cursor (d.advance u) = d.cursor (d.advance { u with frames := s.frames }) :=
      cursor_advance_congr rfl
    have hexponent := hnested base op _ v hresume hv (by simpa [Frame.enters] using hdepth)
      (by simpa using hlevels)
    rw [advance_frames, ← hafter] at hexponent
    refine .of_step hnext (hexponent.bind hmax hv fun exponent w _ hw hdone' hrest' => ?_)
    exact .left hmax hw hdone' hrest' fun _ => rfl

theorem performs_unary (hpower : Performs d levels .done .power (power nested))
    (hnested : ∀ sign start, Descends d levels (.signed sign start) nested) :
    Performs d levels .done .unary (unary nested) := by
  intro s hsound hcontrol hlevels
  obtain ⟨t, hstep, hbegin, ht⟩ := hsound.begins hmax hcontrol
  have hdepth := (hsound.balanced (by simp [hcontrol])).depth
  dsimp only [begin?] at hbegin
  unfold unary
  rw [cursor_lexeme, cursor_next, cursor_span]
  cases hsign : sign? (d.lexeme s) with
  | none =>
    rw [hsign] at hbegin
    cases hbegin
    exact .of_step hstep (.passed hmax (hpower _ ht rfl hlevels) ht fun _ _ => rfl)
  | some sign =>
    rw [hsign] at hbegin
    have hoperand := hnested sign (d.span s) _ t hbegin ht (by simpa using hdepth) (by simpa using hlevels)
    rw [advance_frames] at hoperand
    refine .of_step hstep (hoperand.bind hmax ht fun operand u _ hu hdone hrest => ?_)
    exact .left hmax hu hdone hrest fun _ => rfl

/-- The operands behind the left ones, from one that is back. -/
theorem yields_chain (hg : Grounded operand) (h : Performs d levels .done strength.operand operand)
    {left : Option (Expr × BinaryOp)} (hsound : Sound d s) (hcontrol : s.control = .done e)
    (hframes : s.frames = .operand strength left :: frames) (hlevels : entered frames + levels = d.maxDepth.toNat) :
    Yields d .done frames s (chain strength.op? operand (unclosed frames) (joined e left) (d.cursor s)) := by
  induction hn : (d.cursor s).ahead.length using Nat.strongRecOn generalizing s e left with
  | _ n ih =>
  subst hn
  obtain ⟨t, hnext, hresume, ht⟩ := hsound.resumes hmax hcontrol hframes
  have hlexeme : d.lexeme { s with frames } = d.lexeme s := rfl
  rw [resume?, hlexeme] at hresume
  rw [hg.chain_eq strength.not_startsOperand, cursor_lexeme, cursor_next]
  cases hop : strength.op? (d.lexeme s) with
  | none =>
    rw [hop] at hresume
    cases hresume
    exact .given hnext rfl rfl rfl
  | some op =>
    rw [hop] at hresume
    obtain ⟨hrun, hframes', hcursor⟩ : t.control = .run strength.operand ∧
        t.frames = .operand strength (some (joined e left, op)) :: frames ∧ d.cursor t = d.cursor (d.advance s) := by
      cases hresume
      exact ⟨rfl, congrArg _ (advance_frames _ _), cursor_advance_congr rfl⟩
    have hright := h t ht hrun (by rw [hframes', entered_cons]; exact hlevels)
    rw [hframes', unclosed_cons, hcursor] at hright
    refine .of_step hnext (hright.bind hmax ht fun right u hread hu hdone hrest => ?_)
    -- an operator that is repeated past the end is no operand
    have hstarts : ¬StartsOperand (d.cursor s).lexeme := by
      rw [cursor_lexeme]
      exact strength.not_startsOperand _ _ hop
    have hless := hg.length_lt hstarts (by rwa [cursor_next])
    exact ih _ hless hu hdone hrest rfl

theorem performs_operands (hg : Grounded operand) (h : Performs d levels .done strength.operand operand) :
    Performs d levels .done (.operands strength) (leftAssociative strength.op? operand) := by
  intro s hsound hcontrol hlevels
  obtain ⟨t, hstep, hbegin, ht⟩ := hsound.begins hmax hcontrol
  cases hbegin
  have hfirst := h _ ht rfl hlevels
  refine .of_step hstep (hfirst.bind hmax ht fun first u _ hu hdone hrest => ?_)
  exact yields_chain hmax hg h hu hdone hrest hlevels

theorem performs_expression (h : Descends d levels .expression operand) :
    Performs d levels .done .expression operand := by
  intro s hsound hcontrol hlevels
  obtain ⟨t, hstep, hbegin, ht⟩ := hsound.begins hmax hcontrol
  have hread := h s t hbegin ht (hsound.balanced (by simp [hcontrol])).depth hlevels
  rw [← bind_pure (operand _ _)]
  refine .of_step hstep (hread.bind hmax ht fun e u _ hu hdone hrest => ?_)
  exact .left hmax hu hdone hrest fun _ => rfl

/-- Expressions and what stands behind a sign or in an exponent: each goes a level further down, where the rules for
both are at hand. -/
theorem performs_level (levels : ℕ) :
    Performs d levels .done .expression (sum (level d.maxDepth.toNat levels)) ∧
      ∀ f : Frame, f.awaited = .unary → f.enters = true → f.opens = false →
        Descends d levels f (level d.maxDepth.toNat levels) := by
  induction levels with
  | zero => exact ⟨performs_expression hmax (descends_zero fun _ _ => rfl), fun _ _ _ _ => descends_zero fun _ _ => rfl⟩
  | succ levels ih =>
    obtain ⟨hexpression, hnested⟩ := ih
    have hg := level_grounded d.maxDepth.toNat levels
    have hcall := performs_call hmax hg hexpression
    have hpower := performs_power hmax hcall fun _ _ => hnested _ rfl rfl rfl
    have hunary : Performs d levels .done .unary (level d.maxDepth.toNat (levels + 1)) :=
      performs_unary hmax hpower fun _ _ => hnested _ rfl rfl rfl
    have hg' := level_grounded d.maxDepth.toNat (levels + 1)
    have hproduct : Performs d levels .done (.operands .product) (product (level d.maxDepth.toNat (levels + 1))) :=
      performs_operands hmax hg' hunary
    have hsum : Performs d levels .done (.operands .sum) (sum (level d.maxDepth.toNat (levels + 1))) :=
      performs_operands hmax (leftAssociative_grounded hg') hproduct
    refine ⟨performs_expression hmax (descends_succ rfl rfl hsum), fun f hawaited henters hopens => ?_⟩
    exact descends_succ henters hopens (by rwa [hawaited])

/-- A run ends, with the expression of its tokens or the failure to read one. -/
theorem exists_result : ∃ t, Reaches d.step? .start t ∧ d.result? t = some (Expr.ofTokens d.maxDepth d.tokens) := by
  have hread := (performs_level hmax d.maxDepth.toNat).1 .start (sound_start d) rfl (Nat.zero_add _)
  rw [cursor_start] at hread
  change Yields d .done [] .start (sum _ 0 _) at hread
  unfold Expr.ofTokens
  generalize sum (level d.maxDepth.toNat d.maxDepth.toNat) 0 (Cursor.ofTokens d.tokens) = x at hread
  cases hread with
  | error hreaches hresult => exact ⟨_, hreaches, hresult⟩
  | @ok e t hreaches hcontrol hframes =>
    refine ⟨t, hreaches, ?_⟩
    have hopened := (((sound_start d).of_reaches hmax hreaches).balanced (by simp [hcontrol])).opened
    rw [hframes] at hopened
    have hopened : t.opened.toNat = 0 := hopened
    rw [result?, hcontrol, hframes]
    simp only [bind, Except.bind, cursor_lexeme, cursor_span, hopened, unexpected_token]
    cases d.lexeme t <;> rfl

end Routines

end Reckoner.Descent
