import Reckoner.Proofs.Descent.Machine
import Mathlib.Computability.StateTransition
import Mathlib.Tactic.Common

/-! Whatever the tokens are, the machine comes to no fault: the stack is a chain of calls, the counters count those of
its calls that go down a level or open a parenthesis, and there are at most seven calls to a level. -/
namespace Reckoner.Descent
open StateTransition

/-- The routine that a call is one of. -/
def Frame.owner : Frame → Routine
  | .expression => .expression
  | .operand strength _ => .operands strength
  | .unsigned | .signed _ _ => .unary
  | .base | .exponent _ _ => .power
  | .uncalled | .arguments _ _ => .call
  | .argument _ => .arguments
  | .paren _ => .primary

/-- The routine that the last call waits for. -/
def callee : List Frame → Routine
  | [] => .expression
  | f :: _ => f.awaited

/-- Each call is one of the routine that the call before it waits for. -/
inductive Linked : List Frame → Prop
  | nil : Linked []
  | cons {f : Frame} {frames : List Frame} (h : Linked frames) (howner : f.owner = callee frames) :
    Linked (f :: frames)

/-- The levels of the calls. -/
def entered (frames : List Frame) : ℕ := frames.countP Frame.enters

/-- The parentheses of the calls. -/
def unclosed (frames : List Frame) : ℕ := frames.countP Frame.opens

/-- The calls that a level has room for when a routine starts. -/
def Routine.room : Routine → ℕ
  | .expression => 0
  | .operands .sum => 6
  | .operands .product => 5
  | .unary => 4
  | .power => 3
  | .call => 2
  | .arguments | .primary => 1

/-- The parentheses that may be opened in a level when a routine starts. -/
def Routine.openings : Routine → ℕ
  | .expression | .arguments => 0
  | _ => 1

variable {d : Descent} {s t : State} {f : Frame} {frames : List Frame} {e : Expr} {r : Routine} {n : UInt32}
  {levels parens : ℕ}

theorem entered_cons (f : Frame) (frames : List Frame) : entered (f :: frames) = entered frames + f.enters.toNat := by
  rw [entered, List.countP_cons]
  cases f.enters <;> rfl

theorem unclosed_cons (f : Frame) (frames : List Frame) :
    unclosed (f :: frames) = unclosed frames + f.opens.toNat := by
  rw [unclosed, List.countP_cons]
  cases f.opens <;> rfl

/-- A call takes one of the places of its level, or is the first one of the next level. -/
theorem Frame.keeps_room (f : Frame) : 1 + f.awaited.room ≤ f.owner.room + 7 * f.enters.toNat ∧
    f.opens.toNat + f.awaited.openings ≤ f.owner.openings + f.enters.toNat := by
  cases f with
  | operand strength left =>
    cases strength <;>
      simp [awaited, owner, enters, opens, Strength.operand, Routine.room, Routine.openings]
  | expression | unsigned | signed | base | exponent | uncalled | arguments | argument | paren =>
    simp [awaited, owner, enters, opens, Routine.room, Routine.openings]

/-- There are at most seven calls to a level, and no more open parentheses than levels. -/
theorem Linked.bounds (h : Linked frames) :
    frames.length + (callee frames).room ≤ 7 * entered frames ∧
      unclosed frames + (callee frames).openings ≤ entered frames := by
  induction h with
  | nil => decide
  | @cons f frames _ howner ih =>
    have hroom := f.keeps_room
    rw [howner] at hroom
    rw [entered_cons, unclosed_cons, callee, List.length_cons]
    omega

/-- The counters count the calls, and some levels and parentheses that no call is left for. -/
structure Balanced (d : Descent) (levels parens : ℕ) (s : State) : Prop where
  position_le : s.position ≤ d.tokens.length
  linked : Linked s.frames
  depth : s.depth.toNat = entered s.frames + levels
  opened : s.opened.toNat = unclosed s.frames + parens
  depth_le : s.depth.toNat ≤ d.maxDepth.toNat
  opened_le : s.opened.toNat ≤ s.depth.toNat

/-- A failure leaves levels, but it closes no parentheses, and the level that was too deep is never left. -/
structure Failing (d : Descent) (s : State) : Prop where
  position_le : s.position ≤ d.tokens.length
  linked : Linked s.frames
  entered_le : entered s.frames ≤ s.depth.toNat
  entered_le_max : entered s.frames ≤ d.maxDepth.toNat
  depth_le : s.depth.toNat ≤ d.maxDepth.toNat + 1
  opened_le : s.opened.toNat ≤ d.maxDepth.toNat

/-- What no state of a run goes beyond: the tokens, the limit with the one level that is refused, and seven calls to
a level. -/
structure Bounded (d : Descent) (s : State) : Prop where
  position_le : s.position ≤ d.tokens.length
  depth_le : s.depth.toNat ≤ d.maxDepth.toNat + 1
  opened_le : s.opened.toNat ≤ d.maxDepth.toNat
  frames_le : s.frames.length ≤ 7 * d.maxDepth.toNat

/-- The stack waits for what is run or is given to it. -/
inductive Sound (d : Descent) (s : State) : Prop
  | running (h : Balanced d 0 0 s) {r : Routine} (hcontrol : s.control = .run r) (hr : callee s.frames = r)
  | returning (h : Balanced d 0 0 s) {e : Expr} (hcontrol : s.control = .done e) (hr : callee s.frames ≠ .arguments)
  | listing (h : Balanced d 0 0 s) {es : List Expr} (hcontrol : s.control = .listed es)
    (hr : callee s.frames = .arguments)
  | failing (h : Failing d s) {reason : Diagnostic} (hcontrol : s.control = .failed reason)

theorem toNat_of_increment? {m : UInt32} (h : increment? n = some m) : m.toNat = n.toNat + 1 := by
  unfold increment? at h
  split at h
  · cases h
  · next hne =>
    cases h
    have hsum : (n + 1).toNat = (n.toNat + 1) % 2 ^ 32 := UInt32.toNat_add n 1
    have hlt : n.toNat ≠ 2 ^ 32 - 1 := fun heq => hne (UInt32.toNat_inj.mp heq)
    have hsize : n.toNat < 2 ^ 32 := n.toNat_lt
    omega

theorem increment?_eq (h : n.toNat < 2 ^ 32 - 1) : increment? n = some (n + 1) ∧ (n + 1).toNat = n.toNat + 1 := by
  have hne : n ≠ 0xFFFFFFFF := by
    rintro rfl
    exact absurd h (by decide)
  have hincrement : increment? n = some (n + 1) := if_neg hne
  exact ⟨hincrement, toNat_of_increment? hincrement⟩

theorem decrement?_eq (h : 0 < n.toNat) : decrement? n = some (n - 1) ∧ (n - 1).toNat = n.toNat - 1 := by
  have hne : n ≠ 0 := by
    rintro rfl
    exact absurd h (by decide)
  have hle : 1 ≤ n := UInt32.le_iff_toNat_le.mpr h
  rw [decrement?, if_neg hne, UInt32.toNat_sub_of_le n 1 hle]
  exact ⟨rfl, rfl⟩

@[simp]
theorem advance_frames (d : Descent) (s : State) : (d.advance s).frames = s.frames := by
  unfold advance
  split <;> rfl

@[simp]
theorem advance_depth (d : Descent) (s : State) : (d.advance s).depth = s.depth := by
  unfold advance
  split <;> rfl

@[simp]
theorem advance_opened (d : Descent) (s : State) : (d.advance s).opened = s.opened := by
  unfold advance
  split <;> rfl

theorem advance_position_le (h : s.position ≤ d.tokens.length) : (d.advance s).position ≤ d.tokens.length := by
  unfold advance
  split
  · next hlt => exact hlt
  · exact h

/-- The token that was passed last is one of the sequence. -/
theorem exists_previous (h : s.position ≤ d.tokens.length) : ∃ place, d.previous? s = some place := by
  unfold previous?
  split
  · have hlt : s.position - 1 < d.tokens.length := by omega
    exact ⟨_, by rw [List.getElem?_eq_getElem hlt]; rfl⟩
  · exact ⟨_, rfl⟩

namespace Balanced

theorem advance (h : Balanced d levels parens s) : Balanced d levels parens (d.advance s) where
  position_le := advance_position_le h.position_le
  linked := by simpa using h.linked
  depth := by simpa using h.depth
  opened := by simpa using h.opened
  depth_le := by simpa using h.depth_le
  opened_le := by simpa using h.opened_le

theorem control (h : Balanced d levels parens s) (control : Control) :
    Balanced d levels parens { s with control } :=
  ⟨h.position_le, h.linked, h.depth, h.opened, h.depth_le, h.opened_le⟩

theorem give (h : Balanced d 0 0 s) (hr : callee s.frames ≠ .arguments) (e : Expr) : Sound d (s.give e) :=
  .returning (h.control _) rfl hr

theorem giveAll (h : Balanced d 0 0 s) (hr : callee s.frames = .arguments) (es : List Expr) :
    Sound d (s.giveAll es) :=
  .listing (h.control _) rfl hr

theorem fail (h : Balanced d levels parens s) (reason : Diagnostic) : Sound d (s.fail reason) := by
  have hentered : entered s.frames ≤ s.depth.toNat := (Nat.le_add_right _ _).trans h.depth.ge
  refine .failing ⟨h.position_le, h.linked, hentered, hentered.trans h.depth_le, ?_, ?_⟩ rfl
  · exact h.depth_le.trans (Nat.le_succ _)
  · exact h.opened_le.trans h.depth_le

/-- A call takes the level and the parenthesis that were counted for it. -/
theorem push (h : Balanced d f.enters.toNat f.opens.toNat s) (howner : f.owner = callee s.frames) :
    Sound d (s.call f) := by
  refine .running ⟨h.position_le, h.linked.cons howner, ?_, ?_, h.depth_le, h.opened_le⟩ rfl rfl
  · exact h.depth.trans (entered_cons f s.frames).symm
  · exact h.opened.trans (unclosed_cons f s.frames).symm

/-- The last call, when what it has waited for is back. -/
theorem pop (h : Balanced d 0 0 s) (hframes : s.frames = f :: frames) :
    Balanced d f.enters.toNat f.opens.toNat { s with frames } ∧ f.owner = callee frames := by
  have hlinked := h.linked
  rw [hframes] at hlinked
  obtain _ | ⟨hlinked, howner⟩ := hlinked
  refine ⟨⟨h.position_le, hlinked, ?_, ?_, h.depth_le, h.opened_le⟩, howner⟩
  · exact h.depth.trans (by rw [hframes, entered_cons]; rfl)
  · exact h.opened.trans (by rw [hframes, unclosed_cons]; rfl)

theorem enter? (hmax : d.maxDepth.toNat < 2 ^ 32 - 1) (h : Balanced d 0 0 s) (howner : f.owner = callee s.frames)
    (henters : f.enters = true) (hopens : f.opens = false) : ∃ t, d.enter? s f = some t ∧ Sound d t := by
  have hdepth := h.depth
  have hdepth_le := h.depth_le
  have hopened_le := h.opened_le
  obtain ⟨hincrement, hnext⟩ := increment?_eq (hdepth_le.trans_lt hmax)
  unfold Descent.enter?
  rw [hincrement]
  dsimp only [Option.bind_eq_bind, Option.bind_some]
  split
  · refine ⟨_, rfl, .failing ⟨h.position_le, h.linked, ?_, ?_, ?_, ?_⟩ rfl⟩
    · change entered s.frames ≤ (s.depth + 1).toNat
      omega
    · change entered s.frames ≤ _
      omega
    · change (s.depth + 1).toNat ≤ _
      omega
    · change s.opened.toNat ≤ _
      omega
  · next hle =>
    have hle : (s.depth + 1).toNat ≤ d.maxDepth.toNat := by
      rw [UInt32.lt_iff_toNat_lt] at hle
      omega
    have hbelow : Balanced d 1 0 { s with depth := s.depth + 1 } := by
      refine ⟨h.position_le, h.linked, ?_, h.opened, hle, ?_⟩
      · change (s.depth + 1).toNat = entered s.frames + 1
        omega
      · change s.opened.toNat ≤ (s.depth + 1).toNat
        omega
    exact ⟨_, rfl, push (by rwa [henters, hopens]) howner⟩

theorem open? (hmax : d.maxDepth.toNat < 2 ^ 32 - 1) (h : Balanced d 0 0 s) (howner : f.owner = callee s.frames)
    (henters : f.enters = false) (hopens : f.opens = true) (hopenings : f.owner.openings = 1) :
    ∃ t, Descent.open? s f = some t ∧ Sound d t := by
  have hdepth := h.depth
  have hopened := h.opened
  have hdepth_le := h.depth_le
  have hbounds := h.linked.bounds.2
  rw [← howner, hopenings] at hbounds
  obtain ⟨hincrement, hnext⟩ := increment?_eq (n := s.opened) (by omega)
  unfold Descent.open?
  rw [hincrement]
  have hinside : Balanced d 0 1 { s with opened := s.opened + 1 } := by
    refine ⟨h.position_le, h.linked, h.depth, ?_, hdepth_le, ?_⟩
    · change (s.opened + 1).toNat = unclosed s.frames + 1
      omega
    · change (s.opened + 1).toNat ≤ s.depth.toNat
      omega
  exact ⟨_, rfl, push (by rwa [henters, hopens]) howner⟩

theorem leave? (h : Balanced d 1 0 s) : ∃ t, Descent.leave? s = some t ∧ Balanced d 0 0 t ∧ t.frames = s.frames := by
  have hdepth := h.depth
  have hopened := h.opened
  have hdepth_le := h.depth_le
  have hbounds := h.linked.bounds.2
  obtain ⟨hdecrement, hnext⟩ := decrement?_eq (n := s.depth) (by omega)
  unfold Descent.leave?
  rw [hdecrement]
  refine ⟨_, rfl, ⟨h.position_le, h.linked, ?_, h.opened, ?_, ?_⟩, rfl⟩
  · change (s.depth - 1).toNat = entered s.frames + 0
    omega
  · change (s.depth - 1).toNat ≤ _
    omega
  · change s.opened.toNat ≤ (s.depth - 1).toNat
    omega

theorem close? (h : Balanced d 0 1 s) (hr : callee s.frames ≠ .arguments) (make : Span → Expr) :
    ∃ t, d.close? s make = some t ∧ Sound d t := by
  unfold Descent.close?
  split
  · have hafter := h.advance
    have hdepth := hafter.depth
    have hopened := hafter.opened
    have hopened_le := hafter.opened_le
    obtain ⟨hdecrement, hnext⟩ := decrement?_eq (n := (d.advance s).opened) (by omega)
    obtain ⟨place, hplace⟩ := exists_previous hafter.position_le
    dsimp only
    rw [hdecrement, hplace]
    have hclosed : Balanced d 0 0 { d.advance s with opened := (d.advance s).opened - 1 } := by
      refine ⟨hafter.position_le, hafter.linked, hdepth, ?_, hafter.depth_le, ?_⟩
      · change ((d.advance s).opened - 1).toNat = unclosed (d.advance s).frames + 0
        omega
      · change ((d.advance s).opened - 1).toNat ≤ (d.advance s).depth.toNat
        omega
    exact ⟨_, rfl, hclosed.give (by simpa using hr) _⟩
  · exact ⟨_, rfl, h.fail _⟩

theorem begin? (hmax : d.maxDepth.toNat < 2 ^ 32 - 1) (h : Balanced d 0 0 s) (hr : callee s.frames = r) :
    ∃ t, d.begin? s r = some t ∧ Sound d t := by
  have hafter : callee (d.advance s).frames = r := by rwa [advance_frames]
  cases r with
  | expression => exact h.enter? hmax hr.symm rfl rfl
  | operands strength => exact ⟨_, rfl, h.push hr.symm⟩
  | unary =>
    dsimp only [Descent.begin?]
    split
    · exact ⟨_, rfl, h.push hr.symm⟩
    · exact h.advance.enter? hmax hafter.symm rfl rfl
  | power => exact ⟨_, rfl, h.push hr.symm⟩
  | call =>
    dsimp only [Descent.begin?]
    split
    · exact h.advance.advance.open? hmax (by rw [advance_frames]; exact hafter.symm) rfl rfl rfl
    · exact ⟨_, rfl, h.push hr.symm⟩
  | arguments =>
    dsimp only [Descent.begin?]
    split
    · exact ⟨_, rfl, h.giveAll hr _⟩
    · exact ⟨_, rfl, h.push hr.symm⟩
  | primary =>
    have hne : callee (d.advance s).frames ≠ .arguments := hafter ▸ by simp
    dsimp only [Descent.begin?]
    split
    · exact ⟨_, rfl, h.advance.give hne _⟩
    · exact ⟨_, rfl, h.advance.give hne _⟩
    · exact ⟨_, rfl, h.advance.give hne _⟩
    · exact h.advance.open? hmax hafter.symm rfl rfl rfl
    · exact ⟨_, rfl, h.fail _⟩
    · exact ⟨_, rfl, h.fail _⟩

theorem leave_give (h : Balanced d 1 0 s) (hr : callee s.frames ≠ .arguments) (e : Expr) :
    ∃ t, (Descent.leave? s).map (·.give e) = some t ∧ Sound d t := by
  obtain ⟨t, hleave, ht, hframes⟩ := h.leave?
  rw [hleave]
  exact ⟨_, rfl, ht.give (by rwa [hframes]) e⟩

theorem resume? (hmax : d.maxDepth.toNat < 2 ^ 32 - 1) (h : Balanced d f.enters.toNat f.opens.toNat s)
    (howner : f.owner = callee s.frames) (hf : f.awaited ≠ .arguments) (e : Expr) :
    ∃ t, d.resume? s e f = some t ∧ Sound d t := by
  have hafter : callee (d.advance s).frames = f.owner := by rw [advance_frames, howner]
  cases f with
  | expression => exact h.leave_give (howner ▸ by simp [Frame.owner]) e
  | operand strength left =>
    have hne : callee s.frames ≠ .arguments := howner ▸ by simp [Frame.owner]
    dsimp only [Descent.resume?]
    split
    · exact ⟨_, rfl, h.give hne _⟩
    · exact ⟨_, rfl, h.advance.push (f := .operand strength (some _)) hafter.symm⟩
  | unsigned => exact ⟨_, rfl, h.give (howner ▸ by simp [Frame.owner]) e⟩
  | signed sign start => exact h.leave_give (howner ▸ by simp [Frame.owner]) _
  | base =>
    dsimp only [Descent.resume?]
    split
    · exact ⟨_, rfl, h.give (howner ▸ by simp [Frame.owner]) e⟩
    · exact h.advance.enter? hmax hafter.symm rfl rfl
  | exponent base op => exact h.leave_give (howner ▸ by simp [Frame.owner]) _
  | uncalled => exact ⟨_, rfl, h.give (howner ▸ by simp [Frame.owner]) e⟩
  | arguments callee place => exact absurd rfl hf
  | argument found =>
    dsimp only [Descent.resume?]
    split
    · exact ⟨_, rfl, h.fail _⟩
    · split
      · exact ⟨_, rfl, h.advance.giveAll hafter _⟩
      · exact ⟨_, rfl, h.advance.push (f := .argument (e :: found)) hafter.symm⟩
    · exact ⟨_, rfl, h.giveAll howner.symm _⟩
  | paren start =>
    dsimp only [Descent.resume?]
    split
    · exact ⟨_, rfl, h.fail _⟩
    · exact h.close? (howner ▸ by simp [Frame.owner]) _

end Balanced

/-- A failure leaves the last call. -/
theorem Failing.unwind? (h : Failing d s) (hframes : s.frames = f :: frames) :
    ∃ t, Descent.unwind? { s with frames } f = some t ∧ Failing d t ∧ t.frames = frames ∧ t.control = s.control := by
  have hlinked := h.linked
  have hentered := h.entered_le
  have hentered_max := h.entered_le_max
  have hdepth_le := h.depth_le
  rw [hframes] at hlinked hentered hentered_max
  rw [entered_cons] at hentered hentered_max
  have hmax : entered frames ≤ d.maxDepth.toNat := (Nat.le_add_right _ _).trans hentered_max
  obtain _ | ⟨hlinked, -⟩ := hlinked
  unfold Descent.unwind?
  split
  · next henters =>
    rw [henters, Bool.toNat_true] at hentered
    obtain ⟨hdecrement, hnext⟩ := decrement?_eq (n := s.depth) (by omega)
    unfold leave?
    dsimp only
    rw [hdecrement]
    refine ⟨_, rfl, ⟨h.position_le, hlinked, ?_, hmax, ?_, h.opened_le⟩, rfl, rfl⟩
    · change entered frames ≤ (s.depth - 1).toNat
      omega
    · change (s.depth - 1).toNat ≤ _
      omega
  · refine ⟨_, rfl, ⟨h.position_le, hlinked, ?_, hmax, hdepth_le, h.opened_le⟩, rfl, rfl⟩
    exact (Nat.le_add_right _ _).trans hentered

theorem step?_run (h : s.control = .run r) : d.step? s = d.begin? s r := by
  rw [step?, h]

theorem step?_done (h : s.control = .done e) (hframes : s.frames = f :: frames) :
    d.step? s = d.resume? { s with frames } e f := by
  obtain ⟨_, _, _, _, _⟩ := s
  cases h
  cases hframes
  rfl

theorem step?_listed {es : List Expr} {callee : String} {place : Span} (h : s.control = .listed es)
    (hframes : s.frames = .arguments callee place :: frames) :
    d.step? s = d.close? { s with frames } fun last => .call callee place es (place.merge last) := by
  obtain ⟨_, _, _, _, _⟩ := s
  cases h
  cases hframes
  rfl

theorem step?_failed {reason : Diagnostic} (h : s.control = .failed reason) (hframes : s.frames = f :: frames) :
    d.step? s = unwind? { s with frames } f := by
  obtain ⟨_, _, _, _, _⟩ := s
  cases h
  cases hframes
  rfl

/-- A state with a result is final. -/
theorem step?_eq_none_of_result? {result : Except Diagnostic Expr} (h : d.result? s = some result) :
    d.step? s = none := by
  unfold result? at h
  split at h
  · next hcontrol hframes => rw [step?, hcontrol, hframes]
  · next hcontrol hframes => rw [step?, hcontrol, hframes]
  · cases h

theorem sound_start (d : Descent) : Sound d .start :=
  .running ⟨Nat.zero_le _, .nil, rfl, rfl, Nat.zero_le _, le_rfl⟩ rfl rfl

theorem Sound.balanced (h : Sound d s) (hcontrol : ∀ reason, s.control ≠ .failed reason) : Balanced d 0 0 s := by
  cases h with
  | running h | returning h | listing h => exact h
  | failing _ hfailed => exact absurd hfailed (hcontrol _)

theorem Sound.bounded (h : Sound d s) : Bounded d s := by
  have hbalanced (h : Balanced d 0 0 s) : Bounded d s := by
    have hbounds := h.linked.bounds.1
    have hdepth := h.depth
    have hdepth_le := h.depth_le
    exact ⟨h.position_le, by omega, h.opened_le.trans h.depth_le, by omega⟩
  cases h with
  | running h | returning h | listing h => exact hbalanced h
  | failing h =>
    have hbounds := h.linked.bounds.1
    have hentered := h.entered_le_max
    exact ⟨h.position_le, h.depth_le, h.opened_le, by omega⟩

/-- There is a result, or a next state. -/
theorem Sound.step (hmax : d.maxDepth.toNat < 2 ^ 32 - 1) (h : Sound d s) :
    (∃ result, d.result? s = some result) ∨ ∃ t, d.step? s = some t ∧ Sound d t := by
  cases h with
  | running h hcontrol hr =>
    rw [step?_run hcontrol]
    exact .inr (h.begin? hmax hr)
  | returning h hcontrol hr =>
    cases hframes : s.frames with
    | nil =>
      refine .inl ?_
      rw [result?, hcontrol, hframes]
      dsimp only
      split <;> exact ⟨_, rfl⟩
    | cons f frames =>
      obtain ⟨hpop, howner⟩ := h.pop hframes
      rw [hframes] at hr
      rw [step?_done hcontrol hframes]
      exact .inr (hpop.resume? hmax howner hr _)
  | listing h hcontrol hr =>
    cases hframes : s.frames with
    | nil =>
      rw [hframes] at hr
      cases hr
    | cons f frames =>
      obtain ⟨hpop, howner⟩ := h.pop hframes
      rw [hframes] at hr
      cases f with
      | arguments callee place =>
        rw [step?_listed hcontrol hframes]
        exact .inr (hpop.close? (howner ▸ by simp [Frame.owner]) _)
      | operand strength left => cases strength <;> cases hr
      | expression | unsigned | signed | base | exponent | uncalled | argument | paren => cases hr
  | failing h hcontrol =>
    cases hframes : s.frames with
    | nil =>
      refine .inl ?_
      rw [result?, hcontrol, hframes]
      exact ⟨_, rfl⟩
    | cons f frames =>
      obtain ⟨t, ht, hfailing, -, hcontrol'⟩ := h.unwind? hframes
      rw [step?_failed hcontrol hframes]
      exact .inr ⟨t, ht, .failing hfailing (hcontrol'.trans hcontrol)⟩

/-- A failure leaves all calls. -/
theorem Failing.unwinds {reason : Diagnostic} (h : Failing d s) (hcontrol : s.control = .failed reason) :
    ∃ t, Reaches d.step? s t ∧ d.result? t = some (.error reason) := by
  induction hframes : s.frames generalizing s with
  | nil => exact ⟨s, .refl, by rw [result?, hcontrol, hframes]⟩
  | cons f frames ih =>
    obtain ⟨t, ht, hfailing, hrest, hcontrol'⟩ := h.unwind? hframes
    obtain ⟨u, hu, hresult⟩ := ih hfailing (hcontrol'.trans hcontrol) hrest
    exact ⟨u, .head ((step?_failed hcontrol hframes).trans ht) hu, hresult⟩

theorem Sound.of_reaches (hmax : d.maxDepth.toNat < 2 ^ 32 - 1) (h : Sound d s) (hreaches : Reaches d.step? s t) :
    Sound d t := by
  induction hreaches with
  | refl => exact h
  | tail _ hstep ih =>
    obtain ⟨result, hresult⟩ | ⟨u, hu, hsound⟩ := ih.step hmax
    · cases (step?_eq_none_of_result? hresult).symm.trans hstep
    · cases hu.symm.trans hstep
      exact hsound

end Reckoner.Descent
