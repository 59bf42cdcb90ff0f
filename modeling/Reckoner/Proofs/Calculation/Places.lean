import Reckoner.Proofs.Calculation.Diagnostics
import Reckoner.Proofs.Grammar.Places

/-! Every part of an expression knows its place in the text exactly, and is read again from there alone. -/
namespace Reckoner
open Grammar

variable {maxDepth : UInt32} {text : String} {s : Span} {ts run tokens : List Token} {e q : Expr}

/-- The tokens of a run are those of the slice of the text from the first to the last of them. -/
theorem Token.ofText_slice (hsize : text.utf8ByteSize < UInt32.size)
    (hbreaks : ∀ c ∈ text.toList, ¬ Lexeme.isLineBreak c) {eof : Token} (h : ofText text = .ok (ts ++ [eof]))
    (hrun : run <:+: ts) (hs : s.Reaches run) :
    ∃ length, ofText (s.slice text) = .ok (run.map (relativeTo s.start) ++ [ending length]) := by
  obtain ⟨left, right, rfl⟩ := hrun
  have htokens : left ++ run ++ right ++ [eof] = left ++ (run ++ (right ++ [eof])) := by simp
  obtain ⟨before, w, after, htext, hplace, hw⟩ := (scanFrom_eq_ok_iff.mp h).slice hbreaks htokens (by simp) hs
  have hslice : s.slice text = String.ofList w := by
    rw [hplace]
    exact (Span.Selects.between htext hsize).slice_eq
  refine ⟨byteCount w, ?_⟩
  rw [hslice, ofText, String.toList_ofList]
  exact hw.scanFrom_eq

/-- The end of input is no part of what derives an expression. -/
theorem Grammar.Derives.isInfix {p : Phrase} {eof : Token} (h : Derives p run e) (heof : eof.lexeme = .endOfInput)
    (hrun : run <:+: ts ++ [eof]) : run <:+: ts := by
  obtain hsuffix | hinfix := List.infix_concat_iff.mp hrun
  · obtain rfl | ⟨init, rfl, -⟩ := List.suffix_concat_iff.mp hsuffix
    · exact List.nil_infix
    · have hoccurs := h.occurs eof (by simp)
      rw [heof] at hoccurs
      exact hoccurs.elim
  · exact hinfix

namespace Expr

/-- A part of the expression of some tokens of a text covers just the tokens that it was built from, with the
places directly inside it one after another, and the slice of the text at its place is read as the same
expression with its places counted from there. -/
structure SelfContained (maxDepth : UInt32) (text : String) (tokens : List Token) (q : Expr) : Prop where
  built : ∃ run, run <:+: tokens ∧ Derives .sum run q
  reaches : ∀ run, run <:+: tokens → Derives .sum run q → q.span.Reaches run
  nonempty : q.span.start < q.span.stop
  nested : q.Nested
  alone : ∃ tokens', Token.ofText (q.span.slice text) = .ok tokens' ∧
    Expr.ofTokens maxDepth tokens' = .ok (q.relativeTo q.span.start)

/-- All parts of the expression of a text without line breaks, whose bytes a span can count, are self-contained. -/
theorem parts_self_contained (hsize : text.utf8ByteSize < UInt32.size)
    (hbreaks : ∀ c ∈ text.toList, ¬ Lexeme.isLineBreak c) (htokens : Token.ofText text = .ok tokens)
    (hparse : Expr.ofTokens maxDepth tokens = .ok e) : ∀ q ∈ e.parts, q.SelfContained maxDepth text tokens := by
  intro q hq
  have hscanned := Token.scanFrom_eq_ok_iff.mp htokens
  obtain ⟨ts, rfl, htokenization⟩ := hscanned.tokenization [] rfl rfl (by rwa [List.nil_append, Token.byteCount_toList])
  have horder := htokenization.inOrder
  obtain ⟨hderives, hnesting⟩ := derivesWithin_of_ofTokens htokenization.ne_endOfInput rfl hparse
  obtain ⟨run, hrun, hd⟩ := hderives.exists_run hq
  have hrunOrder := horder.sublist hrun.sublist
  have hreaches := hd.reaches hrunOrder
  have hnotBefore : ∀ t ∈ run, t.span.NotBefore q.span.start := fun t ht => by
    have hstart := (hreaches.covers hrunOrder ht).1
    exact ⟨hstart, UInt32.le_trans hstart (UInt32.le_of_lt (hrunOrder.nonempty t ht))⟩
  have hdepth : (q.relativeTo q.span.start).depth ≤ maxDepth.toNat := by
    have := nesting_le_of_mem_parts e hq
    rw [depth, nesting_relativeTo]
    omega
  obtain ⟨length, hslice⟩ := Token.ofText_slice hsize hbreaks htokens hrun hreaches
  exact {
    built := ⟨run, hrun.trans (List.prefix_append ts _).isInfix, hd⟩
    reaches := fun run' hrun' hd' => hd'.reaches (horder.sublist (hd'.isInfix rfl hrun').sublist)
    nonempty := hreaches.nonempty hrunOrder
    nested := hd.nested hrunOrder
    alone := ⟨_, hslice, (hd.relativeTo hnotBefore).ofTokens rfl hdepth⟩ }

/-- The call in a difference, with a power as its argument and a comma after it. -/
theorem call_self_contained :
    let text := "7-max(x, 2^y,)"
    let tokens : List Token := [⟨.int 7, ⟨0, 1⟩⟩, ⟨.minus, ⟨1, 2⟩⟩, ⟨.name "max", ⟨2, 5⟩⟩, ⟨.leftParen, ⟨5, 6⟩⟩,
      ⟨.name "x", ⟨6, 7⟩⟩, ⟨.comma, ⟨7, 8⟩⟩, ⟨.int 2, ⟨9, 10⟩⟩, ⟨.caret, ⟨10, 11⟩⟩, ⟨.name "y", ⟨11, 12⟩⟩,
      ⟨.comma, ⟨12, 13⟩⟩, ⟨.rightParen, ⟨13, 14⟩⟩, ⟨.endOfInput, ⟨14, 14⟩⟩]
    let call : Expr := .call "max" ⟨2, 5⟩
      [.name "x" ⟨6, 7⟩, .binary .pow (.int 2 ⟨9, 10⟩) (.name "y" ⟨11, 12⟩) ⟨9, 12⟩] ⟨2, 14⟩
    let e : Expr := .binary .sub (.int 7 ⟨0, 1⟩) call ⟨0, 14⟩
    text.utf8ByteSize < UInt32.size ∧ (∀ c ∈ text.toList, ¬ Lexeme.isLineBreak c) ∧
      Token.ofText text = .ok tokens ∧ Expr.ofTokens 3 tokens = .ok e ∧ call ∈ e.parts ∧
      call.SelfContained 3 text tokens := by
  intro text tokens call e
  have hsize : text.utf8ByteSize < UInt32.size := by decide
  have hbreaks : ∀ c ∈ text.toList, ¬ Lexeme.isLineBreak c := by simp [text, Lexeme.isLineBreak]
  have htokens : Token.ofText text = .ok tokens := by cbv
  have hparse : Expr.ofTokens 3 tokens = .ok e := by cbv
  have hcall : call ∈ e.parts := by simp [e, call, parts, partsOfAll]
  exact ⟨hsize, hbreaks, htokens, hparse, hcall, parts_self_contained hsize hbreaks htokens hparse call hcall⟩

end Expr
end Reckoner
