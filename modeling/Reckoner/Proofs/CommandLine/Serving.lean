import Reckoner.CommandLine.Run
import Reckoner.Proofs.Text.Lines
import Reckoner.Proofs.Wire.Values

/-! The service reads lines and writes lines: each line that is not blank has its reply, in order, up to the
first line that is no text. -/
namespace Reckoner

@[simp]
theorem Journal.visible_nil (threshold : Option Level) : visible threshold [] = [] := rfl

@[simp]
theorem Journal.visible_append (threshold : Option Level) (records more : List Record) :
    visible threshold (records ++ more) = visible threshold records ++ visible threshold more :=
  List.filter_append ..

namespace CommandLine
open Service Text

/-- The texts that are answered. -/
def requests (texts : List String) : List String := texts.filter fun text => !isBlank text

theorem requests_cons (text : String) (texts : List String) :
    requests (text :: texts) = requests [text] ++ requests texts := List.filter_append [text] texts

section
variable [S : Serialization] {limits : Limits} {threshold : Option Journal.Level} {endpoint : Endpoint} {first : Nat}

/-- What is left behind when one run is followed by another, unless it fails. -/
def Outcome.andThen (o next : Outcome) : Outcome :=
  if o.status = 0 then ⟨next.status, o.output ++ next.output, o.diagnostics ++ next.diagnostics⟩ else o

/-- A response is what a request to a body is answered with: one line that holds the answer as JSON. A body
that is no request has one answer. -/
structure Reply {α β : Type} [Wire α] [Wire β] (handle : α → β) (failed : β) (body response : String) : Prop where
  sent : Wire.text ((Wire.read? body).elim failed handle) = .ok response
  decoded : Wire.read? response = some ((Wire.read? body).elim failed handle)
  one_line : '\n' ∉ response.toList

/-- The reply of an endpoint, by the limits and the body alone. -/
def Replies (limits : Limits) (endpoint : Endpoint) (body response : String) : Prop :=
  match endpoint with
  | .action => Reply (answerAction limits) (.failed invalidRequest) body response
  | .evaluate => Reply (answerEvaluate limits) (.failed invalidRequest) body response

theorem reply_write {α β : Type} [Wire α] [Wire β] (h : S.Lawful) (hcodec : (Wire.codec : Codec β).Lossless 127)
    (handle : α → β) (failed : β) (body : String) :
    Reply handle failed body (Wire.write ((Wire.read? body).elim failed handle)) := by
  obtain ⟨sent, hsent, hread⟩ := Wire.lossless_of_codec h hcodec ((Wire.read? body).elim failed handle)
  rw [Wire.write, hsent]
  exact ⟨hsent, hread, fun hmem => absurd (Wire.printable_of_text h hcodec hsent _ hmem) (by decide)⟩

theorem answer_action (limits : Limits) (body : String) : answer limits .action body =
    Wire.write ((Wire.read? body).elim (.failed invalidRequest) (answerAction limits)) := by
  rw [answer]
  split
  · next heq => rw [heq, Option.elim_some]
  · next heq => rw [heq, Option.elim_none]

theorem answer_evaluate (limits : Limits) (body : String) : answer limits .evaluate body =
    Wire.write ((Wire.read? body).elim (.failed invalidRequest) (answerEvaluate limits)) := by
  rw [answer]
  split
  · next heq => rw [heq, Option.elim_some]
  · next heq => rw [heq, Option.elim_none]

theorem replies_answer (h : S.Lawful) (limits : Limits) (endpoint : Endpoint) (body : String) :
    Replies limits endpoint body (answer limits endpoint body) := by
  cases endpoint with
  | action =>
    rw [answer_action]
    exact reply_write h h.lossless_actionResponse ..
  | evaluate =>
    rw [answer_evaluate]
    exact reply_write h h.lossless_evaluateResponse ..

theorem printable_write {β : Type} [Wire β] (h : S.Lawful) (hcodec : (Wire.codec : Codec β).Lossless 127) (r : β) :
    Json.Printable (Wire.write r).toList := by
  obtain ⟨sent, hsent, -⟩ := Wire.lossless_of_codec h hcodec r
  rw [Wire.write, hsent]
  exact Wire.printable_of_text h hcodec hsent

theorem printable_answer (h : S.Lawful) (limits : Limits) (endpoint : Endpoint) (body : String) :
    Json.Printable (answer limits endpoint body).toList := by
  cases endpoint with
  | action =>
    rw [answer_action]
    exact printable_write h h.lossless_actionResponse _
  | evaluate =>
    rw [answer_evaluate]
    exact printable_write h h.lossless_evaluateResponse _

theorem serve_nil : serve limits threshold endpoint first [] = ⟨0, "", []⟩ := by
  simp [serve, ofLines, Journal.visible, String.join]

theorem serve_unreadable {line : List UInt8} (h : ∀ text, encoded text ≠ line) (more : List (List UInt8)) :
    serve limits threshold endpoint first (line :: more) = ⟨1, "", unreadable first⟩ := by
  simp [serve, ofLines, ofBytes?_eq_none h, Journal.visible, String.join]

/-- One line is answered before the next one is read. -/
theorem serve_cons (line : List UInt8) (more : List (List UInt8)) :
    serve limits threshold endpoint first (line :: more) =
      (serve limits threshold endpoint first [line]).andThen
        (serve limits threshold endpoint (first + 1) more) := by
  cases hline : ofBytes? line with
  | none => simp [serve, ofLines, hline, Outcome.andThen]
  | some text =>
    by_cases hblank : isBlank text
    · simp [serve, ofLines, hline, Outcome.andThen, hblank, Nat.add_assoc, Nat.add_comm 1]
    · simp [serve, ofLines, hline, Outcome.andThen, hblank, Nat.add_assoc, Nat.add_comm 1]

theorem serve_text (text : String) :
    (serve limits threshold endpoint first [encoded text]).status = 0 ∧
      (serve limits threshold endpoint first [encoded text]).output =
        String.join ((requests [text]).map fun body => line (answer limits endpoint body)) := by
  constructor
  · simp [serve, ofLines, ofBytes?_encoded]
  · simp [serve, ofLines, ofBytes?_encoded, requests]

/-- The texts before a line that is none are answered in order. -/
theorem serve_texts (first : Nat) (texts : List String) {rest : List (List UInt8)}
    (hrest : ∀ line ∈ rest.head?, ∀ text, encoded text ≠ line) :
    (serve limits threshold endpoint first (texts.map encoded ++ rest)).status = (if rest = [] then 0 else 1) ∧
      (serve limits threshold endpoint first (texts.map encoded ++ rest)).output =
        String.join ((requests texts).map fun body => line (answer limits endpoint body)) := by
  induction texts generalizing first with
  | nil =>
    cases rest with
    | nil =>
      rw [List.map_nil, List.append_nil, serve_nil]
      exact ⟨rfl, rfl⟩
    | cons line more =>
      rw [List.map_nil, List.nil_append, serve_unreadable (hrest line rfl)]
      exact ⟨rfl, rfl⟩
  | cons text texts ih =>
    -- the number of the line is all that one line leaves to the next
    obtain ⟨hstatus, houtput⟩ := ih (first + 1)
    obtain ⟨hfirst, hanswer⟩ := serve_text text
    rw [List.map_cons, List.cons_append, serve_cons, Outcome.andThen, if_pos hfirst]
    refine ⟨hstatus, ?_⟩
    rw [hanswer, houtput, requests_cons text texts, List.map_append, String.join_append]

/-- What becomes of an input: each of its texts that is not blank has its reply, in order, the lines of the output are
the replies, and the status tells whether the input ended with a line that is no text. -/
structure Served (limits : Limits) (endpoint : Endpoint) (texts : List String) (rest : List (List UInt8))
    (responses : List String) (o : Outcome) : Prop where
  replies : List.Forall₂ (Replies limits endpoint) (requests texts) responses
  output : o.output = String.join (responses.map (· ++ "\n"))
  lines : Splits (encoded o.output) (responses.map encoded)
  status : o.status = if rest = [] then 0 else 1

theorem serve_holds (h : S.Lawful) {input : List UInt8} {texts : List String} {rest : List (List UInt8)}
    (hinput : Holds input texts rest) (limits : Limits) (threshold : Option Journal.Level) (endpoint : Endpoint) :
    Served limits endpoint texts rest ((requests texts).map (answer limits endpoint))
      (serve limits threshold endpoint 1 (Text.lines input)) := by
  obtain ⟨hstatus, houtput⟩ := @serve_texts S limits threshold endpoint 1 texts rest hinput.broken
  have hresponses : ∀ response ∈ (requests texts).map (answer limits endpoint), Json.Printable response.toList := by
    intro response hresponse
    obtain ⟨body, -, rfl⟩ := List.mem_map.mp hresponse
    exact printable_answer h limits endpoint body
  have hjoined : (requests texts).map (fun body => line (answer limits endpoint body)) =
      ((requests texts).map (answer limits endpoint)).map (· ++ "\n") := by
    rw [List.map_map]
    rfl
  rw [hjoined] at houtput
  rw [hinput.lines.lines_eq]
  refine ⟨?_, houtput, ?_, hstatus⟩
  · rw [List.forall₂_map_right_iff, List.forall₂_same]
    exact fun body _ => replies_answer h limits endpoint body
  · rw [houtput]
    exact splits_texts hresponses

end

example : answer .standard .action "\x7b\"action\":\"toggle_sign\",\"current_value\":\"1\\n2\"\x7d" =
    "\x7b\"success\":true,\"result\":\"-1\\n2\",\"display\":\"-1\\n2\"\x7d" := by decide +kernel

/-- Every input holds texts line by line, up to its end or to a line that is no text, and each of them that is not
blank has its reply, in order; the lines of the output are the replies. -/
theorem serving_answers_each_line [S : Serialization] (h : S.Lawful) (input : List UInt8) (limits : Limits)
    (threshold : Option Journal.Level) (endpoint : Endpoint) :
    (∃ texts rest, Holds input texts rest) ∧
    ∀ texts rest, Holds input texts rest →
      ∃ responses, Served limits endpoint texts rest responses
        (serve limits threshold endpoint 1 (Text.lines input)) :=
  ⟨exists_holds input, fun _ _ hinput => ⟨_, serve_holds h hinput limits threshold endpoint⟩⟩

/-- An echoed line break is escaped, a blank line is skipped, and a line that is no text ends the service. -/
theorem echo_before_unreadable_line :
    let body := "\x7b\"action\":\"toggle_sign\",\"current_value\":\"1\\n2\"\x7d"
    let input := encoded body ++ 13 :: 10 :: (encoded "\t" ++ 10 :: (encoded "?" ++ 10 :: ([255] ++ 10 :: encoded "0")))
    let run := Invocation.run ⟨.standard, none, .serve .action⟩ input
    Serialization.standard.Lawful ∧ Holds input [body, "\t", "?"] [[255], encoded "0"] ∧
      ∃ responses, Served .standard .action [body, "\t", "?"] [[255], encoded "0"] responses run ∧
        responses.length = 2 ∧ run.status = 1 := by
  intro body input run
  have hbyte : ∀ text, encoded text ≠ [255] := by
    intro text htext
    have hnone : ofBytes? [255] = none := by decide
    rw [← htext, ofBytes?_encoded] at hnone
    cases hnone
  have hinput : Holds input [body, "\t", "?"] [[255], encoded "0"] := by
    refine ⟨by decide +kernel, ?_⟩
    rintro line ⟨⟩
    exact hbyte
  obtain ⟨-, hserved⟩ := serving_answers_each_line Serialization.standard_lawful input .standard none .action
  obtain ⟨responses, hresponses⟩ := hserved _ _ hinput
  have hrequests : requests [body, "\t", "?"] = [body, "?"] := by decide
  have hlength := hresponses.replies.length_eq
  rw [hrequests] at hlength
  exact ⟨Serialization.standard_lawful, hinput, responses, hresponses, hlength.symm, hresponses.status⟩

end CommandLine
end Reckoner
