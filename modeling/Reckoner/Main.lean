import Reckoner.CommandLine.Run

/-! The program: arguments and input are read, and what a run leaves behind is written. -/
namespace Reckoner

def write (o : CommandLine.Outcome) : IO Unit := do
  let output ← IO.getStdout
  output.putStr o.output
  output.flush
  for text in o.diagnostics do IO.eprintln text

/-- The bytes up to the next line feed, that included, or up to the end of the input. -/
partial def readLine (input : IO.FS.Stream) (before : ByteArray) : IO ByteArray := do
  let byte ← input.read 1
  if byte.isEmpty then return before
  let bytes := before ++ byte
  if byte.data = #[10] then return bytes else readLine input bytes

/-- Each line is answered before the next one is read. -/
partial def serveLines (limits : Limits) (threshold : Option Journal.Level) (endpoint : Service.Endpoint)
    (number : Nat) : IO Nat := do
  let bytes ← readLine (← IO.getStdin) ByteArray.empty
  if bytes.isEmpty then return 0
  let outcome := CommandLine.serve limits threshold endpoint number (Text.lines bytes.toList)
  write outcome
  if outcome.status = 0 then serveLines limits threshold endpoint (number + 1) else return outcome.status

end Reckoner

open Reckoner in
def main (arguments : List String) : IO UInt32 := do
  match CommandLine.Invocation.ofArguments arguments with
  | .ok ⟨limits, threshold, .serve endpoint⟩ =>
    return (← serveLines limits.limits threshold endpoint 1).toUInt32
  | _ =>
    let outcome := CommandLine.run arguments []
    write outcome
    return outcome.status.toUInt32
