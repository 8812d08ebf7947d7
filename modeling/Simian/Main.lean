import Simian.CommandLine.Outcome
import Simian.CommandLine.Usage

/-!
# The program

Reads, prints and exits. Everything else is decided by the modules above.
-/
namespace Simian.Terminal

def readAll (input : IO.FS.Stream) : IO ByteArray := do
  let mut bytes := ByteArray.empty
  repeat
    let chunk ← input.read 65536
    if chunk.isEmpty then break
    bytes := bytes ++ chunk
  return bytes

/-- Why a file could not be read, in the words of the system. -/
def reason : IO.Error → String
  | .noFileOrDirectory _ code _ => s!"No such file or directory (os error {code})"
  | .permissionDenied _ code _ => s!"Permission denied (os error {code})"
  | .inappropriateType _ code _ => s!"Is a directory (os error {code})"
  | error => toString error

def readScript (path : String) : IO (Except String ByteArray) := do
  try return .ok (← IO.FS.readBinFile path)
  catch error => return .error (reason error)

/-- The variables that settings come from, as they are set. -/
def environment : IO Environment := do
  let pairs ← Environment.names.filterMapM fun name => do
    return (← IO.getEnv name).map fun value => (name, value)
  return .ofList pairs

/-- Writes to a stream and makes sure that it is seen. -/
def say (stream : IO.FS.Stream) (text : String) : IO Unit := do
  stream.putStr text
  stream.flush

/-- A line without the characters that end it. -/
def lineText (line : String) : String :=
  ((Prompt.splitLines [] line.toUTF8.toList).head?.bind fun bytes =>
    String.fromUTF8? ⟨bytes.toArray⟩).getD line

/-- Answers the lines of a terminal until its input ends. -/
partial def converse (session : Session) : IO UInt32 := do
  let output ← IO.getStdout
  say output Prompt.mark
  let line ← (← IO.getStdin).getLine
  if line.isEmpty then
    say output "\n"
    return 0
  let (text, session) := Prompt.respond session (lineText line)
  say output text
  converse session

/-- Runs a prompt in a terminal. -/
def runPrompt (settings : Settings) : IO UInt32 := do
  if !settings.quiet then say (← IO.getStdout) (Prompt.banner settings.limits.engine)
  try converse (.create settings.limits (.opened .off))
  catch _ =>
    let failure := Failure.invalidInput
    say (← IO.getStderr) (failure.report none "")
    return failure.exitCode.toUInt32

/-- Prints the outcome of a call. -/
def printOutcome (outcome : Outcome) : IO UInt32 := do
  say (← IO.getStdout) outcome.output
  let errors ← IO.getStderr
  for (level, text) in outcome.log do
    say errors s!"[{level.name}] {text}\n"
  say errors outcome.report
  return outcome.exitCode.toUInt32

/-- Does what the arguments ask for. -/
def call (arguments : Arguments) : IO UInt32 := do
  let environment ← environment
  let input ← IO.getStdin
  let isTerminal ← input.isTty
  match arguments.mode isTerminal, Settings.resolve arguments environment with
  | .prompt, .ok settings => runPrompt settings
  | _, _ =>
    printOutcome
      (← Outcome.ofArguments arguments environment isTerminal readScript (readAll input))

end Simian.Terminal

open Simian in
def main (texts : List String) : IO UInt32 := do
  match Arguments.ofList texts with
  | .ok arguments => Terminal.call arguments
  | .error refusal =>
    let stream ← if refusal.exitCode = 0 then IO.getStdout else IO.getStderr
    Terminal.say stream refusal.message
    return refusal.exitCode.toUInt32
