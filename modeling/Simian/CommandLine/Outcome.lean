import Simian.CommandLine.Settings
import Simian.Prompt

/-!
# What a call comes to

A call takes its source from a script, from the code given with it, from standard
input, or line by line from a prompt. The outcome of a source is what it writes on the two
streams and the exit code. Nothing is read here: what a script or standard input holds
comes from the caller, who may have to perform effects to know it.
-/
namespace Simian

/-- Where the source is. -/
inductive Mode where
  | script (path : String)
  | code (text : String)
  | standardInput
  /-- A prompt for every line. -/
  | prompt
  deriving Repr, DecidableEq, Inhabited

/-- The code comes before a script, and a prompt is for a terminal only. -/
def Arguments.mode (arguments : Arguments) (isTerminal : Bool) : Mode :=
  match arguments.code, arguments.script with
  | some text, _ => .code text
  | none, some path => .script path
  | none, none => if isTerminal then .prompt else .standardInput

structure Outcome where
  exitCode : Nat
  output : String
  report : String
  /-- Entries of the journal that the settings admit. -/
  log : List (Level × String)
  deriving Repr, DecidableEq, Inhabited

namespace Outcome

/-- The outcome of a call that fails before it has a source. -/
def ofFailure (failure : Failure) : Outcome := ⟨failure.exitCode, "", failure.report none "", []⟩

/-- The outcome of a source that wrote this output. -/
def ofResult {α : Type} (source filename output : String) (log : List (Level × String))
    (result : Except ProgramError α) : Outcome :=
  match result with
  | .ok _ => ⟨0, output, "", log⟩
  | .error error =>
    let failure := Failure.program error
    ⟨failure.exitCode, output, failure.report (some source) filename, log⟩

/-- Runs a source, or lists its code if the settings say so. -/
def ofSource (settings : Settings) (filename source : String) : Outcome :=
  if settings.dump then
    match Bytecode.listingOf source settings.limits.maxDepth with
    | .ok listing => ofResult source filename listing [] (.ok ())
    | .error error => ofResult source filename "" [] (@Except.error ProgramError Unit error)
  else
    let (result, session) :=
      (Session.create settings.limits (.opened settings.logLevel)).run source
    ofResult source filename session.takeOutput.1 session.journal.entries result

/-- The outcome of the bytes of a script, or of the reason why they could not be read. -/
def ofScript (settings : Settings) (path : String) (content : Except String ByteArray) : Outcome :=
  match content with
  | .error reason => ofFailure (.unreadableScript path reason)
  | .ok bytes =>
    match String.fromUTF8? bytes with
    | some source => ofSource settings path source
    | none => ofFailure (.unreadableScript path Failure.notUnicode)

/-- The outcome of the bytes on standard input. -/
def ofInput (settings : Settings) (bytes : ByteArray) : Outcome :=
  match String.fromUTF8? bytes with
  | some source => ofSource settings "<stdin>" source
  | none => ofFailure .invalidInput

/-- The outcome of a prompt whose lines are these bytes. -/
def ofPrompt (settings : Settings) (bytes : ByteArray) : Outcome :=
  let shown := Prompt.transcript (.create settings.limits (.opened .off)) bytes settings.quiet
  if shown.isComplete then ⟨0, shown.text, "", []⟩
  else { ofFailure .invalidInput with output := shown.text }

/-- The outcome of a call in this mode, with what reads a script and standard input. -/
def ofMode {m : Type → Type} [Monad m] (settings : Settings)
    (readScript : String → m (Except String ByteArray)) (readInput : m ByteArray) :
    Mode → m Outcome
  | .script path => ofScript settings path <$> readScript path
  | .code text => pure (ofSource settings "<string>" text)
  | .standardInput => ofInput settings <$> readInput
  | .prompt => ofPrompt settings <$> readInput

/-- The outcome of a call. -/
def ofArguments {m : Type → Type} [Monad m] (arguments : Arguments) (environment : Environment)
    (isTerminal : Bool) (readScript : String → m (Except String ByteArray))
    (readInput : m ByteArray) : m Outcome :=
  match Settings.resolve arguments environment with
  | .error failure => pure (ofFailure failure)
  | .ok settings => ofMode settings readScript readInput (arguments.mode isTerminal)

end Outcome

end Simian
