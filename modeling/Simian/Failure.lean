import Simian.Diagnostic
import Simian.Session
import Simian.Text.Quoted

/-!
# Failures and their reports

Whatever stops a run is a failure. It has one line of text, a report for the error
stream and an exit code: 1 when the program or its input is at fault, 2 when the run
could not begin.
-/
namespace Simian

inductive Failure where
  | program (error : ProgramError)
  | unreadableScript (path reason : String)
  | invalidSetting (name value : String)
  /-- Standard input is not UTF-8. -/
  | invalidInput
  deriving Repr, DecidableEq, Inhabited

namespace Failure

/-- Said of bytes that are not UTF-8. -/
def notUnicode : String := "stream did not contain valid UTF-8"

def message : Failure → String
  | program error => error.message
  | unreadableScript path reason => s!"can't open file '{path}': {reason}"
  | invalidSetting name value => s!"invalid value {Text.quoted value} for {name}"
  | invalidInput => notUnicode

def exitCode : Failure → Nat
  | program _ | invalidInput => 1
  | unreadableScript .. | invalidSetting .. => 2

/-- The head of a report that cannot show a line of the source. -/
def unlocated (filename label message : String) : String :=
  s!"  File \"{filename}\"\n{label}: {message}\n"

/-- A report with the line of the span, where the source is known. -/
def located (source : Option String) (filename : String) (span : Span) (label message : String) :
    String :=
  match source with
  | some text => Diagnostic.render (.ofString text) filename span label message ++ "\n"
  | none => unlocated filename label message

/-- The report of a failure in a source of this name. -/
def report (source : Option String) (filename : String) : Failure → String
  | program (.parse error) => located source filename error.span "SyntaxError" error.message
  | program (.compile error) => located source filename error.span "CompileError" error.message
  | program (.run fault) => unlocated filename "RuntimeError" fault.message
  | program (.eval error) => unlocated filename "RuntimeError" error.message
  | program .unfinished => unlocated filename "RuntimeError" "out of steps"
  | failure => s!"gibbon: {failure.message}\n"

end Failure

end Simian
