import Simian.Session
import Simian.Text.Blank

/-!
# The prompt

Every line is a unit of its own. What it prints comes first, then its value or what
went wrong with it. Blank lines are passed over.
-/
namespace Simian.Prompt

def version : String := "0.1.0"

/-- Shown before each line is read. -/
def mark : String := ">> "

/-- Shown once at the start, unless the prompt is quiet. -/
def banner (engine : EngineKind) : String :=
  s!"Gibbon {version} ({engine.name} engine)\nPress Ctrl-D to exit.\n"

/-- Runs a line. The text is what the prompt shows of it. -/
def respond (session : Session) (line : String) : String × Session :=
  if line.toList.all Text.isBlank then ("", session)
  else
    let (result, session) := session.run line
    let (printed, session) := session.takeOutput
    match result with
    | .ok (some value) => ((value.write false printed).push '\n', session)
    | .ok none => (printed, session)
    | .error error => (printed ++ error.message ++ "\n", session)

/-- The bytes of a line that is given the latest byte first. A carriage return before the line
feed belongs to the line end. -/
def closeLine : List UInt8 → List UInt8
  | 13 :: rest => rest.reverse
  | line => line.reverse

/-- The lines after the bytes of an open one, which is given the latest byte first. The last line
need not end in a line feed. -/
def splitLines (line : List UInt8) : List UInt8 → List (List UInt8)
  | [] => if line.isEmpty then [] else [line.reverse]
  | byte :: rest =>
    if byte = 10 then closeLine line :: splitLines [] rest else splitLines (byte :: line) rest

/-- Everything that the prompt shows on an input, and whether the input was read to its end. -/
structure Transcript where
  text : String
  isComplete : Bool
  deriving Repr, DecidableEq, Inhabited

/-- Answers the lines in turn, after the text shown so far. A line that is not UTF-8 ends the
transcript. -/
def converse (session : Session) (shown : String) : List (List UInt8) → Transcript
  | [] => ⟨shown ++ mark ++ "\n", true⟩
  | line :: rest =>
    match String.fromUTF8? ⟨line.toArray⟩ with
    | none => ⟨shown ++ mark, false⟩
    | some line =>
      let (text, session) := respond session line
      converse session (shown ++ mark ++ text) rest

/-- The transcript of a session at the prompt. -/
def transcript (session : Session) (input : ByteArray) (quiet : Bool) : Transcript :=
  converse session (if quiet then "" else banner session.engineKind)
    (splitLines [] input.toList)

end Simian.Prompt
