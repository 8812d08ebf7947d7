import Simian.Tree.Printer
import Simian.Value

/-!
# Values as text

Text stands as it is, and between quotes inside an array or a hash. A function of
the evaluator shows its parameters and body, one of the machine its name.
-/
namespace Simian

/-- Appends a key as it stands in a hash. -/
def Key.write (out : String) : Key → String
  | .int value => out ++ toString value.toInt
  | .bool value => out ++ (if value then "true" else "false")
  | .str text => out ++ Text.quoted text

namespace Value

mutual

/-- Appends the value. Text is quoted when it is nested in another value. -/
def write (nested : Bool) (out : String) : Value → String
  | .null => out ++ "null"
  | .int value => out ++ toString value.toInt
  | .bool value => out ++ (if value then "true" else "false")
  | .str text => out ++ (if nested then Text.quoted text else text)
  | .array items => (writeItems (out.push '[') items).push ']'
  | .hash entries => (writeEntries (out.push '\x7b') entries).push '\x7d'
  | .function tree => tree.body.write (writeNames (out ++ "fn(") tree.parameters ++ ") ")
  | .compiled _ body => out ++ "CompiledFunction[" ++ body.displayName ++ "]"
  | .closure _ body _ => out ++ "Closure[" ++ body.displayName ++ "]"
  | .builtin _ => out ++ "builtin function"

/-- Appends the values with a comma and a space between them. -/
def writeItems (out : String) : List Value → String
  | [] => out
  | [item] => item.write true out
  | item :: next :: rest => writeItems (item.write true out ++ ", ") (next :: rest)

/-- Appends the entries with a comma and a space between them. -/
def writeEntries (out : String) : List (Key × Value) → String
  | [] => out
  | [(key, value)] => value.write true (key.write out ++ ": ")
  | (key, value) :: next :: rest =>
    writeEntries (value.write true (key.write out ++ ": ") ++ ", ") (next :: rest)

end

def render (value : Value) : String := value.write false ""

end Value

end Simian
