import Simian.Value.Operation
import Simian.Value.Printer

/-!
# Calling built-in functions

`puts` writes each argument on a line of its own to a sink. A sink that is closed
takes nothing, and the first line written to it is an error. No other built-in
function looks at the sink.
-/
namespace Simian

/-- Where `puts` writes. -/
structure Sink where
  /-- Text written so far. -/
  written : String
  /-- Why nothing more can be written, if so. -/
  fault : Option String
  deriving Repr, Inhabited

namespace Sink

def empty : Sink := ⟨"", none⟩

def closed (reason : String) : Sink := ⟨"", some reason⟩

/-- Writes the values, each on a line of its own. -/
def putLines (sink : Sink) : List Value → Except OperationError Unit × Sink
  | [] => (.ok (), sink)
  | value :: rest =>
    match sink.fault with
    | some reason => (.error (.output reason), sink)
    | none => putLines { sink with written := (value.write false sink.written).push '\n' } rest

end Sink

namespace Builtin

/-- The only argument of a function of one. -/
def onlyArgument (builtin : Builtin) (arguments : List Value) : Except OperationError Value :=
  match arguments with
  | [argument] => .ok argument
  | _ => .error (.builtinArity builtin arguments.length 1)

def arrayArgument (builtin : Builtin) (argument : Value) : Except OperationError (List Value) :=
  match argument with
  | .array items => .ok items
  | other => .error (.builtinArgument builtin other.kind)

/-- The value of a built-in function other than `puts`. The length of a text is in bytes. -/
def value (builtin : Builtin) (arguments : List Value) : Except OperationError Value :=
  match builtin with
  | .len => do
    match ← builtin.onlyArgument arguments with
    | .str text => return .int (Int64.ofNat text.utf8ByteSize)
    | .array items => return .int (Int64.ofNat items.length)
    | other => throw (.builtinArgument builtin other.kind)
  | .puts => return .null
  | .first => do
    let items ← builtin.arrayArgument (← builtin.onlyArgument arguments)
    return items.head?.getD .null
  | .last => do
    let items ← builtin.arrayArgument (← builtin.onlyArgument arguments)
    return items.getLast?.getD .null
  | .rest => do
    let items ← builtin.arrayArgument (← builtin.onlyArgument arguments)
    return if items.isEmpty then .null else .array items.tail
  | .push =>
    match arguments with
    | [collection, item] => do
      let items ← builtin.arrayArgument collection
      return .array (items ++ [item])
    | _ => throw (.builtinArity builtin arguments.length 2)

/-- Calls the function. -/
def call (builtin : Builtin) (arguments : List Value) (sink : Sink) :
    Except OperationError Value × Sink :=
  match builtin with
  | .puts =>
    match sink.putLines arguments with
    | (.ok _, sink) => (.ok .null, sink)
    | (.error error, sink) => (.error error, sink)
  | _ => (builtin.value arguments, sink)

end Builtin

end Simian
