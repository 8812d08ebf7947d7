import Simian.Bytecode.Listing
import Simian.Value.Operation

/-!
# What ends a run early
-/
namespace Simian

/-- Why the machine cannot go on. -/
inductive Fault where
  | stackOverflow
  | frameOverflow
  | wrongArgumentCount (want got : Nat)
  | notCallable (kind : Value.Kind)
  | unknownOpcode (byte : UInt8) (offset : Nat)
  | truncatedInstruction (op : Opcode) (offset : Nat)
  | constantOutOfRange (index : Nat)
  | notAFunction (index : Nat)
  | globalOutOfRange (index : Nat)
  | unknownBuiltin (index : Nat)
  | captureOutOfRange (index : Nat)
  | noActiveFrame
  | operation (error : OperationError)
  deriving Repr, DecidableEq, Inhabited

def Fault.message : Fault → String
  | stackOverflow => "stack overflow"
  | frameOverflow => "call stack exhausted"
  | wrongArgumentCount want got => s!"wrong number of arguments: want={want}, got={got}"
  | notCallable kind => s!"calling non-function and non-builtin: {kind.name}"
  | unknownOpcode byte offset => s!"unknown opcode 0x{hexByte byte} at offset {offset}"
  | truncatedInstruction op offset => s!"truncated {op.name} at offset {offset}"
  | constantOutOfRange index => s!"constant {index} out of range"
  | notAFunction index => s!"constant {index} is not a function"
  | globalOutOfRange index => s!"global slot {index} out of range"
  | unknownBuiltin index => s!"unknown builtin {index}"
  | captureOutOfRange index => s!"free variable {index} out of range"
  | noActiveFrame => "no active frame"
  | operation error => error.message

/-- The fault at an offset where there is no instruction. -/
def Fault.ofDecodeError (error : DecodeError) (offset : Nat) : Fault :=
  match error with
  | .unknownOpcode byte => unknownOpcode byte offset
  | .truncated op => truncatedInstruction op offset

end Simian
