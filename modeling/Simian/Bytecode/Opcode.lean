/-!
# Operations of the machine

An instruction is one byte for its operation followed by operands of fixed widths, the
most significant byte first. The numbering has no gaps: the bytes below 34 are the
operations, and no other byte is one.
-/
namespace Simian

inductive Opcode where
  | constant | pop
  | add | sub | mul | div | mod
  | pushTrue | pushFalse | pushNull
  | equal | notEqual | greaterThan | greaterEqual | lessThan | lessEqual
  | minus | bang
  | jumpNotTruthy | jump
  | getGlobal | setGlobal | getLocal | setLocal | getBuiltin | getFree | currentClosure
  | array | hash | index
  | call | returnValue | returnNull | closure
  deriving Repr, DecidableEq, Inhabited

namespace Opcode

/-- The byte that stands for the operation. -/
def toByte : Opcode → UInt8
  | constant => 0
  | pop => 1
  | add => 2
  | sub => 3
  | mul => 4
  | div => 5
  | mod => 6
  | pushTrue => 7
  | pushFalse => 8
  | pushNull => 9
  | equal => 10
  | notEqual => 11
  | greaterThan => 12
  | greaterEqual => 13
  | lessThan => 14
  | lessEqual => 15
  | minus => 16
  | bang => 17
  | jumpNotTruthy => 18
  | jump => 19
  | getGlobal => 20
  | setGlobal => 21
  | getLocal => 22
  | setLocal => 23
  | getBuiltin => 24
  | getFree => 25
  | currentClosure => 26
  | array => 27
  | hash => 28
  | index => 29
  | call => 30
  | returnValue => 31
  | returnNull => 32
  | closure => 33

/-- The operation that the byte stands for. -/
def ofByte? (byte : UInt8) : Option Opcode :=
  match byte.toNat with
  | 0 => some constant
  | 1 => some pop
  | 2 => some add
  | 3 => some sub
  | 4 => some mul
  | 5 => some div
  | 6 => some mod
  | 7 => some pushTrue
  | 8 => some pushFalse
  | 9 => some pushNull
  | 10 => some equal
  | 11 => some notEqual
  | 12 => some greaterThan
  | 13 => some greaterEqual
  | 14 => some lessThan
  | 15 => some lessEqual
  | 16 => some minus
  | 17 => some bang
  | 18 => some jumpNotTruthy
  | 19 => some jump
  | 20 => some getGlobal
  | 21 => some setGlobal
  | 22 => some getLocal
  | 23 => some setLocal
  | 24 => some getBuiltin
  | 25 => some getFree
  | 26 => some currentClosure
  | 27 => some array
  | 28 => some hash
  | 29 => some index
  | 30 => some call
  | 31 => some returnValue
  | 32 => some returnNull
  | 33 => some closure
  | _ => none

/-- The name in a listing. -/
def name : Opcode → String
  | constant => "OpConstant"
  | pop => "OpPop"
  | add => "OpAdd"
  | sub => "OpSub"
  | mul => "OpMul"
  | div => "OpDiv"
  | mod => "OpMod"
  | pushTrue => "OpTrue"
  | pushFalse => "OpFalse"
  | pushNull => "OpNull"
  | equal => "OpEqual"
  | notEqual => "OpNotEqual"
  | greaterThan => "OpGreaterThan"
  | greaterEqual => "OpGreaterEqual"
  | lessThan => "OpLessThan"
  | lessEqual => "OpLessEqual"
  | minus => "OpMinus"
  | bang => "OpBang"
  | jumpNotTruthy => "OpJumpNotTruthy"
  | jump => "OpJump"
  | getGlobal => "OpGetGlobal"
  | setGlobal => "OpSetGlobal"
  | getLocal => "OpGetLocal"
  | setLocal => "OpSetLocal"
  | getBuiltin => "OpGetBuiltin"
  | getFree => "OpGetFree"
  | currentClosure => "OpCurrentClosure"
  | array => "OpArray"
  | hash => "OpHash"
  | index => "OpIndex"
  | call => "OpCall"
  | returnValue => "OpReturnValue"
  | returnNull => "OpReturn"
  | closure => "OpClosure"

/-- Byte widths of the operands. -/
def widths : Opcode → List Nat
  | constant | jumpNotTruthy | jump | getGlobal | setGlobal | array | hash => [2]
  | getLocal | setLocal | getBuiltin | getFree | call => [1]
  | closure => [2, 1]
  | _ => []

/-- Bytes that operands of these widths take together. -/
def bytesOf : (widths : List Nat) → Nat
  | [] => 0
  | width :: rest => width + bytesOf rest

/-- Bytes that an instruction with the operation takes. -/
def size (op : Opcode) : Nat := 1 + bytesOf op.widths

theorem ofByte?_toByte (op : Opcode) : ofByte? op.toByte = some op := by
  cases op <;> rfl

theorem toByte_of_ofByte? {byte : UInt8} {op : Opcode} (h : ofByte? byte = some op) :
    op.toByte = byte := by
  unfold ofByte? at h
  split at h <;> cases h <;>
    (rename_i hb; exact UInt8.toNat_inj.mp hb.symm)

end Opcode

end Simian
