import Simian.Bytecode.Opcode

/-!
# Instructions as bytes

Encoding writes the low bytes of each operand, so an operand that does not fit its
width loses its high bits. The compiler checks its limits before it encodes. Decoding
reads back what is written and fails only at a byte that is no operation or where the
code ends inside an instruction.
-/
namespace Simian

/-- A stream of encoded instructions. -/
abbrev Code := Array UInt8

namespace Code

/-- The low `width` bytes of a number, the most significant first. -/
def encodeNumber : (width : Nat) → (number : Nat) → List UInt8
  | 0, _ => []
  | width + 1, number => (number >>> (8 * width)).toUInt8 :: encodeNumber width number

/-- The number that the `width` bytes at `offset` make after the digits read so far. -/
def readNumberFrom (code : Code) (offset value : Nat) : (width : Nat) → Option Nat
  | 0 => some value
  | width + 1 =>
    match code[offset]? with
    | some byte => readNumberFrom code (offset + 1) (value * 256 + byte.toNat) width
    | none => none

/-- The number that the `width` bytes at `offset` make, if the code is that long. -/
def readNumber (code : Code) (offset width : Nat) : Option Nat :=
  readNumberFrom code offset 0 width

/-- The numbers of the given widths one after the other from `offset` on. -/
def readNumbers (code : Code) (offset : Nat) : (widths : List Nat) → Option (List Nat)
  | [] => some []
  | width :: rest =>
    match readNumber code offset width with
    | some number => (readNumbers code (offset + width) rest).map (number :: ·)
    | none => none

end Code

structure Instruction where
  opcode : Opcode
  operands : List Nat
  deriving Repr, DecidableEq, Inhabited

namespace Instruction

/-- Numbers in the bytes of their widths, as many as there are of both. -/
def encodeOperands : (operands widths : List Nat) → List UInt8
  | operand :: operands, width :: widths =>
    Code.encodeNumber width operand ++ encodeOperands operands widths
  | _, _ => []

def encode (instruction : Instruction) : List UInt8 :=
  instruction.opcode.toByte ::
    encodeOperands instruction.operands instruction.opcode.widths

/-- The operand at the place, and zero for an operation without it. -/
def operand (instruction : Instruction) (place : Nat) : Nat :=
  instruction.operands.getD place 0

def size (instruction : Instruction) : Nat := instruction.opcode.size

theorem size_pos (instruction : Instruction) : 0 < instruction.size :=
  Nat.lt_of_lt_of_le Nat.zero_lt_one (Nat.le_add_right 1 _)

end Instruction

/-- Why there is no instruction at an offset. -/
inductive DecodeError where
  | unknownOpcode (byte : UInt8)
  | truncated (op : Opcode)
  deriving Repr, DecidableEq, Inhabited

/-- The instruction at an offset, where the code goes on there. -/
def Code.decode? (code : Code) (offset : Nat) : Option (Except DecodeError Instruction) :=
  match code[offset]? with
  | none => none
  | some byte => some <|
    match Opcode.ofByte? byte with
    | none => .error (.unknownOpcode byte)
    | some op =>
      match readNumbers code (offset + 1) op.widths with
      | some operands => .ok ⟨op, operands⟩
      | none => .error (.truncated op)

theorem Code.lt_size_of_decode? {code : Code} {offset : Nat} {result}
    (h : code.decode? offset = some result) : offset < code.size := by
  unfold decode? at h
  split at h
  · cases h
  · next hb => exact (Array.getElem?_eq_some_iff.mp hb).1

end Simian
