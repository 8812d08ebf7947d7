import Simian.Bytecode.Codec

/-!
# Code as text

A listing has a line for each instruction: its offset in four digits or more, its
name and its operands. A byte that is no operation gets a line that says so, and the
listing goes on after it. A cut off instruction ends it.
-/
namespace Simian

/-- The number in decimal, with zeros in front up to four digits. -/
def fourDigits (number : Nat) : String :=
  let digits := toString number
  String.ofList (List.replicate (4 - digits.length) '0') ++ digits

/-- The byte as two hexadecimal digits. -/
def hexByte (byte : UInt8) : String :=
  String.ofList [Nat.digitChar (byte.toNat / 16), Nat.digitChar (byte.toNat % 16)]

namespace Instruction

/-- The name and the operands. -/
def render (instruction : Instruction) : String :=
  instruction.operands.foldl (fun out operand => out ++ " " ++ toString operand)
    instruction.opcode.name

end Instruction

namespace Code

/-- Appends the lines from `offset` on. -/
def writeListing (code : Code) (out : String) (offset : Nat) : String :=
  match _ : code.decode? offset with
  | none => out
  | some (.ok instruction) =>
    writeListing code (out ++ fourDigits offset ++ " " ++ instruction.render ++ "\n")
      (offset + instruction.size)
  | some (.error (.unknownOpcode byte)) =>
    writeListing code
      (out ++ fourDigits offset ++ " ERROR: unknown opcode 0x" ++ hexByte byte ++ "\n")
      (offset + 1)
  | some (.error (.truncated op)) =>
    out ++ fourDigits offset ++ " ERROR: truncated " ++ op.name ++ "\n"
termination_by code.size - offset
decreasing_by
  · rename_i h
    have hl := lt_size_of_decode? h
    have hs := instruction.size_pos
    omega
  · rename_i h
    have hl := lt_size_of_decode? h
    omega

def listing (code : Code) : String := code.writeListing "" 0

end Code

end Simian
