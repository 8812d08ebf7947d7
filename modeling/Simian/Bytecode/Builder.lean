import Simian.Bytecode.Codec

/-!
# Building code with jumps

A builder appends instructions and remembers the last two, so that a `pop` at the end
can be dropped or turned into a return. Jumps go to labels, and their operands are
filled in when the code is finished: a label stands for the offset it was last bound
to, and one that was never bound stands for the end.
-/
namespace Simian

/-- An instruction already in the code. -/
structure Emitted where
  opcode : Opcode
  offset : Nat
  deriving Repr, DecidableEq, Inhabited

/-- A jump target, numbered in the order of creation. The number is not cut to 32 bits, which the
first 2 ^ 32 labels fit in. -/
structure Label where
  index : Nat
  deriving Repr, DecidableEq, Inhabited

/-- A jump whose operand is still to be filled in. -/
structure PendingJump where
  operandOffset : Nat
  label : Label
  deriving Repr, DecidableEq, Inhabited

structure CodeBuilder where
  code : Code
  last : Option Emitted
  previous : Option Emitted
  /-- Where each label is bound, if it is. -/
  labels : Array (Option Nat)
  jumps : Array PendingJump
  deriving Repr, Inhabited

namespace CodeBuilder

/-- The highest offset that a jump can go to. -/
def jumpLimit : Nat := 65535

def empty : CodeBuilder := ⟨#[], none, none, #[], #[]⟩

/-- The offset of the next instruction. -/
def offset (builder : CodeBuilder) : Nat := builder.code.size

def emit (builder : CodeBuilder) (opcode : Opcode) (operands : List Nat) : CodeBuilder :=
  match builder with
  | ⟨code, last, _, labels, jumps⟩ =>
    let offset := code.size
    ⟨code ++ Instruction.encode ⟨opcode, operands⟩, some ⟨opcode, offset⟩, last, labels,
      jumps⟩

/-- Appends a jump to the label. -/
def emitJump (builder : CodeBuilder) (opcode : Opcode) (label : Label) : CodeBuilder :=
  match builder.emit opcode [0] with
  | ⟨code, last, previous, labels, jumps⟩ =>
    let operandOffset := code.size - 2
    ⟨code, last, previous, labels, jumps.push ⟨operandOffset, label⟩⟩

def lastIs (builder : CodeBuilder) (opcode : Opcode) : Bool :=
  match builder.last with
  | some emitted => emitted.opcode == opcode
  | none => false

/-- Drops a `pop` at the end, so that its value stays, and says whether there was one. Labels
bound behind it then stand for the new end. -/
def removeLastPop (builder : CodeBuilder) : Bool × CodeBuilder :=
  match builder with
  | ⟨code, last, previous, labels, jumps⟩ =>
    match last with
    | some ⟨.pop, offset⟩ =>
      (true, ⟨code.shrink offset, previous, none, labels.map (·.map (min · offset)), jumps⟩)
    | _ => (false, ⟨code, last, previous, labels, jumps⟩)

/-- Turns a `pop` at the end into a return of its value, and says whether there was one. -/
def replaceLastPop (builder : CodeBuilder) : Bool × CodeBuilder :=
  match builder with
  | ⟨code, last, previous, labels, jumps⟩ =>
    match last with
    | some ⟨.pop, offset⟩ =>
      (true, ⟨code.setIfInBounds offset Opcode.returnValue.toByte, some ⟨.returnValue, offset⟩,
        previous, labels, jumps⟩)
    | _ => (false, ⟨code, last, previous, labels, jumps⟩)

/-- A new label, bound nowhere yet. -/
def createLabel (builder : CodeBuilder) : Label × CodeBuilder :=
  match builder with
  | ⟨code, last, previous, labels, jumps⟩ =>
    let label := ⟨labels.size⟩
    (label, ⟨code, last, previous, labels.push none, jumps⟩)

/-- Makes the label stand for the next instruction. -/
def bindLabel (builder : CodeBuilder) (label : Label) : CodeBuilder :=
  match builder with
  | ⟨code, last, previous, labels, jumps⟩ =>
    let offset := code.size
    ⟨code, last, previous, labels.setIfInBounds label.index (some offset), jumps⟩

/-- The offset that the label stands for in code of the given length. -/
def target (labels : Array (Option Nat)) (length : Nat) (label : Label) : Nat :=
  (labels[label.index]?.join).getD length

/-- Writes a number of two bytes over the code at the offset. -/
def patch (code : Code) (offset number : Nat) : Code :=
  (code.setIfInBounds offset (number / 256).toUInt8).setIfInBounds (offset + 1) number.toUInt8

/-- Fills in the operands of the jumps. The error is the first target out of range. -/
def patchJumps (labels : Array (Option Nat)) (code : Code) :
    List PendingJump → Except Nat Code
  | [] => .ok code
  | jump :: rest =>
    let target := target labels code.size jump.label
    if jumpLimit < target then .error target
    else patchJumps labels (patch code jump.operandOffset target) rest

/-- The finished code, or the first jump target that is out of range. -/
def finish (builder : CodeBuilder) : Except Nat Code :=
  match builder with
  | ⟨code, _, _, labels, jumps⟩ => patchJumps labels code jumps.toList

end CodeBuilder

end Simian
