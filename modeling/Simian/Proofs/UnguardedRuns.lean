import Simian.Proofs.MachineReuse
import Simian.Proofs.StackMemory

/-!
# Runs without guards

A bare machine keeps its values in a block of memory, and its work is written with the
accesses of `Memory`: where one leaves the block, where a difference would be negative or
where a piece of code is cut out past its end, the work has no outcome (`none`). That is
kept apart from a fault, which is an outcome.
-/
namespace Simian

/-! ### Reading code -/

theorem Opcode.width_eq {op : Opcode} {width : Nat} (h : width ∈ op.widths) :
    width = 1 ∨ width = 2 := by
  cases op <;> simp [widths] at h <;> omega

namespace Code

/-- The code from an offset on. -/
def cutFrom (code : Code) (offset : Nat) : Option (List UInt8) :=
  if offset ≤ code.size then some (code.toList.drop offset) else none

/-- The number in the two bytes at an offset, if there are two. -/
def readPair (bytes : List UInt8) (offset : Nat) : Option (Option Nat) :=
  if offset + 2 ≤ bytes.length then do
    let pair := (bytes.drop offset).take 2
    let high ← pair[0]?
    let low ← pair[1]?
    return some (high.toNat * 256 + low.toNat)
  else some none

/-- The number in this many bytes at an offset, which are two or else one. -/
def readWidth (bytes : List UInt8) (offset width : Nat) : Option (Option Nat) :=
  if width = 2 then readPair bytes offset else some (bytes[offset]?.map UInt8.toNat)

def readWidths (bytes : List UInt8) (offset : Nat) :
    (widths : List Nat) → Option (Option (List Nat))
  | [] => some (some [])
  | width :: rest => do
    match ← readWidth bytes offset width with
    | some number => return (← readWidths bytes (offset + width) rest).map (number :: ·)
    | none => return none

/-- The instruction at an offset, where the code goes on there. The operands are read from the code
behind the first byte. -/
def fetch (code : Code) (offset : Nat) : Option (Option (Except DecodeError Instruction)) :=
  match code[offset]? with
  | none => some none
  | some byte =>
    match Opcode.ofByte? byte with
    | none => some (some (.error (.unknownOpcode byte)))
    | some op => do
      let bytes ← code.cutFrom (offset + 1)
      match ← readWidths bytes 0 op.widths with
      | some operands => return some (.ok ⟨op, operands⟩)
      | none => return some (.error (.truncated op))

variable (code : Code)

theorem readPair_drop (start offset : Nat) : readPair (code.toList.drop start) offset =
    some (code.readNumber (start + offset) 2) := by
  have hget : ∀ place, (code.toList.drop start)[place]? = code[start + place]? := by
    intro place
    rw [List.getElem?_drop, Array.getElem?_toList]
  unfold readPair readNumber readNumberFrom
  rw [List.length_drop, Array.length_toList]
  by_cases hroom : offset + 2 ≤ code.size - start
  · have hhigh : start + offset < code.size := by omega
    have hlow : start + offset + 1 < code.size := by omega
    have hpair : ∀ place < 2, (((code.toList.drop start).drop offset).take 2)[place]? =
        code[start + offset + place]? := by
      intro place hplace
      rw [List.getElem?_take_of_lt hplace, List.getElem?_drop, hget, Nat.add_assoc]
    rw [if_pos hroom]
    dsimp only
    rw [hpair 0 (by omega), hpair 1 (by omega)]
    simp [readNumberFrom, hhigh, hlow]
  · rw [if_neg hroom]
    by_cases hhigh : start + offset < code.size
    · have hlow : ¬start + offset + 1 < code.size := by omega
      simp [readNumberFrom, hhigh, hlow]
    · simp [hhigh]

theorem readWidth_drop (start offset : Nat) {width : Nat} (h : width = 1 ∨ width = 2) :
    readWidth (code.toList.drop start) offset width =
      some (code.readNumber (start + offset) width) := by
  rcases h with rfl | rfl
  · unfold readWidth readNumber readNumberFrom
    rw [if_neg (by decide), List.getElem?_drop, Array.getElem?_toList]
    cases code[start + offset]? <;> simp [readNumberFrom]
  · unfold readWidth
    rw [if_pos rfl]
    exact readPair_drop code start offset

theorem readWidths_drop (start offset : Nat) {widths : List Nat}
    (h : ∀ width ∈ widths, width = 1 ∨ width = 2) :
    readWidths (code.toList.drop start) offset widths =
      some (code.readNumbers (start + offset) widths) := by
  induction widths generalizing offset with
  | nil => rfl
  | cons width rest ih =>
    have hhead := readWidth_drop code start offset (h width (by simp))
    have hrest := ih (offset + width) fun width hw => h width (by simp [hw])
    rw [readWidths, readNumbers, hhead, hrest, Nat.add_assoc]
    cases code.readNumber (start + offset) width <;> rfl

/-- Where a byte was read, the code behind it can be cut out. -/
theorem fetch_eq (offset : Nat) : code.fetch offset = some (code.decode? offset) := by
  unfold fetch decode?
  cases hbyte : code[offset]? with
  | none => rfl
  | some byte =>
    have hoffset : offset < code.size := (Array.getElem?_eq_some_iff.mp hbyte).1
    dsimp only
    cases Opcode.ofByte? byte with
    | none => rfl
    | some op =>
      have hread := readWidths_drop code (offset + 1) 0 fun width => op.width_eq
      have hcut : code.cutFrom (offset + 1) = some (code.toList.drop (offset + 1)) :=
        if_pos hoffset
      dsimp only
      rw [hcut]
      dsimp only [Option.bind_eq_bind, Option.bind_some]
      rw [hread, Nat.add_zero]
      cases code.readNumbers (offset + 1) op.widths <;> rfl

end Code

/-! ### Bare machines -/

structure Bare where
  constants : Array Value
  memory : Memory
  /-- The frames, the innermost first. -/
  calls : List Frame
  callLimit : Nat
  globals : Globals
  lastPopped : Value
  sink : Sink
  nextId : Nat

/-- Work on a bare machine, which may have no outcome. -/
def Raw (α : Type) : Type := Bare → Option (Except Fault α × Bare)

namespace Raw

instance : Monad Raw where
  pure value := fun bare => some (.ok value, bare)
  bind first next := fun bare =>
    match first bare with
    | some (.ok value, bare) => next value bare
    | some (.error fault, bare) => some (.error fault, bare)
    | none => none

variable {α β : Type}

def fail (fault : Fault) : Raw α := fun bare => some (.error fault, bare)

/-- Changes the memory. -/
def onMemory (work : Memory → Option (Except Fault α × Memory)) : Raw α := fun bare =>
  (work bare.memory).map fun (result, memory) => (result, { bare with memory })

/-- Reads from the memory. -/
def look (query : Memory → Option α) : Raw α := fun bare =>
  (query bare.memory).map fun value => (.ok value, bare)

def difference (a b : Nat) : Raw Nat := look fun _ => minus a b

def height : Raw Nat := look fun memory => some memory.height

def frame : Raw Frame := fun bare =>
  match bare.calls with
  | [] => some (.error .noActiveFrame, bare)
  | frame :: _ => some (.ok frame, bare)

def ofOperation (result : Except OperationError α) : Raw α := fun bare =>
  match result with
  | .ok value => some (.ok value, bare)
  | .error error => some (.error (.operation error), bare)

def push (value : Value) : Raw Unit := onMemory (Memory.push value)

def pop : Raw Value := onMemory fun memory =>
  memory.pop.map fun (value, memory) => (.ok value, memory)

def takeTop (count : Nat) : Raw (List Value) := onMemory fun memory =>
  (memory.takeTop count).map fun (values, memory) => (.ok values, memory)

def resize (size : Nat) : Raw Unit := onMemory (Memory.resize size)

def jump (target : Nat) : Raw Unit := fun bare =>
  match bare.calls with
  | [] => some (.ok (), bare)
  | frame :: rest => some (.ok (), { bare with calls := { frame with ip := target } :: rest })

def pushFrame (frame : Frame) : Raw Unit := fun bare =>
  if bare.calls.length < bare.callLimit then
    some (.ok (), { bare with calls := frame :: bare.calls })
  else some (.error .frameOverflow, bare)

/-! ### Operations -/

def constant (index : Nat) : Raw Unit := fun bare =>
  match bare.constants[index]? with
  | some value => push value bare
  | none => some (.error (.constantOutOfRange index), bare)

def remember (value : Value) : Raw Unit := fun bare =>
  some (.ok (), { bare with lastPopped := value })

def drop : Raw Unit := do remember (← pop)

def getGlobal (index : Nat) : Raw Unit := fun bare =>
  match bare.globals.get index with
  | .ok value => push value bare
  | .error fault => some (.error fault, bare)

/-- Writes a global slot. Slots are added first where there are not as many. -/
def writeGlobal (index : Nat) (value : Value) : Raw Unit := fun bare =>
  let capacity := bare.globals.capacity
  let written := bare.globals.slots
  if capacity ≤ index then some (.error (.globalOutOfRange index), bare)
  else
    let slots := if written.size ≤ index then
      written ++ List.replicate (index + 1 - written.size) Value.null else written
    if h : index < slots.size then
      some (.ok (), { bare with globals := ⟨slots.set index value h, capacity⟩ })
    else none

def setGlobal (index : Nat) : Raw Unit := do writeGlobal index (← pop)

def getLocal (slot : Nat) : Raw Unit := do
  let base := (← frame).base
  push (← look fun memory => memory.get (base + slot))

def setLocal (slot : Nat) : Raw Unit := do
  let base := (← frame).base
  let value ← pop
  onMemory (Memory.set (base + slot) value)

def getBuiltin (index : Nat) : Raw Unit :=
  match Builtin.ofIndex? index with
  | some builtin => push (.builtin builtin)
  | none => fail (.unknownBuiltin index)

def getCapture (index : Nat) : Raw Unit := do
  match (← frame).capture index with
  | .ok value => push value
  | .error fault => fail fault

def currentClosure : Raw Unit := do push (← frame).closure

def binary (op : BinaryOp) : Raw Unit := do
  let right ← pop
  let left ← pop
  push (← ofOperation (op.apply left right))

def unary (op : UnaryOp) : Raw Unit := do
  let operand ← pop
  push (← ofOperation (op.apply operand))

def jumpNotTruthy (target : Nat) : Raw Unit := do
  let condition ← pop
  if condition.isTruthy then pure () else jump target

def buildArray (count : Nat) : Raw Unit := do push (.array (← takeTop count))

def buildHash (count : Nat) : Raw Unit := do
  let values ← takeTop count
  push (← ofOperation (Value.ofPairs (Run.pairUp values)))

def index : Raw Unit := do
  let key ← pop
  let collection ← pop
  push (← ofOperation (collection.index key))

def callClosure (id : Nat) (body : CompiledFunction) (captured : List Value) (count : Nat) :
    Raw Unit :=
  if count ≠ body.numParameters then fail (.wrongArgumentCount body.numParameters count)
  else do
    let base ← difference (← height) count
    pushFrame ⟨id, body, captured, 0, base⟩
    resize (base + body.numLocals)

def applyBuiltin (builtin : Builtin) (arguments : List Value) : Raw Value := fun bare =>
  match builtin.call arguments bare.sink with
  | (result, sink) => ofOperation result { bare with sink }

def callBuiltin (builtin : Builtin) (count : Nat) : Raw Unit := do
  let value ← applyBuiltin builtin (← look fun memory => memory.topValues count)
  let above ← difference (← height) count
  resize (← difference above 1)
  push value

def call (count : Nat) : Raw Unit := do
  match (← look fun memory => memory.peek? count).getD .null with
  | .closure id body captured => callClosure id body captured count
  | .builtin builtin => callBuiltin builtin count
  | other => fail (.notCallable other.kind)

def freshId : Raw Nat := fun bare => some (.ok bare.nextId, { bare with nextId := bare.nextId + 1 })

/-- Puts a closure in the place of what it captures. -/
def wrap (body : CompiledFunction) (count : Nat) : Raw Unit := do
  let captured ← takeTop count
  let id ← freshId
  push (.closure id body captured)

def makeClosure (index count : Nat) : Raw Unit := fun bare =>
  match bare.constants[index]? with
  | some (.compiled _ body) => wrap body count bare
  | some _ => some (.error (.notAFunction index), bare)
  | none => some (.error (.constantOutOfRange index), bare)

def thenGoOn (work : Raw Unit) : Raw Progress := do
  work
  pure .running

/-- Ends the running call with a value. -/
def leave (value : Value) : Raw Progress := fun bare =>
  match bare.calls with
  | [] => some (.ok .finished, bare)
  | [_] => some (.ok .finished, { bare with calls := [], lastPopped := value })
  | frame :: caller :: rest =>
    thenGoOn (do
      resize (frame.base - 1)
      push value) { bare with calls := caller :: rest }

/-! ### Steps and runs -/

def execute (instruction : Instruction) : Raw Progress :=
  match instruction.opcode with
  | .constant => thenGoOn (constant (instruction.operand 0))
  | .pop => thenGoOn drop
  | .pushTrue => thenGoOn (push (.bool true))
  | .pushFalse => thenGoOn (push (.bool false))
  | .pushNull => thenGoOn (push .null)
  | .getGlobal => thenGoOn (getGlobal (instruction.operand 0))
  | .setGlobal => thenGoOn (setGlobal (instruction.operand 0))
  | .getLocal => thenGoOn (getLocal (instruction.operand 0))
  | .setLocal => thenGoOn (setLocal (instruction.operand 0))
  | .getBuiltin => thenGoOn (getBuiltin (instruction.operand 0))
  | .getFree => thenGoOn (getCapture (instruction.operand 0))
  | .currentClosure => thenGoOn currentClosure
  | .add => thenGoOn (binary .add)
  | .sub => thenGoOn (binary .sub)
  | .mul => thenGoOn (binary .mul)
  | .div => thenGoOn (binary .div)
  | .mod => thenGoOn (binary .mod)
  | .equal => thenGoOn (binary .eq)
  | .notEqual => thenGoOn (binary .notEq)
  | .greaterThan => thenGoOn (binary .gt)
  | .greaterEqual => thenGoOn (binary .gtEq)
  | .lessThan => thenGoOn (binary .lt)
  | .lessEqual => thenGoOn (binary .ltEq)
  | .minus => thenGoOn (unary .negate)
  | .bang => thenGoOn (unary .invert)
  | .jump => thenGoOn (jump (instruction.operand 0))
  | .jumpNotTruthy => thenGoOn (jumpNotTruthy (instruction.operand 0))
  | .returnValue => do leave (← pop)
  | .returnNull => leave .null
  | .array => thenGoOn (buildArray (instruction.operand 0))
  | .hash => thenGoOn (buildHash (instruction.operand 0))
  | .index => thenGoOn index
  | .call => thenGoOn (call (instruction.operand 0))
  | .closure => thenGoOn (makeClosure (instruction.operand 0) (instruction.operand 1))

def step : Raw Progress := fun bare =>
  match bare.calls with
  | [] => some (.ok .finished, bare)
  | frame :: rest =>
    match frame.body.code.fetch frame.ip with
    | none => none
    | some none => if rest = [] then some (.ok .finished, bare) else leave .null bare
    | some (some (.error error)) => some (.error (.ofDecodeError error frame.ip), bare)
    | some (some (.ok instruction)) =>
      (do
        jump (frame.ip + instruction.size)
        execute instruction : Raw Progress) bare

end Raw

namespace Bare

def runSteps : (steps : Nat) → Bare → Option (Ending × Bare)
  | 0, bare => some (.unfinished, bare)
  | steps + 1, bare =>
    match Raw.step bare with
    | none => none
    | some (.ok .running, bare) => runSteps steps bare
    | some (.ok .finished, bare) => some (.finished, bare)
    | some (.error fault, bare) => some (.faulted fault, bare)

/-- Runs a unit with a number of steps, after what the last run left is thrown away. -/
def runWithin (steps : Nat) (bare : Bare) (unit : Bytecode) : Option (Ending × Bare) := do
  let memory ← bare.memory.clear
  let cleared : Bare := { bare with
    constants := unit.constants, memory, calls := [], lastPopped := .null
    nextId := bare.nextId + 1 }
  match ← Raw.pushFrame (Machine.mainFrame bare.nextId unit.code) cleared with
  | (.error fault, bare) => return (.faulted fault, bare)
  | (.ok (), bare) => runSteps steps bare

end Bare

end Simian
