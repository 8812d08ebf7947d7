import Simian.Bytecode
import Simian.Machine

/-!
# Running code

A step takes the instruction at the offset of the running frame, moves the offset
behind it and does what it says. A run goes from step to step until the unit ends or
faults. It is given a number of steps that it may take, and running out of them is an
ending of its own, which is neither a result nor a fault of the program.
-/
namespace Simian

namespace Run

def thenGoOn (work : Run Unit) : Run Progress := do
  work
  pure .running

/-- Does what the instruction says. -/
def execute (instruction : Instruction) : Run Progress :=
  match instruction.opcode with
  | .constant => thenGoOn (constant (instruction.operand 0))
  | .pop => thenGoOn drop
  | .pushTrue => thenGoOn (push (.bool true))
  | .pushFalse => thenGoOn (push (.bool false))
  | .pushNull => thenGoOn (push .null)
  | .getGlobal => thenGoOn (getGlobal (instruction.operand 0))
  | .setGlobal => thenGoOn (setGlobal (instruction.operand 0))
  | .getLocal => thenGoOn (getLocal (instruction.operand 0))
  | .setLocal => thenGoOn (setLocal (instruction.operand 0))
  | .getBuiltin => thenGoOn (getBuiltin (instruction.operand 0))
  | .getFree => thenGoOn (getCapture (instruction.operand 0))
  | .currentClosure => thenGoOn currentClosure
  | .add => thenGoOn (arithmetic .add)
  | .sub => thenGoOn (arithmetic .sub)
  | .mul => thenGoOn (arithmetic .mul)
  | .div => thenGoOn (arithmetic .div)
  | .mod => thenGoOn (arithmetic .mod)
  | .equal => thenGoOn (comparison .eq)
  | .notEqual => thenGoOn (comparison .notEq)
  | .greaterThan => thenGoOn (comparison .gt)
  | .greaterEqual => thenGoOn (comparison .gtEq)
  | .lessThan => thenGoOn (comparison .lt)
  | .lessEqual => thenGoOn (comparison .ltEq)
  | .minus => thenGoOn (unary .negate)
  | .bang => thenGoOn (unary .invert)
  | .jump => thenGoOn (jump (instruction.operand 0))
  | .jumpNotTruthy => thenGoOn do
    let condition ← pop
    if condition.isTruthy then pure () else jump (instruction.operand 0)
  | .returnValue => do leave (← pop)
  | .returnNull => leave .null
  | .array => thenGoOn (buildArray (instruction.operand 0))
  | .hash => thenGoOn (buildHash (instruction.operand 0))
  | .index => thenGoOn index
  | .call => thenGoOn (call (instruction.operand 0))
  | .closure => thenGoOn (makeClosure (instruction.operand 0) (instruction.operand 1))

/-- One step. Code that ends without a return ends the unit, or returns null from a call. -/
def step : Run Progress := fun machine =>
  match machine.frames.current? with
  | none => (.ok .finished, machine)
  | some frame =>
    match frame.body.code.decode? frame.ip with
    | none =>
      if machine.frames.depth ≤ 1 then (.ok .finished, machine) else leave .null machine
    | some (.error error) => (.error (.ofDecodeError error frame.ip), machine)
    | some (.ok instruction) =>
      let next := frame.ip + instruction.size
      (do jump next; execute instruction : Run Progress) machine

end Run

/-- How a run ends. -/
inductive Ending where
  | finished
  | faulted (fault : Fault)
  /-- The steps ran out before the unit ended. -/
  | unfinished
  deriving Repr, DecidableEq, Inhabited

namespace Machine

/-- Takes up to this many steps. -/
def runSteps : (steps : Nat) → Machine → Ending × Machine
  | 0, machine => (.unfinished, machine)
  | steps + 1, machine =>
    match Run.step machine with
    | (.ok .running, machine) => runSteps steps machine
    | (.ok .finished, machine) => (.finished, machine)
    | (.error fault, machine) => (.faulted fault, machine)

/-- Steps allowed where no other number is given, far more than a run gets through. -/
def defaultSteps : Nat := 1 <<< 62

/-- A machine that has run nothing. -/
def create (limits : MachineLimits) (journal : Journal) : Machine where
  constants := #[]
  stack := .empty limits.stackSize
  frames := .empty limits.maxFrames
  globals := .empty limits.globalsCapacity
  lastPopped := .null
  sink := .empty
  nextId := 0
  journal

/-- A machine of the same size that has run nothing and takes over the globals. -/
def renewed (machine : Machine) : Machine :=
  { machine with
    constants := #[], stack := machine.stack.clear, frames := machine.frames.clear
    lastPopped := .null, sink := .empty }

/-- The frame of a unit. -/
def mainFrame (id : Nat) (code : Code) : Frame := ⟨id, ⟨some "<main>", code, 0, 0⟩, [], 0, 0⟩

/-- Makes the machine ready to run a unit from its start. Only the globals stay. -/
def load (unit : Bytecode) : Run Unit := do
  Attempt.modify fun machine =>
    { machine with
      constants := unit.constants, stack := machine.stack.clear
      frames := machine.frames.clear, lastPopped := .null }
  let id ← Run.freshId
  Run.onFrames (FrameStack.push (mainFrame id unit.code))

/-- Runs a unit with a number of steps. -/
def runWithin (steps : Nat) (machine : Machine) (unit : Bytecode) : Ending × Machine :=
  match load unit machine with
  | (.error fault, machine) => (.faulted fault, machine)
  | (.ok _, machine) =>
    let journal := machine.journal.note .debug fun _ =>
      s!"run {unit.code.size} bytes, {unit.constants.size} constants"
    match runSteps steps { machine with journal } with
    | (.faulted fault, machine) =>
      (.faulted fault,
        { machine with
          journal := machine.journal.note .debug fun _ =>
            s!"run failed at depth {machine.frames.depth}: {fault.message}" })
    | ended => ended

/-- Runs a unit. -/
def run (machine : Machine) (unit : Bytecode) : Ending × Machine :=
  machine.runWithin defaultSteps unit

/-- The stack height, the calls in progress and the global slots written. -/
def summary (machine : Machine) : String :=
  "VirtualMachine \x7b sp: " ++ toString machine.stack.size ++ ", frames: " ++
    toString machine.frames.depth ++ ", globals: " ++ toString machine.globals.size ++ ", .. \x7d"

end Machine

end Simian
