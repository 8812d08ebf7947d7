import Simian.Journal
import Simian.Machine.Frames
import Simian.Machine.Globals
import Simian.Machine.Shortcut
import Simian.Machine.Stack
import Simian.Value.Builtin

/-!
# The machine

A machine has the constants of the unit it runs, a value stack, the calls in progress,
the global slots and a sink for `puts`. The handlers of the operations are here, each a
step that works on the machine and may end in a fault. A fault keeps the machine as it
was when the fault arose.
-/
namespace Simian

/-- What a machine has room for. -/
structure MachineLimits where
  stackSize : Nat
  /-- Calls in progress at one time, the unit itself included. -/
  maxFrames : Nat
  globalsCapacity : Nat
  deriving Repr, DecidableEq, Inhabited

def MachineLimits.default : MachineLimits := ⟨2048, 1024, Globals.defaultCapacity⟩

structure Machine where
  constants : Array Value
  stack : ValueStack
  frames : FrameStack
  globals : Globals
  /-- The value that a statement dropped last, or that the unit returned. -/
  lastPopped : Value
  sink : Sink
  /-- The identity of the next closure. -/
  nextId : Nat
  journal : Journal
  deriving Inhabited

/-- A step of the machine. -/
abbrev Run (α : Type) : Type := Attempt Fault Machine α

/-- Whether a run goes on after a step. -/
inductive Progress where
  | running | finished
  deriving Repr, DecidableEq, Inhabited

namespace Run

/-- Works on the value stack. -/
@[inline] def onStack {α : Type} (work : Attempt Fault ValueStack α) : Run α := fun machine =>
  match machine with
  | ⟨constants, stack, frames, globals, lastPopped, sink, nextId, journal⟩ =>
    match work stack with
    | (result, stack) =>
      (result, ⟨constants, stack, frames, globals, lastPopped, sink, nextId, journal⟩)

/-- Works on the calls in progress. -/
@[inline] def onFrames {α : Type} (work : Attempt Fault FrameStack α) : Run α := fun machine =>
  match machine with
  | ⟨constants, stack, frames, globals, lastPopped, sink, nextId, journal⟩ =>
    match work frames with
    | (result, frames) =>
      (result, ⟨constants, stack, frames, globals, lastPopped, sink, nextId, journal⟩)

/-- Works on the global slots. -/
@[inline] def onGlobals {α : Type} (work : Attempt Fault Globals α) : Run α := fun machine =>
  match machine with
  | ⟨constants, stack, frames, globals, lastPopped, sink, nextId, journal⟩ =>
    match work globals with
    | (result, globals) =>
      (result, ⟨constants, stack, frames, globals, lastPopped, sink, nextId, journal⟩)

/-- Works on the sink. -/
@[inline] def onSink {α : Type} (work : Attempt Fault Sink α) : Run α := fun machine =>
  match machine with
  | ⟨constants, stack, frames, globals, lastPopped, sink, nextId, journal⟩ =>
    match work sink with
    | (result, sink) =>
      (result, ⟨constants, stack, frames, globals, lastPopped, sink, nextId, journal⟩)

/-- The result of an operator, or its error as a fault. -/
def ofOperation {α : Type} (result : Except OperationError α) : Run α := fun machine =>
  match result with
  | .ok value => (.ok value, machine)
  | .error error => (.error (.operation error), machine)

def note (text : Machine → String) : Run Unit := fun machine =>
  (.ok (), { machine with journal := machine.journal.note .trace fun _ => text machine })

/-- A new identity. -/
def freshId : Run Nat := fun machine =>
  (.ok machine.nextId, { machine with nextId := machine.nextId + 1 })

/-- The frame that runs. -/
def frame : Run Frame := fun machine =>
  match machine.frames.current? with
  | some frame => (.ok frame, machine)
  | none => (.error .noActiveFrame, machine)

def push (value : Value) : Run Unit := onStack (ValueStack.push value)

def pop : Run Value := onStack (Attempt.modifyGet ValueStack.pop)

def jump (target : Nat) : Run Unit :=
  onFrames (Attempt.modify fun frames => frames.jump target)

/-! ### Loads and stores -/

def constant (index : Nat) : Run Unit := fun machine =>
  match machine.constants[index]? with
  | some value => push value machine
  | none => (.error (.constantOutOfRange index), machine)

/-- Drops the top value and remembers it. -/
def drop : Run Unit := do
  let value ← pop
  Attempt.modify fun machine => { machine with lastPopped := value }

def getGlobal (index : Nat) : Run Unit := fun machine =>
  match machine.globals.get index with
  | .ok value => push value machine
  | .error fault => (.error fault, machine)

def setGlobal (index : Nat) : Run Unit := do
  let value ← pop
  onGlobals (Globals.set index value)

def getLocal (slot : Nat) : Run Unit := do
  let base := (← frame).base
  let value ← onStack fun stack => (.ok (stack.get (base + slot)), stack)
  push value

def setLocal (slot : Nat) : Run Unit := do
  let base := (← frame).base
  let value ← pop
  onStack (ValueStack.set (base + slot) value)

def getBuiltin (index : Nat) : Run Unit :=
  match Builtin.ofIndex? index with
  | some builtin => push (.builtin builtin)
  | none => Attempt.fail (.unknownBuiltin index)

def getCapture (index : Nat) : Run Unit := do
  let value ← Attempt.ofExcept ((← frame).capture index)
  push value

def currentClosure : Run Unit := do
  push (← frame).closure

/-! ### Operators -/

/-- Takes two operands, the right one from the top, and pushes what an operator makes of them. -/
def binary (apply : Value → Value → Except OperationError Value) : Run Unit := do
  let right ← pop
  let left ← pop
  push (← ofOperation (apply left right))

def arithmetic (op : BinaryOp) : Run Unit := binary op.calculate

def comparison (op : BinaryOp) : Run Unit := binary op.relate

def unary (op : UnaryOp) : Run Unit := do
  let operand ← pop
  push (← ofOperation (op.apply operand))

/-! ### Arrays and hashes -/

def takeTop (count : Nat) : Run (List Value) :=
  onStack (Attempt.modifyGet fun stack => stack.takeTop count)

def buildArray (count : Nat) : Run Unit := do
  push (.array (← takeTop count))

/-- Keys and values taken in turn. A key without a value is left out. -/
def pairUp : List Value → List (Value × Value)
  | key :: value :: rest => (key, value) :: pairUp rest
  | _ => []

def buildHash (count : Nat) : Run Unit := do
  let values ← takeTop count
  push (← ofOperation (Value.ofPairs (pairUp values)))

def index : Run Unit := do
  let key ← pop
  let collection ← pop
  push (← ofOperation (collection.index key))

/-! ### Calls -/

/-- Starts a call of the closure below its arguments. The arguments become its first local
slots, and nulls are added for the others. -/
def callClosure (id : Nat) (body : CompiledFunction) (captured : List Value) (count : Nat) :
    Run Unit := do
  if count ≠ body.numParameters then
    Attempt.fail (.wrongArgumentCount body.numParameters count)
  else
    let base ← onStack fun stack => (.ok (stack.size - count), stack)
    note fun machine => s!"call {body.displayName} at depth {machine.frames.depth}"
    onFrames (FrameStack.push ⟨id, body, captured, 0, base⟩)
    onStack (ValueStack.resize (base + body.numLocals))

/-- Calls the built-in function below its arguments and puts its value in their place. -/
def callBuiltin (builtin : Builtin) (count : Nat) : Run Unit := do
  let arguments ← onStack fun stack => (.ok (stack.topValues count), stack)
  let result ← onSink (Attempt.modifyGet (builtin.call arguments))
  let value ← ofOperation result
  onStack fun stack => ValueStack.resize (stack.size - count - 1) stack
  push value

/-- Calls the value below the top `count` arguments. -/
def call (count : Nat) : Run Unit := do
  let callee ← onStack fun stack => (.ok ((stack.peek? count).getD .null), stack)
  match callee with
  | .closure id body captured => callClosure id body captured count
  | .builtin builtin => callBuiltin builtin count
  | other => Attempt.fail (.notCallable other.kind)

/-- Makes a closure of a constant and the top `count` values. -/
def makeClosure (index count : Nat) : Run Unit := do
  match (← Attempt.get).constants[index]? with
  | some (.compiled _ body) =>
    let captured ← takeTop count
    let id ← freshId
    push (.closure id body captured)
  | some _ => Attempt.fail (.notAFunction index)
  | none => Attempt.fail (.constantOutOfRange index)

/-- Ends the running call with a value, which takes the place of the callee. When the unit itself
ends, the value becomes its result. -/
def leave (value : Value) : Run Progress := do
  match ← onFrames (Attempt.modifyGet FrameStack.pop) with
  | none => pure .finished
  | some frame =>
    if (← Attempt.get).frames.isEmpty then
      Attempt.modify fun machine => { machine with lastPopped := value }
      pure .finished
    else
      note fun machine =>
        s!"return from {frame.body.displayName} to depth {machine.frames.depth}"
      onStack (ValueStack.resize (frame.base - 1))
      push value
      pure .running

end Run

end Simian
