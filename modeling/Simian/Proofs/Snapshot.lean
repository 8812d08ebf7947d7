import Simian.Machine.Step
import Simian.Proofs.IntegerWords

/-!
# Steps on plain lists

A snapshot is what a machine holds without the journal and without the proofs that its
parts carry: the value stack is a list from the bottom to the top, and the calls are a
list of frames. `Snapshot.step` says what one step does to it, with every way in which
the step can end, and `Machine.step_eq` says that the machine does just that.
-/
namespace Simian

structure Snapshot where
  constants : Array Value
  /-- The value stack, from the bottom to the top. -/
  values : List Value
  /-- The most values that the stack can hold. -/
  room : Nat
  /-- The frames, the innermost first. -/
  calls : List Frame
  /-- The most calls in progress. -/
  callLimit : Nat
  globals : Globals
  lastPopped : Value
  sink : Sink
  nextId : Nat

/-- How a step ends, and what there is then. -/
inductive Turn where
  | goes (after : Snapshot)
  | ends (after : Snapshot)
  | fails (fault : Fault) (after : Snapshot)

namespace Snapshot

/-- The top value, which is null where there is none. -/
def top (s : Snapshot) : Value := s.values.getLast?.getD .null

def dropped (s : Snapshot) : Snapshot := { s with values := s.values.dropLast }

def push (s : Snapshot) (value : Value) : Turn :=
  if s.values.length < s.room then .goes { s with values := s.values ++ [value] }
  else .fails .stackOverflow s

/-- Pushes the result of an operation, or fails with its error. -/
def settle (s : Snapshot) (result : Except OperationError Value) : Turn :=
  match result with
  | .ok value => s.push value
  | .error error => .fails (.operation error) s

/-- The stack made this high, with nulls where it was lower. -/
def resized (s : Snapshot) (size : Nat) : Snapshot :=
  { s with values := s.values.take size ++ List.replicate (size - s.values.length) .null }

/-- Goes on with the stack made this high, if there is room for that. -/
def reshape (s : Snapshot) (size : Nat) (next : Snapshot → Turn) : Turn :=
  if size ≤ s.room then next (s.resized size) else .fails .stackOverflow s

/-- The top values, the lowest first. -/
def topValues (s : Snapshot) (count : Nat) : List Value :=
  s.values.drop (s.values.length - count)

/-- The stack without its top values. -/
def without (s : Snapshot) (count : Nat) : Snapshot :=
  { s with values := s.values.take (s.values.length - count) }

def binary (s : Snapshot) (op : BinaryOp) : Turn :=
  s.dropped.dropped.settle (op.apply s.dropped.top s.top)

def unary (s : Snapshot) (op : UnaryOp) : Turn := s.dropped.settle (op.apply s.top)

/-- Ends the running call with a value. -/
def leave (s : Snapshot) (value : Value) : Turn :=
  match s.calls with
  | [] => .ends s
  | [_] => .ends { s with calls := [], lastPopped := value }
  | frame :: caller :: rest =>
    { s with calls := caller :: rest }.reshape (frame.base - 1) fun s => s.push value

def callClosure (s : Snapshot) (id : Nat) (body : CompiledFunction) (captured : List Value)
    (count : Nat) : Turn :=
  if count ≠ body.numParameters then .fails (.wrongArgumentCount body.numParameters count) s
  else if s.calls.length < s.callLimit then
    let base := s.values.length - count
    { s with calls := ⟨id, body, captured, 0, base⟩ :: s.calls }.reshape (base + body.numLocals) .goes
  else .fails .frameOverflow s

def callBuiltin (s : Snapshot) (builtin : Builtin) (count : Nat) : Turn :=
  match builtin.call (s.topValues count) s.sink with
  | (.ok value, sink) =>
    { s with sink }.reshape (s.values.length - count - 1) fun s => s.push value
  | (.error error, sink) => .fails (.operation error) { s with sink }

/-- The value below the top ones, which is null where there is none. -/
def callee (s : Snapshot) (count : Nat) : Value :=
  if count < s.values.length then (s.values[s.values.length - (count + 1)]?).getD .null else .null

def call (s : Snapshot) (count : Nat) : Turn :=
  match s.callee count with
  | .closure id body captured => s.callClosure id body captured count
  | .builtin builtin => s.callBuiltin builtin count
  | other => .fails (.notCallable other.kind) s

def makeClosure (s : Snapshot) (index count : Nat) : Turn :=
  match s.constants[index]? with
  | some (.compiled _ body) =>
    { s.without count with nextId := s.nextId + 1 }.push
      (.closure s.nextId body (s.topValues count))
  | some _ => .fails (.notAFunction index) s
  | none => .fails (.constantOutOfRange index) s

/-- The running frame goes on at the offset. -/
def jumped (s : Snapshot) (ip : Nat) : Snapshot :=
  match s.calls with
  | [] => s
  | frame :: rest => { s with calls := { frame with ip } :: rest }

/-- What the instruction does in the frame. -/
def execute (s : Snapshot) (frame : Frame) (instruction : Instruction) : Turn :=
  match instruction.opcode with
  | .constant =>
    match s.constants[instruction.operand 0]? with
    | some value => s.push value
    | none => .fails (.constantOutOfRange (instruction.operand 0)) s
  | .pop => .goes { s.dropped with lastPopped := s.top }
  | .pushTrue => s.push (.bool true)
  | .pushFalse => s.push (.bool false)
  | .pushNull => s.push .null
  | .getGlobal =>
    match s.globals.get (instruction.operand 0) with
    | .ok value => s.push value
    | .error fault => .fails fault s
  | .setGlobal =>
    match Globals.set (instruction.operand 0) s.top s.globals with
    | (.ok _, globals) => .goes { s.dropped with globals }
    | (.error fault, globals) => .fails fault { s.dropped with globals }
  | .getLocal => s.push ((s.values[frame.base + instruction.operand 0]?).getD .null)
  | .setLocal =>
    let place := frame.base + instruction.operand 0
    if place < s.dropped.values.length then
      .goes { s.dropped with values := s.dropped.values.set place s.top }
    else .fails .stackOverflow s.dropped
  | .getBuiltin =>
    match Builtin.ofIndex? (instruction.operand 0) with
    | some builtin => s.push (.builtin builtin)
    | none => .fails (.unknownBuiltin (instruction.operand 0)) s
  | .getFree =>
    match frame.capture (instruction.operand 0) with
    | .ok value => s.push value
    | .error fault => .fails fault s
  | .currentClosure => s.push frame.closure
  | .add => s.binary .add
  | .sub => s.binary .sub
  | .mul => s.binary .mul
  | .div => s.binary .div
  | .mod => s.binary .mod
  | .equal => s.binary .eq
  | .notEqual => s.binary .notEq
  | .greaterThan => s.binary .gt
  | .greaterEqual => s.binary .gtEq
  | .lessThan => s.binary .lt
  | .lessEqual => s.binary .ltEq
  | .minus => s.unary .negate
  | .bang => s.unary .invert
  | .jump => .goes (s.jumped (instruction.operand 0))
  | .jumpNotTruthy =>
    .goes (if s.top.isTruthy then s.dropped else s.dropped.jumped (instruction.operand 0))
  | .returnValue => s.dropped.leave s.top
  | .returnNull => s.leave .null
  | .array =>
    (s.without (instruction.operand 0)).push (.array (s.topValues (instruction.operand 0)))
  | .hash =>
    (s.without (instruction.operand 0)).settle
      (Value.ofPairs (Run.pairUp (s.topValues (instruction.operand 0))))
  | .index => s.dropped.dropped.settle (s.dropped.top.index s.top)
  | .call => s.call (instruction.operand 0)
  | .closure => s.makeClosure (instruction.operand 0) (instruction.operand 1)

def step (s : Snapshot) : Turn :=
  match s.calls with
  | [] => .ends s
  | frame :: rest =>
    match frame.body.code.decode? frame.ip with
    | none => if rest = [] then .ends s else s.leave .null
    | some (.error error) => .fails (.ofDecodeError error frame.ip) s
    | some (.ok instruction) =>
      let frame := { frame with ip := frame.ip + instruction.size }
      { s with calls := frame :: rest }.execute frame instruction

end Snapshot

namespace Machine

/-- What the machine holds. -/
def view (machine : Machine) : Snapshot where
  constants := machine.constants
  values := machine.stack.toList
  room := machine.stack.capacity
  calls := machine.frames.frames
  callLimit := machine.frames.maxDepth
  globals := machine.globals
  lastPopped := machine.lastPopped
  sink := machine.sink
  nextId := machine.nextId

/-- The outcome of a step of the machine. -/
def turn : Except Fault Progress × Machine → Turn
  | (.ok .running, machine) => .goes machine.view
  | (.ok .finished, machine) => .ends machine.view
  | (.error fault, machine) => .fails fault machine.view

/-- The outcome of a piece of work that is not the end of the unit. -/
def workTurn : Except Fault Unit × Machine → Turn
  | (.ok (), machine) => .goes machine.view
  | (.error fault, machine) => .fails fault machine.view

theorem turn_thenGoOn (work : Run Unit) (machine : Machine) :
    turn (Run.thenGoOn work machine) = workTurn (work machine) := by
  unfold Run.thenGoOn
  rw [Attempt.bind_apply]
  cases h : work machine with
  | mk result after => cases result <;> rfl

/-! ### Pieces of work -/

section
variable (machine : Machine)

theorem length_values : machine.view.values.length = machine.stack.size :=
  machine.stack.length_toList

theorem length_values_le : machine.view.values.length ≤ machine.view.room :=
  machine.length_values ▸ machine.stack.size_le_capacity

theorem workTurn_push (value : Value) :
    workTurn (Run.push value machine) = machine.view.push value := by
  unfold Snapshot.push Run.push
  rw [length_values]
  by_cases h : machine.stack.size < machine.view.room
  · obtain ⟨stack, hp, hc, ht⟩ := ValueStack.toList_push value h
    simp only [Run.onStack, hp, if_pos h, workTurn]
    simp only [view, ht, hc]
  · simp only [Run.onStack, ValueStack.push_full value h, if_neg h, workTurn]

theorem pop_apply : ∃ after, Run.pop machine = (.ok machine.view.top, after) ∧
    after.view = machine.view.dropped := by
  refine ⟨{ machine with stack := machine.stack.pop.2 }, ?_, ?_⟩
  · rw [show machine.view.top = machine.stack.pop.1 from (ValueStack.pop_value _).symm]
    rfl
  · simp only [view, Snapshot.dropped, ValueStack.toList_pop, ValueStack.capacity_pop]

theorem workTurn_settle (result : Except OperationError Value) :
    workTurn ((do Run.push (← Run.ofOperation result)) machine) = machine.view.settle result := by
  cases result with
  | ok value => exact workTurn_push machine value
  | error error => rfl

theorem workTurn_binary {op : BinaryOp} {apply : Value → Value → Except OperationError Value}
    (h : ∀ left right, apply left right = op.apply left right) :
    workTurn (Run.binary apply machine) = machine.view.binary op := by
  obtain ⟨first, hfirst, hv⟩ := pop_apply machine
  obtain ⟨second, hsecond, hv'⟩ := pop_apply first
  unfold Run.binary
  rw [Attempt.bind_of_ok hfirst, Attempt.bind_of_ok hsecond, workTurn_settle, h, hv', hv]
  rfl

theorem workTurn_unary (op : UnaryOp) :
    workTurn (Run.unary op machine) = machine.view.unary op := by
  obtain ⟨first, hfirst, hv⟩ := pop_apply machine
  unfold Run.unary
  rw [Attempt.bind_of_ok hfirst, workTurn_settle, hv]
  rfl

theorem workTurn_index : workTurn (Run.index machine) =
    machine.view.dropped.dropped.settle
      (machine.view.dropped.top.index machine.view.top) := by
  obtain ⟨first, hfirst, hv⟩ := pop_apply machine
  obtain ⟨second, hsecond, hv'⟩ := pop_apply first
  unfold Run.index
  rw [Attempt.bind_of_ok hfirst, Attempt.bind_of_ok hsecond, workTurn_settle, hv', hv]

theorem topValues_eq (count : Nat) :
    machine.stack.topValues count = machine.view.topValues count := by
  rw [ValueStack.topValues_eq, Snapshot.topValues, length_values]
  rfl

theorem takeTop_apply (count : Nat) : ∃ after,
    Run.takeTop count machine = (.ok (machine.view.topValues count), after) ∧
      after.view = machine.view.without count := by
  refine ⟨{ machine with stack := machine.stack.cut (machine.stack.size - count) }, ?_, ?_⟩
  · rw [← topValues_eq]
    rfl
  · simp only [view, Snapshot.without, ValueStack.toList_cut, ValueStack.capacity_cut,
      ValueStack.length_toList]

theorem workTurn_buildArray (count : Nat) : workTurn (Run.buildArray count machine) =
    (machine.view.without count).push (.array (machine.view.topValues count)) := by
  obtain ⟨after, htake, hv⟩ := takeTop_apply machine count
  unfold Run.buildArray
  rw [Attempt.bind_of_ok htake, workTurn_push, hv]

theorem workTurn_buildHash (count : Nat) : workTurn (Run.buildHash count machine) =
    (machine.view.without count).settle
      (Value.ofPairs (Run.pairUp (machine.view.topValues count))) := by
  obtain ⟨after, htake, hv⟩ := takeTop_apply machine count
  unfold Run.buildHash
  rw [Attempt.bind_of_ok htake, workTurn_settle, hv]

theorem jump_apply (target : Nat) : ∃ after, Run.jump target machine = (.ok (), after) ∧
    after.view = machine.view.jumped target := by
  refine ⟨{ machine with frames := machine.frames.jump target }, rfl, ?_⟩
  obtain ⟨constants, stack, ⟨frames, depth, maxDepth, he, hl⟩, globals, lastPopped, sink, nextId,
    journal⟩ := machine
  cases frames <;> rfl

/-- Making the stack higher or lower, and what is done then. -/
theorem resize_apply (size : Nat) :
    (∃ after, Run.onStack (ValueStack.resize size) machine = (.ok (), after) ∧
      ∀ next, machine.view.reshape size next = next after.view) ∨
    Run.onStack (ValueStack.resize size) machine = (.error .stackOverflow, machine) ∧
      ∀ next, machine.view.reshape size next = .fails .stackOverflow machine.view := by
  by_cases h : size ≤ machine.view.room
  · obtain ⟨stack, hr, hc, ht⟩ := ValueStack.toList_resize h
    refine .inl ⟨{ machine with stack }, by simp only [Run.onStack, hr], fun next => ?_⟩
    rw [Snapshot.reshape, if_pos h]
    simp only [view, Snapshot.resized, hc, ht, ValueStack.length_toList]
  · exact .inr ⟨by simp only [Run.onStack, ValueStack.resize_full h], fun next => if_neg h⟩

theorem view_note (text : Machine → String) :
    ∃ after, Run.note text machine = (.ok (), after) ∧ after.view = machine.view :=
  ⟨_, rfl, rfl⟩

theorem frame_apply {frame : Frame} {rest : List Frame} (h : machine.view.calls = frame :: rest) :
    Run.frame machine = (.ok frame, machine) := by
  have hc : machine.frames.current? = some frame := by
    show machine.view.calls.head? = _
    rw [h]
    rfl
  simp only [Run.frame, hc]

theorem workTurn_getLocal {frame : Frame} {rest : List Frame}
    (h : machine.view.calls = frame :: rest) (slot : Nat) :
    workTurn (Run.getLocal slot machine) =
      machine.view.push ((machine.view.values[frame.base + slot]?).getD .null) := by
  unfold Run.getLocal
  rw [Attempt.bind_of_ok (frame_apply machine h)]
  have hget : machine.stack.get (frame.base + slot) =
      (machine.view.values[frame.base + slot]?).getD .null := machine.stack.get_eq _
  rw [← hget]
  exact workTurn_push machine _

theorem workTurn_setLocal {frame : Frame} {rest : List Frame}
    (h : machine.view.calls = frame :: rest) (slot : Nat) :
    workTurn (Run.setLocal slot machine) =
      if frame.base + slot < machine.view.dropped.values.length then
        .goes { machine.view.dropped with
          values := machine.view.dropped.values.set (frame.base + slot) machine.view.top }
      else .fails .stackOverflow machine.view.dropped := by
  obtain ⟨after, hpop, hv⟩ := pop_apply machine
  unfold Run.setLocal
  rw [Attempt.bind_of_ok (frame_apply machine h), Attempt.bind_of_ok hpop, ← hv]
  by_cases hlt : frame.base + slot < after.view.values.length
  · obtain ⟨stack, hs, hc, ht⟩ := ValueStack.toList_set machine.view.top
      (after.length_values ▸ hlt)
    simp only [Run.onStack, hs, if_pos hlt, workTurn]
    simp only [view, ht, hc]
  · have hs := ValueStack.set_full machine.view.top
      (after.length_values ▸ hlt)
    simp only [Run.onStack, hs, if_neg hlt, workTurn]

theorem workTurn_constant (index : Nat) : workTurn (Run.constant index machine) =
    match machine.view.constants[index]? with
    | some value => machine.view.push value
    | none => .fails (.constantOutOfRange index) machine.view := by
  have hc : machine.view.constants = machine.constants := rfl
  rw [hc]
  unfold Run.constant
  cases machine.constants[index]? with
  | some value => exact workTurn_push machine value
  | none => rfl

theorem workTurn_drop : workTurn (Run.drop machine) =
    .goes { machine.view.dropped with lastPopped := machine.view.top } := by
  obtain ⟨after, hpop, hv⟩ := pop_apply machine
  unfold Run.drop
  rw [Attempt.bind_of_ok hpop, ← hv]
  rfl

theorem workTurn_getGlobal (index : Nat) : workTurn (Run.getGlobal index machine) =
    match machine.view.globals.get index with
    | .ok value => machine.view.push value
    | .error fault => .fails fault machine.view := by
  have hg : machine.view.globals = machine.globals := rfl
  rw [hg]
  unfold Run.getGlobal
  cases machine.globals.get index with
  | ok value => exact workTurn_push machine value
  | error fault => rfl

theorem workTurn_setGlobal (index : Nat) : workTurn (Run.setGlobal index machine) =
    match Globals.set index machine.view.top machine.view.globals with
    | (.ok _, globals) => .goes { machine.view.dropped with globals }
    | (.error fault, globals) => .fails fault { machine.view.dropped with globals } := by
  obtain ⟨after, hpop, hv⟩ := pop_apply machine
  have hg : machine.view.globals = after.globals := congrArg Snapshot.globals hv.symm
  unfold Run.setGlobal
  rw [Attempt.bind_of_ok hpop, ← hv, hg]
  obtain ⟨constants, stack, frames, globals, lastPopped, sink, nextId, journal⟩ := after
  unfold Run.onGlobals
  dsimp only
  cases Globals.set index machine.view.top globals with
  | mk result globals => cases result <;> rfl

theorem workTurn_getBuiltin (index : Nat) : workTurn (Run.getBuiltin index machine) =
    match Builtin.ofIndex? index with
    | some builtin => machine.view.push (.builtin builtin)
    | none => .fails (.unknownBuiltin index) machine.view := by
  unfold Run.getBuiltin
  cases Builtin.ofIndex? index with
  | some builtin => exact workTurn_push machine _
  | none => rfl

theorem workTurn_getCapture {frame : Frame} {rest : List Frame}
    (h : machine.view.calls = frame :: rest) (index : Nat) :
    workTurn (Run.getCapture index machine) =
      match frame.capture index with
      | .ok value => machine.view.push value
      | .error fault => .fails fault machine.view := by
  unfold Run.getCapture
  rw [Attempt.bind_of_ok (frame_apply machine h)]
  cases frame.capture index with
  | ok value => exact workTurn_push machine value
  | error fault => rfl

theorem workTurn_currentClosure {frame : Frame} {rest : List Frame}
    (h : machine.view.calls = frame :: rest) :
    workTurn (Run.currentClosure machine) = machine.view.push frame.closure := by
  unfold Run.currentClosure
  rw [Attempt.bind_of_ok (frame_apply machine h)]
  exact workTurn_push machine _

theorem workTurn_jumpNotTruthy (target : Nat) :
    workTurn ((do
      let condition ← Run.pop
      if condition.isTruthy then pure () else Run.jump target : Run Unit) machine) =
      .goes (if machine.view.top.isTruthy then machine.view.dropped
        else machine.view.dropped.jumped target) := by
  obtain ⟨after, hpop, hv⟩ := pop_apply machine
  obtain ⟨jumped, hjump, hv'⟩ := jump_apply after target
  rw [Attempt.bind_of_ok hpop, ← hv, ← hv']
  cases machine.view.top.isTruthy with
  | true => rfl
  | false => exact congrArg workTurn hjump

/-! ### Calls -/

theorem pushFrame_apply (frame : Frame)
    (h : machine.view.calls.length < machine.view.callLimit) : ∃ after,
    Run.onFrames (FrameStack.push frame) machine = (.ok (), after) ∧
      after.view = { machine.view with calls := frame :: machine.view.calls } := by
  obtain ⟨constants, stack, ⟨frames, depth, maxDepth, he, hl⟩, globals, lastPopped, sink, nextId,
    journal⟩ := machine
  subst he
  have h : frames.length < maxDepth := h
  refine ⟨⟨constants, stack, ⟨frame :: frames, frames.length + 1, maxDepth, rfl, h⟩, globals,
    lastPopped, sink, nextId, journal⟩, ?_, rfl⟩
  simp only [Run.onFrames, FrameStack.push, dif_pos h]

theorem pushFrame_apply_full {frame : Frame}
    (h : ¬machine.view.calls.length < machine.view.callLimit) :
    Run.onFrames (FrameStack.push frame) machine = (.error .frameOverflow, machine) := by
  obtain ⟨constants, stack, ⟨frames, depth, maxDepth, he, hl⟩, globals, lastPopped, sink, nextId,
    journal⟩ := machine
  subst he
  have h : ¬frames.length < maxDepth := h
  simp only [Run.onFrames, FrameStack.push, dif_neg h]

theorem workTurn_callClosure (id : Nat) (body : CompiledFunction) (captured : List Value)
    (count : Nat) : workTurn (Run.callClosure id body captured count machine) =
      machine.view.callClosure id body captured count := by
  unfold Run.callClosure Snapshot.callClosure
  by_cases hcount : count ≠ body.numParameters
  · rw [if_pos hcount, if_pos hcount]
    rfl
  · rw [if_neg hcount, if_neg hcount]
    have hbase : Run.onStack (fun stack => (.ok (stack.size - count), stack)) machine =
        (.ok (machine.view.values.length - count), machine) := by
      rw [length_values]
      rfl
    obtain ⟨noted, hnote, hv⟩ := view_note machine fun machine =>
      s!"call {body.displayName} at depth {machine.frames.depth}"
    rw [Attempt.bind_of_ok hbase, Attempt.bind_of_ok hnote, ← hv]
    by_cases hroom : noted.view.calls.length < noted.view.callLimit
    · rw [if_pos hroom]
      obtain ⟨pushed, hpush, hv'⟩ := pushFrame_apply noted
        ⟨id, body, captured, 0, noted.view.values.length - count⟩ hroom
      rw [Attempt.bind_of_ok hpush]
      dsimp only
      rw [← hv']
      rcases resize_apply pushed (noted.view.values.length - count + body.numLocals) with
        ⟨after, hresize, hnext⟩ | ⟨hresize, hnext⟩ <;>
      · rw [hresize, hnext]
        rfl
    · rw [if_neg hroom, Attempt.bind_of_error (pushFrame_apply_full noted hroom)]
      rfl

theorem callee_eq (count : Nat) :
    (machine.stack.peek? count).getD .null = machine.view.callee count := by
  rw [ValueStack.peek?_eq, Snapshot.callee, length_values]
  split <;> rfl

theorem workTurn_callBuiltin (builtin : Builtin) (count : Nat) :
    workTurn (Run.callBuiltin builtin count machine) =
      machine.view.callBuiltin builtin count := by
  have hargs : Run.onStack (fun stack => (.ok (stack.topValues count), stack)) machine =
      (.ok (machine.view.topValues count), machine) := by
    rw [← topValues_eq]
    rfl
  have hsink : ∀ result sink, builtin.call (machine.view.topValues count) machine.sink =
      (result, sink) →
      Run.onSink (Attempt.modifyGet (builtin.call (machine.view.topValues count))) machine =
        (.ok result, { machine with sink }) := by
    intro result sink h
    obtain ⟨constants, stack, frames, globals, lastPopped, old, nextId, journal⟩ := machine
    simp only [Run.onSink, Attempt.modifyGet, h]
  unfold Run.callBuiltin Snapshot.callBuiltin
  rw [Attempt.bind_of_ok hargs, show machine.view.sink = machine.sink from rfl]
  cases hcall : builtin.call (machine.view.topValues count) machine.sink with
  | mk result sink =>
    rw [Attempt.bind_of_ok (hsink result sink hcall)]
    cases result with
    | error error => rfl
    | ok value =>
      rw [Attempt.bind_of_ok (show Run.ofOperation (.ok value) { machine with sink } =
        (.ok value, { machine with sink }) from rfl)]
      dsimp only
      rcases resize_apply { machine with sink } (machine.view.values.length - count - 1) with
        ⟨after, hresize, hnext⟩ | ⟨hresize, hnext⟩ <;> rw [length_values] at hresize
      · exact (congrArg workTurn (Attempt.bind_of_ok hresize)).trans
          ((workTurn_push after value).trans (hnext fun s => s.push value).symm)
      · exact (congrArg workTurn (Attempt.bind_of_error hresize)).trans (hnext _).symm

theorem workTurn_call (count : Nat) :
    workTurn (Run.call count machine) = machine.view.call count := by
  have hcallee : (Run.onStack fun stack => (.ok ((stack.peek? count).getD .null), stack)) machine =
      ((.ok (machine.view.callee count) : Except Fault Value), machine) := by
    rw [← callee_eq]
    rfl
  unfold Run.call Snapshot.call
  rw [Attempt.bind_of_ok hcallee]
  cases machine.view.callee count with
  | closure id body captured => exact workTurn_callClosure machine id body captured count
  | builtin builtin => exact workTurn_callBuiltin machine builtin count
  | null | int _ | bool _ | str _ | array _ | hash _ | function _ | compiled _ _ => rfl

theorem workTurn_makeClosure (index count : Nat) :
    workTurn (Run.makeClosure index count machine) = machine.view.makeClosure index count := by
  have hc : machine.view.constants = machine.constants := rfl
  have hget : (Attempt.get : Run Machine) machine = (.ok machine, machine) := rfl
  unfold Run.makeClosure Snapshot.makeClosure
  rw [Attempt.bind_of_ok hget, hc]
  cases machine.constants[index]? with
  | none => rfl
  | some value =>
    cases value with
    | compiled id body =>
      obtain ⟨after, htake, hv⟩ := takeTop_apply machine count
      have hfresh : Run.freshId after = (.ok machine.view.nextId,
          { after with nextId := machine.view.nextId + 1 }) := by
        rw [show machine.view.nextId = after.nextId from congrArg Snapshot.nextId hv.symm]
        rfl
      dsimp only
      rw [Attempt.bind_of_ok htake, Attempt.bind_of_ok hfresh, workTurn_push, ← hv]
      rfl
    | null | int _ | bool _ | str _ | array _ | hash _ | function _ | closure _ _ _
    | builtin _ => rfl

theorem turn_leave (value : Value) :
    turn (Run.leave value machine) = machine.view.leave value := by
  obtain ⟨constants, stack, ⟨frames, depth, maxDepth, he, hl⟩, globals, lastPopped, sink, nextId,
    journal⟩ := machine
  subst he
  unfold Snapshot.leave
  match frames with
  | [] => rfl
  | [frame] => rfl
  | frame :: caller :: rest =>
    let popped : Machine := ⟨constants, stack, ⟨caller :: rest, rest.length + 1, maxDepth, rfl,
      Nat.le_of_succ_le hl⟩, globals, lastPopped, sink, nextId, journal⟩
    obtain ⟨noted, hnote, hv⟩ := view_note popped fun machine =>
      s!"return from {frame.body.displayName} to depth {machine.frames.depth}"
    show turn ((do
      Run.note fun machine =>
        s!"return from {frame.body.displayName} to depth {machine.frames.depth}"
      Run.onStack (ValueStack.resize (frame.base - 1))
      Run.push value
      pure .running : Run Progress) popped) = popped.view.reshape (frame.base - 1) _
    rw [Attempt.bind_of_ok hnote, ← hv]
    rcases resize_apply noted (frame.base - 1) with ⟨after, hresize, hnext⟩ | ⟨hresize, hnext⟩
    · rw [Attempt.bind_of_ok hresize, hnext, ← workTurn_push]
      exact turn_thenGoOn _ after
    · rw [Attempt.bind_of_error hresize, hnext]
      rfl

end

/-- Executing an instruction in the running frame. -/
theorem turn_execute (machine : Machine) (instruction : Instruction) {frame : Frame}
    {rest : List Frame} (h : machine.view.calls = frame :: rest) :
    turn (Run.execute instruction machine) = machine.view.execute frame instruction := by
  obtain ⟨opcode, operands⟩ := instruction
  cases opcode with
  | constant => exact (turn_thenGoOn _ _).trans (workTurn_constant _ _)
  | pop => exact (turn_thenGoOn _ _).trans (workTurn_drop _)
  | pushTrue | pushFalse | pushNull => exact (turn_thenGoOn _ _).trans (workTurn_push _ _)
  | getGlobal => exact (turn_thenGoOn _ _).trans (workTurn_getGlobal _ _)
  | setGlobal => exact (turn_thenGoOn _ _).trans (workTurn_setGlobal _ _)
  | getLocal => exact (turn_thenGoOn _ _).trans (workTurn_getLocal _ h _)
  | setLocal => exact (turn_thenGoOn _ _).trans (workTurn_setLocal _ h _)
  | getBuiltin => exact (turn_thenGoOn _ _).trans (workTurn_getBuiltin _ _)
  | getFree => exact (turn_thenGoOn _ _).trans (workTurn_getCapture _ h _)
  | currentClosure => exact (turn_thenGoOn _ _).trans (workTurn_currentClosure _ h)
  | add | sub | mul | div | mod =>
    exact (turn_thenGoOn _ _).trans (workTurn_binary _ (BinaryOp.calculate_eq_apply _ rfl))
  | equal | notEqual | greaterThan | greaterEqual | lessThan | lessEqual =>
    exact (turn_thenGoOn _ _).trans (workTurn_binary _ (BinaryOp.relate_eq_apply _))
  | minus | bang => exact (turn_thenGoOn _ _).trans (workTurn_unary _ _)
  | jump =>
    obtain ⟨after, hjump, hv⟩ := jump_apply machine (Instruction.operand ⟨.jump, operands⟩ 0)
    refine (turn_thenGoOn _ _).trans ((congrArg workTurn hjump).trans ?_)
    exact congrArg Turn.goes hv
  | jumpNotTruthy => exact (turn_thenGoOn _ _).trans (workTurn_jumpNotTruthy _ _)
  | returnValue =>
    obtain ⟨after, hpop, hv⟩ := pop_apply machine
    refine (congrArg turn (Attempt.bind_of_ok hpop)).trans ((turn_leave after _).trans ?_)
    rw [hv]
    rfl
  | returnNull => exact turn_leave _ _
  | array => exact (turn_thenGoOn _ _).trans (workTurn_buildArray _ _)
  | hash => exact (turn_thenGoOn _ _).trans (workTurn_buildHash _ _)
  | index => exact (turn_thenGoOn _ _).trans (workTurn_index _)
  | call => exact (turn_thenGoOn _ _).trans (workTurn_call _ _)
  | closure => exact (turn_thenGoOn _ _).trans (workTurn_makeClosure _ _ _)

/-- One step of the machine is one step of what it holds. -/
theorem step_eq (machine : Machine) : turn (Run.step machine) = machine.view.step := by
  have hcalls : machine.view.calls = machine.frames.frames := rfl
  unfold Run.step Snapshot.step
  rw [FrameStack.current?, hcalls]
  cases hf : machine.frames.frames with
  | nil => rfl
  | cons frame rest =>
    dsimp only [List.head?_cons]
    cases hd : frame.body.code.decode? frame.ip with
    | none =>
      have hdepth : machine.frames.depth = rest.length + 1 := by
        rw [machine.frames.depth_eq, hf, List.length_cons]
      by_cases hr : rest = []
      · rw [if_pos hr, if_pos (by rw [hdepth, hr]; exact Nat.le_refl _)]
        rfl
      · have hpos := List.length_pos_iff.mpr hr
        rw [if_neg hr, if_neg (by omega)]
        exact turn_leave machine _
    | some result =>
      cases result with
      | error error => rfl
      | ok instruction =>
        obtain ⟨after, hjump, hv⟩ := jump_apply machine (frame.ip + instruction.size)
        have hjumped : after.view = { machine.view with
            calls := { frame with ip := frame.ip + instruction.size } :: rest } := by
          rw [hv, Snapshot.jumped, hcalls, hf]
        dsimp only
        rw [← hjumped]
        refine (congrArg turn (Attempt.bind_of_ok hjump)).trans ?_
        exact turn_execute after instruction (congrArg Snapshot.calls hjumped)

theorem running_of_goes {machine : Machine} {s : Snapshot} (h : machine.view.step = .goes s) :
    ∃ after, Run.step machine = (.ok .running, after) ∧ after.view = s := by
  have hstep := step_eq machine
  rw [h] at hstep
  rcases hr : Run.step machine with ⟨⟨⟩ | ⟨⟨⟩⟩, after⟩ <;> rw [hr] at hstep <;> cases hstep
  exact ⟨after, rfl, rfl⟩

theorem error_of_fails {machine : Machine} {fault : Fault} {s : Snapshot}
    (h : machine.view.step = .fails fault s) :
    ∃ after, Run.step machine = (.error fault, after) ∧ after.view = s := by
  have hstep := step_eq machine
  rw [h] at hstep
  rcases hr : Run.step machine with ⟨⟨⟩ | ⟨⟨⟩⟩, after⟩ <;> rw [hr] at hstep <;> cases hstep
  exact ⟨after, rfl, rfl⟩

end Machine

end Simian
