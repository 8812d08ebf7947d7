import Simian.Proofs.Printing
import Simian.Proofs.RunSafety

/-!
# Machines that are used again

A run starts by throwing away what the last one left: constants, stack, frames and the last
value. What stays is the globals, the supply of identities, the journal and the sink. The
journal is never read and the sink is only written to, so a run on a used machine does what
it does on a new one with the same globals. Runs are compared through `Snapshot.runSteps`,
which leaves the journal out.
-/
namespace Simian

/-! ### Runs of snapshots -/

namespace Snapshot

/-- Takes up to this many steps. -/
def runSteps : (steps : Nat) → Snapshot → Ending × Snapshot
  | 0, s => (.unfinished, s)
  | steps + 1, s =>
    match s.step with
    | .goes t => runSteps steps t
    | .ends t => (.finished, t)
    | .fails fault t => (.faulted fault, t)

/-- The snapshot with this text written to the sink before all else. -/
def behind (text : String) (s : Snapshot) : Snapshot := { s with sink := s.sink.behind text }

end Snapshot

def Turn.behind (text : String) : Turn → Turn
  | .goes after => .goes (after.behind text)
  | .ends after => .ends (after.behind text)
  | .fails fault after => .fails fault (after.behind text)

namespace Snapshot

variable (text : String) (s : Snapshot)

/-! ### No step looks at the sink -/

theorem push_behind (value : Value) : (s.behind text).push value = (s.push value).behind text := by
  unfold push
  rw [apply_ite (Turn.behind text)]
  rfl

theorem settle_behind (result : Except OperationError Value) :
    (s.behind text).settle result = (s.settle result).behind text := by
  cases result with
  | ok value => exact push_behind text s value
  | error error => rfl

theorem reshape_behind {size : Nat} {next : Snapshot → Turn}
    (hn : ∀ t : Snapshot, next (t.behind text) = (next t).behind text) :
    (s.behind text).reshape size next = (s.reshape size next).behind text := by
  unfold reshape
  rw [apply_ite (Turn.behind text), ← hn]
  rfl

theorem leave_behind (value : Value) :
    (s.behind text).leave value = (s.leave value).behind text := by
  unfold leave
  rw [show (s.behind text).calls = s.calls from rfl]
  match s.calls with
  | [] => rfl
  | [_] => rfl
  | frame :: caller :: rest =>
    exact reshape_behind text { s with calls := caller :: rest } fun t => push_behind text t value

theorem callClosure_behind (id : Nat) (body : CompiledFunction) (captured : List Value)
    (count : Nat) : (s.behind text).callClosure id body captured count =
      (s.callClosure id body captured count).behind text := by
  unfold callClosure
  rw [apply_ite (Turn.behind text), apply_ite (Turn.behind text)]
  dsimp only
  rw [← reshape_behind text _ fun t => rfl]
  rfl

theorem callBuiltin_behind (builtin : Builtin) (count : Nat) :
    (s.behind text).callBuiltin builtin count = (s.callBuiltin builtin count).behind text := by
  unfold callBuiltin
  rw [show (s.behind text).topValues count = s.topValues count from rfl,
    show (s.behind text).sink = s.sink.behind text from rfl, Builtin.call_behind]
  obtain ⟨result, sink⟩ := builtin.call (s.topValues count) s.sink
  cases result with
  | ok value => exact reshape_behind text { s with sink } fun t => push_behind text t value
  | error error => rfl

theorem call_behind (count : Nat) : (s.behind text).call count = (s.call count).behind text := by
  unfold call
  rw [show (s.behind text).callee count = s.callee count from rfl]
  cases s.callee count with
  | closure id body captured => exact callClosure_behind text s id body captured count
  | builtin builtin => exact callBuiltin_behind text s builtin count
  | _ => rfl

theorem makeClosure_behind (index count : Nat) :
    (s.behind text).makeClosure index count = (s.makeClosure index count).behind text := by
  unfold makeClosure
  rw [show (s.behind text).constants = s.constants from rfl]
  split
  · exact push_behind text { s.without count with nextId := s.nextId + 1 } _
  · rfl
  · rfl

theorem jumped_behind (ip : Nat) : (s.behind text).jumped ip = (s.jumped ip).behind text := by
  unfold jumped
  rw [show (s.behind text).calls = s.calls from rfl]
  cases s.calls <;> rfl

theorem execute_behind (frame : Frame) (instruction : Instruction) :
    (s.behind text).execute frame instruction = (s.execute frame instruction).behind text := by
  unfold execute
  cases instruction.opcode with
  | pushTrue | pushFalse | pushNull | getLocal | currentClosure => exact push_behind text s _
  | constant =>
    dsimp only
    rw [show (s.behind text).constants = s.constants from rfl]
    split
    · exact push_behind text s _
    · rfl
  | getBuiltin =>
    dsimp only
    split
    · exact push_behind text s _
    · rfl
  | getFree =>
    dsimp only
    split
    · exact push_behind text s _
    · rfl
  | getGlobal =>
    dsimp only
    rw [show (s.behind text).globals = s.globals from rfl]
    split
    · exact push_behind text s _
    · rfl
  | setGlobal =>
    dsimp only
    rw [show (s.behind text).globals = s.globals from rfl,
      show (s.behind text).top = s.top from rfl]
    split <;> rfl
  | setLocal =>
    dsimp only
    rw [apply_ite (Turn.behind text)]
    rfl
  | add | sub | mul | div | mod | equal | notEqual | greaterThan | greaterEqual | lessThan
  | lessEqual | index => exact settle_behind text s.dropped.dropped _
  | minus | bang => exact settle_behind text s.dropped _
  | pop => rfl
  | jump => exact congrArg Turn.goes (jumped_behind text s _)
  | jumpNotTruthy =>
    dsimp only [Turn.behind]
    rw [apply_ite (Snapshot.behind text), ← jumped_behind]
    rfl
  | returnValue => exact leave_behind text s.dropped _
  | returnNull => exact leave_behind text s _
  | array => exact push_behind text (s.without _) _
  | hash => exact settle_behind text (s.without _) _
  | call => exact call_behind text s _
  | closure => exact makeClosure_behind text s _ _

theorem step_behind : (s.behind text).step = s.step.behind text := by
  unfold step
  rw [show (s.behind text).calls = s.calls from rfl]
  cases s.calls with
  | nil => rfl
  | cons frame rest =>
    dsimp only
    split
    · rw [apply_ite (Turn.behind text), leave_behind]
      rfl
    · rfl
    · exact execute_behind text { s with calls := _ :: rest } _ _

theorem runSteps_behind (steps : Nat) : (s.behind text).runSteps steps =
    ((s.runSteps steps).1, (s.runSteps steps).2.behind text) := by
  induction steps generalizing s with
  | zero => rfl
  | succ steps ih =>
    rw [runSteps, runSteps, step_behind]
    cases s.step with
    | goes after => exact ih after
    | ends after => rfl
    | fails fault after => rfl

end Snapshot

/-! ### No step changes what a machine has room for -/

/-- What there is when the step has ended, however it ended. -/
def Turn.after : Turn → Snapshot
  | .goes after | .ends after | .fails _ after => after

namespace Snapshot

/-- The second snapshot has the room of the first one, and a sink that takes as much. -/
structure Equips (s t : Snapshot) : Prop where
  room : t.room = s.room
  callLimit : t.callLimit = s.callLimit
  fault : t.sink.fault = s.sink.fault

theorem Equips.trans {s t u : Snapshot} (h : s.Equips t) (k : t.Equips u) : s.Equips u :=
  ⟨k.room.trans h.room, k.callLimit.trans h.callLimit, k.fault.trans h.fault⟩

theorem Equips.refl (s : Snapshot) : s.Equips s := ⟨rfl, rfl, rfl⟩

variable (s : Snapshot)

theorem equips_push (value : Value) : s.Equips (s.push value).after := by
  unfold push
  split <;> exact ⟨rfl, rfl, rfl⟩

theorem equips_settle (result : Except OperationError Value) :
    s.Equips (s.settle result).after := by
  cases result with
  | ok value => exact equips_push s value
  | error error => exact .refl s

theorem equips_reshape (size : Nat) {next : Snapshot → Turn}
    (hn : ∀ t : Snapshot, t.Equips (next t).after) : s.Equips (s.reshape size next).after := by
  unfold reshape
  split
  · exact .trans (t := s.resized size) ⟨rfl, rfl, rfl⟩ (hn _)
  · exact .refl s

theorem equips_leave (value : Value) : s.Equips (s.leave value).after := by
  unfold leave
  split
  · exact .refl s
  · exact ⟨rfl, rfl, rfl⟩
  next caller rest _ =>
    exact .trans (t := { s with calls := caller :: rest }) ⟨rfl, rfl, rfl⟩
      (equips_reshape _ _ fun t => equips_push t value)

theorem equips_callClosure (id : Nat) (body : CompiledFunction) (captured : List Value)
    (count : Nat) : s.Equips (s.callClosure id body captured count).after := by
  unfold callClosure
  split
  · exact .refl s
  split
  · exact .trans (t := { s with calls := _ :: s.calls }) ⟨rfl, rfl, rfl⟩
      (equips_reshape _ _ fun t => .refl t)
  · exact .refl s

end Snapshot

theorem Sink.fault_putLines (sink : Sink) (values : List Value) :
    (sink.putLines values).2.fault = sink.fault := by
  induction values generalizing sink with
  | nil => rfl
  | cons value rest ih =>
    rw [putLines]
    split
    · rfl
    · exact ih _

theorem Builtin.fault_call (builtin : Builtin) (arguments : List Value) (sink : Sink) :
    (builtin.call arguments sink).2.fault = sink.fault := by
  cases builtin with
  | puts =>
    have hfault := sink.fault_putLines arguments
    unfold Builtin.call
    dsimp only
    generalize sink.putLines arguments = outcome at hfault
    obtain ⟨result, after⟩ := outcome
    cases result <;> exact hfault
  | _ => rfl

namespace Snapshot

variable (s : Snapshot)

theorem equips_callBuiltin (builtin : Builtin) (count : Nat) :
    s.Equips (s.callBuiltin builtin count).after := by
  have hfault := builtin.fault_call (s.topValues count) s.sink
  unfold callBuiltin
  generalize builtin.call (s.topValues count) s.sink = outcome at hfault
  obtain ⟨result, sink⟩ := outcome
  cases result with
  | ok value =>
    exact .trans (t := { s with sink }) ⟨rfl, rfl, hfault⟩
      (equips_reshape _ _ fun t => equips_push t value)
  | error error => exact ⟨rfl, rfl, hfault⟩

theorem equips_call (count : Nat) : s.Equips (s.call count).after := by
  unfold call
  split
  · exact equips_callClosure s _ _ _ count
  · exact equips_callBuiltin s _ count
  · exact .refl s

theorem equips_makeClosure (index count : Nat) : s.Equips (s.makeClosure index count).after := by
  unfold makeClosure
  split
  · exact .trans (t := { s.without count with nextId := s.nextId + 1 }) ⟨rfl, rfl, rfl⟩
      (equips_push _ _)
  · exact .refl s
  · exact .refl s

theorem equips_jumped (ip : Nat) : s.Equips (s.jumped ip) := by
  unfold jumped
  split <;> exact ⟨rfl, rfl, rfl⟩

theorem equips_execute (frame : Frame) (instruction : Instruction) :
    s.Equips (s.execute frame instruction).after := by
  unfold execute
  cases instruction.opcode with
  | pushTrue | pushFalse | pushNull | getLocal | currentClosure => exact equips_push s _
  | constant | getBuiltin | getFree | getGlobal =>
    dsimp only
    split
    · exact equips_push s _
    · exact .refl s
  | setGlobal | setLocal =>
    dsimp only
    split <;> exact ⟨rfl, rfl, rfl⟩
  | add | sub | mul | div | mod | equal | notEqual | greaterThan | greaterEqual | lessThan
  | lessEqual | index =>
    exact .trans (t := s.dropped.dropped) ⟨rfl, rfl, rfl⟩ (equips_settle _ _)
  | minus | bang => exact .trans (t := s.dropped) ⟨rfl, rfl, rfl⟩ (equips_settle _ _)
  | pop => exact ⟨rfl, rfl, rfl⟩
  | jump => exact equips_jumped s _
  | jumpNotTruthy =>
    dsimp only [Turn.after]
    split
    · exact ⟨rfl, rfl, rfl⟩
    · exact .trans (t := s.dropped) ⟨rfl, rfl, rfl⟩ (equips_jumped _ _)
  | returnValue => exact .trans (t := s.dropped) ⟨rfl, rfl, rfl⟩ (equips_leave _ _)
  | returnNull => exact equips_leave s _
  | array => exact .trans (t := s.without _) ⟨rfl, rfl, rfl⟩ (equips_push _ _)
  | hash => exact .trans (t := s.without _) ⟨rfl, rfl, rfl⟩ (equips_settle _ _)
  | call => exact equips_call s _
  | closure => exact equips_makeClosure s _ _

theorem equips_step : s.Equips s.step.after := by
  unfold step
  split
  · exact .refl s
  split
  · split
    · exact .refl s
    · exact equips_leave s _
  · exact .refl s
  · exact .trans (t := { s with calls := _ :: _ }) ⟨rfl, rfl, rfl⟩ (equips_execute _ _ _)

theorem equips_runSteps (steps : Nat) : s.Equips (s.runSteps steps).2 := by
  induction steps generalizing s with
  | zero => exact .refl s
  | succ steps ih =>
    have hstep := equips_step s
    rw [runSteps]
    generalize s.step = turn at hstep
    cases turn with
    | goes after => exact hstep.trans (ih after)
    | ends after => exact hstep
    | fails fault after => exact hstep

end Snapshot

/-! ### Runs of machines -/

namespace Machine

theorem runSteps_eq (steps : Nat) (machine : Machine) :
    machine.view.runSteps steps =
      ((runSteps steps machine).1, (runSteps steps machine).2.view) := by
  induction steps generalizing machine with
  | zero => rfl
  | succ steps ih =>
    rw [Snapshot.runSteps, runSteps, ← step_eq]
    cases Run.step machine with
    | mk result after =>
      cases result with
      | error fault => rfl
      | ok progress =>
        cases progress with
        | running => exact ih after
        | finished => rfl

end Machine

namespace Snapshot

/-- Runs a unit with a number of steps. Without room for a frame it does not start. -/
def runUnit (steps : Nat) (unit : Bytecode) (s : Snapshot) : Ending × Snapshot :=
  if 0 < s.callLimit then (s.loaded unit).runSteps steps
  else (.faulted .frameOverflow, { s.loaded unit with calls := [] })

/-- What a unit is run with: the room, the globals, the supply of identities and the sink. -/
def supplies (s : Snapshot) : Snapshot :=
  { s with constants := #[], values := [], calls := [], lastPopped := .null }

theorem runUnit_supplies (steps : Nat) (unit : Bytecode) (s : Snapshot) :
    s.supplies.runUnit steps unit = s.runUnit steps unit := rfl

theorem runUnit_behind (text : String) (steps : Nat) (unit : Bytecode) (s : Snapshot) :
    (s.behind text).runUnit steps unit =
      ((s.runUnit steps unit).1, (s.runUnit steps unit).2.behind text) := by
  by_cases hroom : 0 < s.callLimit
  · rw [runUnit, runUnit, if_pos hroom, if_pos (show 0 < (s.behind text).callLimit from hroom)]
    exact runSteps_behind text (s.loaded unit) steps
  · rw [runUnit, runUnit, if_neg hroom, if_neg (show ¬0 < (s.behind text).callLimit from hroom)]
    rfl

theorem equips_runUnit (steps : Nat) (unit : Bytecode) (s : Snapshot) :
    s.Equips (s.runUnit steps unit).2 := by
  unfold runUnit
  split
  · exact .trans (t := s.loaded unit) ⟨rfl, rfl, rfl⟩ (equips_runSteps _ _)
  · exact ⟨rfl, rfl, rfl⟩

end Snapshot

namespace Machine

theorem load_eq (machine : Machine) (unit : Bytecode) : ∃ loaded,
    if 0 < machine.view.callLimit then
      load unit machine = (.ok (), loaded) ∧ loaded.view = machine.view.loaded unit
    else load unit machine = (.error .frameOverflow, loaded) ∧
      loaded.view = { machine.view.loaded unit with calls := [] } := by
  have hload : load unit machine = Run.onFrames (FrameStack.push (mainFrame machine.nextId unit.code))
      { machine with
        constants := unit.constants, stack := machine.stack.clear
        frames := machine.frames.clear, lastPopped := .null, nextId := machine.nextId + 1 } := rfl
  split
  next hroom =>
    obtain ⟨loaded, hpush, hview⟩ := @pushFrame_apply
      { machine with
        constants := unit.constants, stack := machine.stack.clear
        frames := machine.frames.clear, lastPopped := .null, nextId := machine.nextId + 1 }
      (mainFrame machine.nextId unit.code) hroom
    rw [view_cleared] at hview
    exact ⟨loaded, hload.trans hpush, hview⟩
  next hroom =>
    exact ⟨_, hload.trans (pushFrame_apply_full _ hroom), view_cleared machine unit⟩

theorem runWithin_eq (steps : Nat) (machine : Machine) (unit : Bytecode) :
    machine.view.runUnit steps unit =
      ((machine.runWithin steps unit).1, (machine.runWithin steps unit).2.view) := by
  obtain ⟨loaded, hload⟩ := load_eq machine unit
  unfold runWithin Snapshot.runUnit
  split at hload
  next hroom =>
    obtain ⟨hload, hview⟩ := hload
    rw [if_pos hroom, hload, ← hview]
    have hrun := runSteps_eq steps { loaded with
      journal := loaded.journal.note .debug fun _ =>
        s!"run {unit.code.size} bytes, {unit.constants.size} constants" }
    refine Eq.trans (b := Snapshot.runSteps steps loaded.view) rfl (Eq.trans hrun ?_)
    dsimp only
    generalize runSteps steps _ = outcome
    obtain ⟨ending, last⟩ := outcome
    cases ending <;> rfl
  next hroom =>
    obtain ⟨hload, hview⟩ := hload
    rw [if_neg hroom, hload, ← hview]

/-- The second machine comes from the first one by runs of units, of whatever kind and for however
many steps. What the sink has can be taken between them. -/
inductive Ran (machine : Machine) : Machine → Prop where
  | new : Ran machine machine
  | run {used : Machine} (steps : Nat) (unit : Bytecode) : Ran machine used →
    Ran machine (used.runWithin steps unit).2
  | emptied {used : Machine} : Ran machine used → Ran machine { used with sink := .empty }

theorem Ran.equips {machine used : Machine} (h : machine.Ran used)
    (hfault : machine.sink.fault = none) : machine.view.Equips used.view := by
  induction h with
  | new => exact .refl _
  | @run used steps unit _ ih =>
    have hrun := runWithin_eq steps used unit
    have hequips := Snapshot.equips_runUnit steps unit used.view
    rw [hrun] at hequips
    exact ih.trans hequips
  | emptied _ ih => exact ⟨ih.room, ih.callLimit, hfault.symm⟩

/-- The runs come to the same, and what one of them wrote stands behind the text. -/
structure SameRun (text : String) (used fresh : Ending × Machine) : Prop where
  ending : used.1 = fresh.1
  lastPopped : used.2.lastPopped = fresh.2.lastPopped
  top : used.2.stack.top? = fresh.2.stack.top?
  globals : used.2.globals = fresh.2.globals
  output : used.2.sink.written = text ++ fresh.2.sink.written

/-- A machine that has run nothing and was given the globals. New closures get identities that no
older value has, so the supply of them is handed on together with the globals. -/
def given (limits : MachineLimits) (journal : Journal) (globals : Globals) (nextId : Nat) : Machine :=
  { create limits journal with globals, nextId }

theorem top?_eq (machine : Machine) : machine.stack.top? = machine.view.values.getLast? :=
  machine.stack.top?_eq

/-- The two machines are supplied alike, but for what the sink has. -/
theorem Ran.supplies_eq {limits : MachineLimits} {journal : Journal} {used : Machine}
    (h : (create limits journal).Ran used) (journal' : Journal) : used.view.supplies =
      ((given limits journal' used.globals used.nextId).view.behind used.sink.written).supplies := by
  obtain ⟨hroom, hlimit, hfault⟩ := h.equips rfl
  have hsink : used.sink = Sink.empty.behind used.sink.written := by
    cases hs : used.sink with
    | mk written fault =>
      obtain rfl : fault = none := by
        rw [show used.view.sink = used.sink from rfl, hs] at hfault
        exact hfault
      exact congrArg (Sink.mk · none) (String.append_empty ..).symm
  have hsupplies : used.view.supplies = ⟨#[], [], (ValueStack.empty limits.stackSize).capacity, [],
      limits.maxFrames, used.globals, .null, used.sink, used.nextId⟩ := by
    show (⟨#[], [], used.view.room, [], used.view.callLimit, used.globals, .null, used.sink,
      used.nextId⟩ : Snapshot) = _
    rw [hroom, hlimit]
    rfl
  exact hsupplies.trans (congrArg (fun sink => (⟨#[], [],
    (ValueStack.empty limits.stackSize).capacity, [], limits.maxFrames, used.globals, .null, sink,
    used.nextId⟩ : Snapshot)) hsink)

/-- Whatever a machine has run, a unit, also one that no compiler made, runs on it as on a new
machine of the same size that was given its globals. -/
theorem sameRun_of_ran {limits : MachineLimits} {journal : Journal} {used : Machine}
    (h : (create limits journal).Ran used) (journal' : Journal) (steps : Nat) (unit : Bytecode) :
    SameRun used.sink.written (used.runWithin steps unit)
      ((given limits journal' used.globals used.nextId).runWithin steps unit) := by
  have hused := runWithin_eq steps used unit
  rw [← Snapshot.runUnit_supplies, h.supplies_eq journal', Snapshot.runUnit_supplies,
    Snapshot.runUnit_behind, runWithin_eq] at hused
  obtain ⟨hending, hview⟩ := Prod.mk.inj hused
  refine ⟨hending.symm, (congrArg Snapshot.lastPopped hview).symm, ?_,
    (congrArg Snapshot.globals hview).symm, ?_⟩
  · rw [top?_eq, top?_eq, ← hview]
    rfl
  · exact (congrArg (fun s => s.sink.written) hview).symm

/-- A run that faults with two values on the stack, and then one that reads the slot where the
first of them was. -/
theorem sameRun_after_fault :
    let machine := create ⟨4, 2, 1⟩ (.opened .off)
    let used := (machine.runWithin 9 ⟨#[7, 7, 99], #[]⟩).2
    machine.Ran used ∧ SameRun used.sink.written (used.runWithin 9 ⟨#[22, 0, 1], #[]⟩)
      ((given ⟨4, 2, 1⟩ (.opened .off) used.globals used.nextId).runWithin 9
        ⟨#[22, 0, 1], #[]⟩) := by
  intro machine used
  have hran : machine.Ran used := .run 9 _ .new
  exact ⟨hran, sameRun_of_ran hran _ 9 _⟩

end Machine

end Simian
