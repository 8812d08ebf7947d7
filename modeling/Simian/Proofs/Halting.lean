import Simian.Proofs.MachineReuse

/-!
# Every run ends

Code leads forward only, so within a frame every step brings the end of its code nearer.
A call goes forward in its own frame and opens another one, and there are only so many
frames. The run is thus an induction on the frames that may still be opened and, for the
same number of them, on the code that is left: what comes after the return of a call is
covered by the code that is left in the caller.
-/
namespace Simian

/-- The instruction that is next in a running state leads forward. -/
theorem Snapshot.Running.forward {s : Snapshot} (h : s.Running) {frame : Frame}
    {rest : List Frame} {instruction : Instruction} (hcalls : s.calls = frame :: rest)
    (hat : frame.body.code.Holds frame.ip instruction) : instruction.Forward frame.ip := by
  have hstacked := h.stacked
  rw [hcalls] at hstacked
  obtain ⟨depth, _, hactive, _⟩ := hstacked.top
  exact hactive.trusted.forward _ _ hactive.boundary hat

namespace Machine

/-- The second machine goes on to the first one in a step. -/
def Next (after machine : Machine) : Prop := Run.step machine = (.ok .running, after)

variable {machine after : Machine} {limit : Nat}

theorem Next.view (h : Next after machine) : machine.view.step = .goes after.view := by
  rw [← step_eq, h]
  rfl

theorem Next.callLimit_eq (h : Next after machine) :
    after.view.callLimit = machine.view.callLimit := by
  have hequips := machine.view.equips_step
  rw [h.view] at hequips
  exact hequips.callLimit

theorem length_calls_le (machine : Machine) :
    machine.view.calls.length ≤ machine.view.callLimit := by
  have hle := machine.frames.depth_le
  rw [machine.frames.depth_eq] at hle
  exact hle

/-- The running state is between two steps of a run that ends. -/
def Halting (machine : Machine) : Prop := Acc Next machine

/-- The runs from all running states with these frames end. -/
def HaltsFrom (limit : Nat) (calls : List Frame) : Prop := ∀ machine : Machine,
  machine.view.Running → machine.view.callLimit = limit → machine.view.calls = calls →
    machine.Halting

/-- A running frame is left in the end, if the frames below it are. The induction is on the frames
that are still free and then on the code that is left. -/
theorem haltsFrom_cons (free : Nat) (rest : List Frame) (hfree : limit - (rest.length + 1) = free)
    (hrest : HaltsFrom limit rest) (frame : Frame) : HaltsFrom limit (frame :: rest) := by
  induction free using Nat.strongRecOn generalizing rest frame with
  | _ free ihFree =>
  generalize hleft : frame.body.code.size - frame.ip = left
  induction left using Nat.strongRecOn generalizing frame with
  | _ left ihLeft =>
  intro machine hrunning hlimit hcalls
  refine .intro _ fun after hnext => ?_
  have hafter : after.view.Running := (hrunning.goes hnext.view).1
  have hlimit' : after.view.callLimit = limit := hnext.callLimit_eq.trans hlimit
  obtain ⟨frame', rest', instruction, hp, hmoves⟩ := hrunning.moves hnext.view
  have hsame := hp.calls
  rw [hcalls] at hsame
  cases hsame
  have hlt := hp.holds.lt_size
  have hforward := hrunning.forward hcalls hp.holds
  cases hmoves with
  | runs next hsuccessor hcalls' _ _ =>
    have hgt := hforward next hsuccessor
    exact ihLeft _ (by dsimp only; omega) { frame with ip := next } rfl after hafter hlimit' hcalls'
  | enters id body captured ho _ hcalls' _ _ =>
    -- The caller goes on where the callee returns, with less code left.
    have hcaller : HaltsFrom limit ({ frame with ip := frame.ip + instruction.size } :: rest) := by
      have hpos := instruction.size_pos
      exact ihLeft _ (by dsimp only; omega) { frame with ip := frame.ip + instruction.size } rfl
    have hle := after.length_calls_le
    rw [hcalls', hlimit', List.length_cons, List.length_cons] at hle
    exact ihFree _ (by rw [List.length_cons]; omega) _ rfl hcaller _ after hafter hlimit' hcalls'
  | leaves value caller others _ hothers hcalls' _ =>
    exact hrest after hafter hlimit' hcalls'

theorem haltsFrom (limit : Nat) (calls : List Frame) : HaltsFrom limit calls := by
  induction calls with
  | nil =>
    intro machine hrunning _ hcalls
    have hstacked := hrunning.stacked
    rw [hcalls] at hstacked
    exact hstacked.ne_nil.elim
  | cons frame rest ih => exact haltsFrom_cons _ rest rfl ih frame

theorem halting_of_running (h : machine.view.Running) : machine.Halting :=
  haltsFrom _ _ machine h rfl rfl

/-- From some number of steps on the run has ended, and more steps make no difference. -/
theorem Halting.exists_steps (h : machine.Halting) : ∃ steps, ∀ more, steps ≤ more →
    runSteps more machine = runSteps steps machine ∧ (runSteps more machine).1 ≠ .unfinished := by
  induction h with
  | intro machine _ ih =>
  cases hr : Run.step machine with
  | mk result after =>
  have hsucc : ∀ {more : Nat}, 1 ≤ more → ∃ fewer, more = fewer + 1 := fun hm =>
    ⟨_, (Nat.sub_add_cancel hm).symm⟩
  cases result with
  | ok status =>
    cases status with
    | running =>
      obtain ⟨steps, hsteps⟩ := ih after hr
      refine ⟨steps + 1, fun more hm => ?_⟩
      obtain ⟨fewer, rfl⟩ := hsucc (Nat.le_trans (Nat.le_add_left _ _) hm)
      rw [runSteps, runSteps, hr]
      exact hsteps fewer (Nat.le_of_succ_le_succ hm)
    | finished =>
      refine ⟨1, fun more hm => ?_⟩
      obtain ⟨fewer, rfl⟩ := hsucc hm
      rw [runSteps, runSteps, hr]
      exact ⟨rfl, Ending.noConfusion⟩
  | error fault =>
    refine ⟨1, fun more hm => ?_⟩
    obtain ⟨fewer, rfl⟩ := hsucc hm
    rw [runSteps, runSteps, hr]
    exact ⟨rfl, Ending.noConfusion⟩

end Machine

/-- All runs of the unit on the machine end, because no stream of the unit jumps back. -/
structure Bytecode.Halts (unit : Bytecode) (machine : Machine) : Prop where
  /-- With enough steps the run ends without running out of them, and always in the same way. -/
  ends : ∃ steps, ∀ more, steps ≤ more →
    machine.runWithin more unit = machine.runWithin steps unit ∧
      (machine.runWithin more unit).1 ≠ .unfinished
  /-- Jumps go forward, at most to the end of their stream. -/
  jumps : ∀ code locals, unit.HasStream code locals → ∀ offset instruction,
    code.Boundary offset → code.Holds offset instruction →
    instruction.opcode = .jump ∨ instruction.opcode = .jumpNotTruthy →
    offset < instruction.operand 0 ∧ instruction.operand 0 ≤ code.size

theorem Instruction.operand_mem_successors {instruction : Instruction}
    (h : instruction.opcode = .jump ∨ instruction.opcode = .jumpNotTruthy) (offset : Nat) :
    instruction.operand 0 ∈ instruction.successors offset := by
  unfold successors
  rcases h with h | h <;> rw [h]
  · exact List.mem_singleton_self _
  · exact List.mem_cons_of_mem _ (List.mem_singleton_self _)

theorem Bytecode.CompiledAfter.exists_steps {unit : Bytecode} {pool : Array Value}
    (h : unit.CompiledAfter pool) {machine : Machine} (hg : machine.globals.Sound pool) :
    ∃ steps, ∀ more, steps ≤ more →
      machine.runWithin more unit = machine.runWithin steps unit ∧
        (machine.runWithin more unit).1 ≠ .unfinished := by
  have hload := machine.load_view unit
  unfold Machine.runWithin
  generalize Machine.load unit machine = start at hload
  obtain ⟨result, loaded⟩ := start
  cases result with
  | error fault => exact ⟨0, fun more _ => ⟨rfl, nofun⟩⟩
  | ok _ =>
    dsimp only at hload ⊢
    generalize hj : ({ loaded with
      journal := loaded.journal.note .debug fun _ =>
        s!"run {unit.code.size} bytes, {unit.constants.size} constants" } : Machine) = begun
    have hview : begun.view = machine.view.loaded unit := by
      rw [← hload, ← hj]
      rfl
    have hrunning : begun.view.Running := hview ▸ h.running (s := machine.view) hg
    obtain ⟨steps, hsteps⟩ := (Machine.halting_of_running hrunning).exists_steps
    refine ⟨steps, fun more hm => ?_⟩
    obtain ⟨heq, hne⟩ := hsteps more hm
    rw [heq] at hne ⊢
    refine ⟨rfl, ?_⟩
    generalize Machine.runSteps steps begun = outcome at hne
    obtain ⟨ending, last⟩ := outcome
    cases ending with
    | unfinished => exact absurd rfl hne
    | finished => exact nofun
    | faulted fault => exact nofun

theorem Bytecode.CompiledAfter.halts {unit : Bytecode} {pool : Array Value}
    (h : unit.CompiledAfter pool) {machine : Machine} (hg : machine.globals.Sound pool) :
    unit.Halts machine where
  ends := h.exists_steps hg
  jumps := fun code locals hs offset instruction hb hat ho => by
    obtain ⟨captures, inFunction, htrusted, htiled⟩ := h.trusted hs
    refine ⟨htrusted.forward offset instruction hb hat _
      (Instruction.operand_mem_successors ho offset), ?_⟩
    exact ((htrusted.wellFormed htiled).jumps offset instruction hb hat ho).le_size

/-- Every unit that a compiler makes of the programs that it is given in turn halts, however high
the stack and however many calls the machine has room for, and whatever it has run before. -/
theorem Compiler.halts_of_compileAll {maxDepth stackSize maxFrames : Nat} {trees : List Program}
    {journal : Journal} {earlier later : List Bytecode} {unit : Bytecode} {machine : Machine}
    (hunits : (create maxDepth).compileAll trees = earlier ++ unit :: later)
    (hmachine : (Machine.create ⟨stackSize, maxFrames, Globals.defaultCapacity⟩ journal).Follows
      earlier machine) : unit.Halts machine := by
  have hsuccessive := (ready_create maxDepth).successive trees
  rw [hunits] at hsuccessive
  obtain ⟨pool, hunit, hg⟩ := hmachine.sound hsuccessive (Globals.sound_empty _)
  exact hunit.halts hg

/-- A function that calls what it is given is given itself, which only the limit on calls ends:
`let f = fn(g) { g(g) };` and then `f(f)`. -/
theorem Compiler.halts_endless_calls : ∃ first second : Bytecode,
    (create 64).compileAll
      [⟨[.bind "f" (.function (some "f") ["g"] (.mk [.expr (.call (.ident "g" .zero)
          [.ident "g" .zero] .zero) .zero] .zero) .zero) .zero]⟩,
        ⟨[.expr (.call (.ident "f" .zero) [.ident "f" .zero] .zero) .zero]⟩] =
      [first] ++ second :: [] ∧
    second.Halts ((Machine.create ⟨2048, 1024, Globals.defaultCapacity⟩
      (.opened .off)).runWithin 9 first).2 := by
  refine ⟨⟨#[33, 0, 0, 0, 21, 0, 0], #[.compiled 0 ⟨some "f", #[22, 0, 22, 0, 30, 1, 31], 1, 1⟩]⟩,
    ⟨#[20, 0, 0, 20, 0, 0, 30, 1, 1], #[.compiled 0 ⟨some "f", #[22, 0, 22, 0, 30, 1, 31], 1, 1⟩]⟩,
    ?hunits, halts_of_compileAll ?hunits (.run 9 .done)⟩
  cbv

end Simian
