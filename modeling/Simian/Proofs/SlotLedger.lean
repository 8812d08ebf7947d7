import Mathlib.ModelTheory.Encoding
import Simian.Proofs.DefiniteAssignment
import Simian.Proofs.MachineReuse
import Simian.Proofs.TreeEquality

-- `Mathlib.ModelTheory.Encoding` has the equation by which `cbv` unfolds `Option.join`.

/-!
# What has been written when a slot is read

A ledger is kept beside a run. It has the global slots that were ever written, and for each
call in progress the slots of that call that were parameters or have been written in it.
A slot that has not been written reads as null all the same, so only the ledger tells the
two apart.

One compiler and one machine are given direct programs in turn, and each run may end
anywhere. A local slot is read only when the ledger has it. A global slot may have been
known before the unit, from a `let` that a unit before did not get to. Any other is read
only when the ledger has it, and so is every one where all that was known before has been
written (`ReadsWritten.complete`). A `let` in a block is what breaks this.
-/
namespace Simian

/-- What the frame does next. -/
def Frame.instruction? (frame : Frame) : Option Instruction :=
  match frame.body.code.decode? frame.ip with
  | some (.ok instruction) => some instruction
  | _ => none

namespace Instruction

/-- Global slots that have been written, behind the instruction. -/
def notesGlobal (instruction : Instruction) (written : List Nat) : List Nat :=
  if instruction.opcode = .setGlobal then instruction.operand 0 :: written else written

/-- Slots of the running call that have been written, behind the instruction. -/
def notesLocal (instruction : Instruction) (written : List Nat) : List Nat :=
  if instruction.opcode = .setLocal then instruction.operand 0 :: written else written

end Instruction

/-- Slots that have been written. -/
structure Ledger where
  globals : List Nat
  /-- Those of the calls in progress, the innermost first. -/
  calls : List (List Nat)
  deriving Repr, DecidableEq

/-- The ledger behind a step that made these frames of those. Who enters a function has written its
parameters, and who leaves it takes back what it has written. -/
def Ledger.after (ledger : Ledger) (frames later : List Frame) : Ledger :=
  if frames.length < later.length then
    { ledger with
      calls := List.range (later.head?.elim 0 (·.body.numParameters)) :: ledger.calls }
  else if later.length < frames.length then { ledger with calls := ledger.calls.tail }
  else
    match frames.head?.bind Frame.instruction? with
    | some instruction =>
      ⟨instruction.notesGlobal ledger.globals, ledger.calls.modifyHead instruction.notesLocal⟩
    | none => ledger

/-- The ledger when a run of the unit has taken up to this many steps, with these global slots
written before. -/
def Machine.ledger (machine : Machine) (unit : Bytecode) (written : List Nat) :
    (steps : Nat) → Ledger
  | 0 => ⟨written, [[]]⟩
  | steps + 1 =>
    match machine.runWithin steps unit, machine.runWithin (steps + 1) unit with
    | (.unfinished, state), (.unfinished, later) =>
      (machine.ledger unit written steps).after state.frames.frames later.frames.frames
    | _, _ => machine.ledger unit written steps

/-- What the unit reads has been written: local slots in the same call, and global slots at some
time, but for those that were known before. -/
structure Bytecode.ReadsWritten (unit : Bytecode) (machine : Machine) (written : List Nat)
    (known limit : Nat) : Prop where
  locals : ∀ steps state frame rest slot, machine.runWithin steps unit = (.unfinished, state) →
    state.frames.frames = frame :: rest → frame.instruction? = some ⟨.getLocal, [slot]⟩ →
    ∃ slots others, (machine.ledger unit written steps).calls = slots :: others ∧ slot ∈ slots
  globals : ∀ steps state frame rest slot, machine.runWithin steps unit = (.unfinished, state) →
    state.frames.frames = frame :: rest → frame.instruction? = some ⟨.getGlobal, [slot]⟩ →
    slot ∈ (machine.ledger unit written steps).globals ∨ slot < known
  /-- A run that passes the end of the unit, where its frame is left over, has written all. -/
  passed : ∀ steps last, machine.runWithin steps unit = (.finished, last) →
    last.frames.frames ≠ [] →
    ∀ slot < limit, slot ∈ (machine.ledger unit written steps).globals ∨ slot < known

/-- What a compiler and a machine have come to that were given direct programs in turn, with the
global slots that were written. A program may fail to compile, and a run may end in any way. -/
inductive Compiler.Served : Compiler → Machine → List Nat → Prop where
  | new (maxDepth stackSize maxFrames : Nat) (journal : Journal) :
    Served (.create maxDepth)
      (.create ⟨stackSize, maxFrames, Globals.defaultCapacity⟩ journal) []
  /-- Anything but the globals can be renewed between two runs. -/
  | renewed {compiler : Compiler} {machine other : Machine} {written : List Nat} :
    Served compiler machine written → other.globals = machine.globals →
    Served compiler other written
  | refused {compiler later : Compiler} {machine : Machine} {written : List Nat}
    {tree : Program} {error : CompileError} : Served compiler machine written →
    compiler.compile tree = (.error error, later) → Served later machine written
  | ran {compiler later : Compiler} {machine : Machine} {written : List Nat} {tree : Program}
    {unit : Bytecode} (steps : Nat) : Served compiler machine written → tree.isDirect = true →
    compiler.compile tree = (.ok unit, later) →
    Served later (machine.runWithin steps unit).2 (machine.ledger unit written steps).globals

/-! ### Steps and their ledgers -/

theorem Frame.instruction?_eq_some {frame : Frame} {instruction : Instruction} :
    frame.instruction? = some instruction ↔ frame.body.code.Holds frame.ip instruction := by
  unfold instruction? Code.Holds
  split
  next other hd => rw [hd, Option.some_inj, Option.some_inj, Except.ok.injEq]
  next hne => exact ⟨nofun, fun hd => absurd hd (hne _)⟩

namespace Instruction

variable {instruction : Instruction} {written : List Nat} {filled : Filled} {slot : Nat}

theorem subset_notesGlobal (instruction : Instruction) (written : List Nat) :
    written ⊆ instruction.notesGlobal written := by
  unfold notesGlobal
  split
  · exact List.subset_cons_self _ _
  · exact List.Subset.refl _

theorem subset_notesLocal (instruction : Instruction) (written : List Nat) :
    written ⊆ instruction.notesLocal written := by
  unfold notesLocal
  split
  · exact List.subset_cons_self _ _
  · exact List.Subset.refl _

/-- What has been written behind the instruction is noted, or it had been written before. -/
theorem mem_notesGlobal (h : slot < (instruction.fills filled).globals) :
    slot ∈ instruction.notesGlobal written ∨ slot < filled.globals := by
  unfold fills at h
  unfold notesGlobal
  split at h
  next ho =>
    rw [if_pos ho]
    rcases Filled.lt_upTo h with rfl | hlt
    · exact .inl List.mem_cons_self
    · exact .inr hlt
  · exact .inr h
  · exact .inr h

theorem mem_notesLocal (h : slot < (instruction.fills filled).locals) :
    slot ∈ instruction.notesLocal written ∨ slot < filled.locals := by
  unfold fills at h
  unfold notesLocal
  split at h
  · exact .inr h
  next ho =>
    rw [if_pos ho]
    rcases Filled.lt_upTo h with rfl | hlt
    · exact .inl List.mem_cons_self
    · exact .inr hlt
  · exact .inr h

end Instruction

namespace Ledger

variable {ledger : Ledger} {frame : Frame} {rest : List Frame} {instruction : Instruction}

theorem after_runs (hat : frame.body.code.Holds frame.ip instruction) (next : Nat) :
    ledger.after (frame :: rest) ({ frame with ip := next } :: rest) =
      ⟨instruction.notesGlobal ledger.globals,
        ledger.calls.modifyHead instruction.notesLocal⟩ := by
  simp only [after, List.length_cons, Nat.lt_irrefl, ↓reduceIte, List.head?_cons,
    Option.bind_some, Frame.instruction?_eq_some.mpr hat]

theorem after_enters {entered caller : Frame} :
    ledger.after (frame :: rest) (entered :: caller :: rest) =
      { ledger with calls := List.range entered.body.numParameters :: ledger.calls } :=
  if_pos (Nat.lt_succ_self _)

theorem after_leaves : ledger.after (frame :: rest) rest =
    { ledger with calls := ledger.calls.tail } := by
  unfold after
  rw [List.length_cons, if_neg (Nat.not_lt_of_le (Nat.le_succ _)), if_pos (Nat.lt_succ_self _)]

end Ledger

/-- What has been written stays written. -/
theorem Ledger.globals_subset_after (ledger : Ledger) (frames later : List Frame) :
    ledger.globals ⊆ (ledger.after frames later).globals := by
  unfold after
  split
  · exact List.Subset.refl _
  · split
    · exact List.Subset.refl _
    · split
      · exact Instruction.subset_notesGlobal _ _
      · exact List.Subset.refl _

theorem Machine.subset_ledger (machine : Machine) (unit : Bytecode) (written : List Nat)
    (steps : Nat) : written ⊆ (machine.ledger unit written steps).globals := by
  induction steps with
  | zero => exact List.Subset.refl _
  | succ steps ih =>
    rw [ledger]
    split
    · exact List.Subset.trans ih (Ledger.globals_subset_after _ _ _)
    · exact ih

/-- With everything written that was known before, there is nothing that need not have been. -/
theorem Bytecode.ReadsWritten.complete {unit : Bytecode} {machine : Machine}
    {written : List Nat} {known limit : Nat} (h : unit.ReadsWritten machine written known limit)
    (hw : ∀ slot < known, slot ∈ written) : unit.ReadsWritten machine written 0 limit where
  locals := h.locals
  globals := fun steps state frame rest slot hrun hframes hat => .inl <|
    (h.globals steps state frame rest slot hrun hframes hat).elim id fun hlt =>
      machine.subset_ledger unit written steps (hw slot hlt)
  passed := fun steps last hrun hleft slot hlt => .inl <|
    (h.passed steps last hrun hleft slot hlt).elim id fun hlt =>
      machine.subset_ledger unit written steps (hw slot hlt)

/-- The steps of a run that end it are its last ones. -/
theorem Snapshot.runSteps_succ (s : Snapshot) (steps : Nat) : s.runSteps (steps + 1) =
    match s.runSteps steps with
    | (.unfinished, t) => t.runSteps 1
    | ended => ended := by
  induction steps generalizing s with
  | zero => rfl
  | succ steps ih =>
    rw [runSteps]
    conv_rhs => rw [runSteps]
    cases s.step with
    | goes t => exact ih t
    | ends t => rfl
    | fails fault t => rfl

/-- The first state leads to the second, and the first ledger with it. -/
inductive Snapshot.Logs (s : Snapshot) (ledger : Ledger) : Snapshot → Ledger → Prop where
  | refl : Logs s ledger s ledger
  | step {t u : Snapshot} {later : Ledger} : Logs s ledger t later → t.step = .goes u →
    Logs s ledger u (later.after t.calls u.calls)

/-- What a run has come to that began in the state, and its ledger. -/
def Snapshot.Logged (s : Snapshot) (ledger later : Ledger) : Ending × Snapshot → Prop
  | (.unfinished, t) => s.Logs ledger t later
  | (.finished, last) => ∃ t, s.Logs ledger t later ∧ t.step = .ends last
  | (.faulted fault, last) => ∃ t, s.Logs ledger t later ∧ t.step = .fails fault last

theorem Snapshot.Logs.oneMore {s t : Snapshot} {ledger later : Ledger}
    (h : s.Logs ledger t later) :
    s.Logged ledger
      (match t.runSteps 1 with
        | (.unfinished, u) => later.after t.calls u.calls
        | _ => later) (t.runSteps 1) := by
  rw [runSteps]
  cases hs : t.step with
  | goes u => exact .step h hs
  | ends u => exact ⟨t, h, hs⟩
  | fails fault u => exact ⟨t, h, hs⟩

theorem Machine.runWithin_logged {machine : Machine} (hroom : 0 < machine.view.callLimit)
    (unit : Bytecode) (written : List Nat) (steps : Nat) :
    (machine.view.loaded unit).Logged ⟨written, [[]]⟩ (machine.ledger unit written steps)
      ((machine.runWithin steps unit).1, (machine.runWithin steps unit).2.view) := by
  have hrun : ∀ steps, (machine.view.loaded unit).runSteps steps =
      ((machine.runWithin steps unit).1, (machine.runWithin steps unit).2.view) := fun steps => by
    rw [← runWithin_eq, Snapshot.runUnit, if_pos hroom]
  induction steps with
  | zero =>
    rw [← hrun]
    exact .refl
  | succ steps ih =>
    have hnext := hrun (steps + 1)
    rw [Snapshot.runSteps_succ, hrun steps] at hnext
    rw [ledger]
    generalize machine.runWithin steps unit = earlier at ih hnext ⊢
    generalize machine.runWithin (steps + 1) unit = ended at hnext ⊢
    obtain ⟨ending, state⟩ := earlier
    obtain ⟨ending', last⟩ := ended
    cases ending with
    | unfinished =>
      have hmore := Snapshot.Logs.oneMore ih
      rw [show state.view.runSteps 1 = (ending', last.view) from hnext] at hmore
      cases ending' <;> exact hmore
    | finished =>
      obtain ⟨rfl, hview⟩ := Prod.mk.inj hnext
      exact hview ▸ ih
    | faulted fault =>
      obtain ⟨rfl, hview⟩ := Prod.mk.inj hnext
      exact hview ▸ ih

/-- A run goes on from the loaded unit, the ledger beside it, if there is room for its frame. -/
theorem Machine.runWithin_logs (machine : Machine) (unit : Bytecode) (written : List Nat)
    (steps : Nat) :
    match machine.runWithin steps unit with
    | (.unfinished, state) => (machine.view.loaded unit).Logs ⟨written, [[]]⟩ state.view
        (machine.ledger unit written steps)
    | (.finished, last) => ∃ s, (machine.view.loaded unit).Logs ⟨written, [[]]⟩ s
        (machine.ledger unit written steps) ∧ s.step = .ends last.view
    | (.faulted fault, last) => last.globals = machine.globals ∨
      ∃ s, (machine.view.loaded unit).Logs ⟨written, [[]]⟩ s
        (machine.ledger unit written steps) ∧ s.step = .fails fault last.view := by
  by_cases hroom : 0 < machine.view.callLimit
  · have hlogged := runWithin_logged hroom unit written steps
    generalize machine.runWithin steps unit = ended at hlogged ⊢
    obtain ⟨ending, last⟩ := ended
    cases ending with
    | unfinished => exact hlogged
    | finished => exact hlogged
    | faulted fault => exact .inr hlogged
  · have hrun := runWithin_eq steps machine unit
    rw [Snapshot.runUnit, if_neg hroom] at hrun
    generalize machine.runWithin steps unit = ended at hrun ⊢
    obtain ⟨ending, last⟩ := ended
    obtain ⟨rfl, hview⟩ := Prod.mk.inj hrun
    exact .inl (congrArg Snapshot.globals hview.symm)

/-! ### Frames that the ledger backs -/

/-- A unit among others: its constants, the global slots that were known before it and those that
are known behind it. -/
structure Extent where
  pool : Array Value
  known : Nat
  limit : Nat

namespace Extent

variable {e : Extent} {written more slots : List Nat} {limit count next : Nat}
  {frame : Frame} {rest : List Frame} {instruction : Instruction}

/-- The first so many global slots have been written, but for some that were known before. -/
def Has (e : Extent) (written : List Nat) (count : Nat) : Prop :=
  ∀ slot < count, slot ∈ written ∨ slot < e.known

/-- A call of the function reads no other slots. -/
def Fine (e : Extent) (written : List Nat) (body : CompiledFunction) (_ : Nat) : Prop :=
  ∃ count ≤ e.limit, e.Has written count ∧
    Assigned e.pool body.code count 0 ⟨count, body.numParameters⟩

/-- The frame goes on with slots that have been written. -/
def Backs (e : Extent) (written slots : List Nat) (limit : Nat) (frame : Frame) : Prop :=
  ∃ filled, Assigned e.pool frame.body.code limit frame.ip filled ∧ filled.globals ≤ limit ∧
    e.Has written filled.globals ∧ ∀ slot < filled.locals, slot ∈ slots

/-- Each frame goes on with slots that have been written, those of its own by itself. -/
inductive BacksAll (e : Extent) (written : List Nat) : List Frame → List (List Nat) → Prop where
  | unit {frame : Frame} {slots : List Nat} : frame.captured = [] →
    e.Backs written slots e.limit frame → BacksAll e written [frame] [slots]
  | call {frame caller : Frame} {rest : List Frame} {slots : List Nat} {others : List (List Nat)}
    {limit : Nat} : frame.closure.Closes (e.Fine written) → limit ≤ e.limit →
    e.Backs written slots limit frame → BacksAll e written (caller :: rest) others →
    BacksAll e written (frame :: caller :: rest) (slots :: others)

theorem Has.mono (h : e.Has written count) (hw : written ⊆ more) : e.Has more count :=
  fun slot hlt => (h slot hlt).imp_left fun hm => hw hm

theorem Fine.mono (hw : written ⊆ more) {body : CompiledFunction} {captures : Nat}
    (h : e.Fine written body captures) : e.Fine more body captures := by
  obtain ⟨count, hle, hhas, hassigned⟩ := h
  exact ⟨count, hle, hhas.mono hw, hassigned⟩

theorem closes_mono (hw : written ⊆ more) {value : Value} (h : value.Closes (e.Fine written)) :
    value.Closes (e.Fine more) := h.mono (fun _ _ => Fine.mono hw) value

theorem Backs.mono (h : e.Backs written slots limit frame) (hw : written ⊆ more) :
    e.Backs more slots limit frame := by
  obtain ⟨filled, hassigned, hle, hhas, hslots⟩ := h
  exact ⟨filled, hassigned, hle, hhas.mono hw, hslots⟩

theorem BacksAll.mono {frames : List Frame} {calls : List (List Nat)}
    (h : e.BacksAll written frames calls) (hw : written ⊆ more) : e.BacksAll more frames calls := by
  induction h with
  | unit hnone hb => exact .unit hnone (hb.mono hw)
  | call hcloses hle hb _ ih => exact .call (closes_mono hw hcloses) hle (hb.mono hw) ih

/-- What is known of the running frame. -/
theorem BacksAll.top {calls : List (List Nat)} (h : e.BacksAll written (frame :: rest) calls) :
    (rest ≠ [] → frame.closure.Closes (e.Fine written)) ∧
    (∀ value ∈ frame.captured, value.Closes (e.Fine written)) ∧
    ∃ slots others limit, calls = slots :: others ∧ limit ≤ e.limit ∧
      (rest = [] → limit = e.limit) ∧ e.Backs written slots limit frame := by
  cases h with
  | unit hnone hb =>
    refine ⟨fun hr => absurd rfl hr, ?_, _, _, _, rfl, Nat.le_refl _, fun _ => rfl, hb⟩
    rw [hnone]
    nofun
  | call hcloses hle hb _ =>
    exact ⟨fun _ => hcloses, Value.allClose_iff.mp hcloses.2, _, _, _, rfl, hle, nofun, hb⟩

/-- The running frame goes on. -/
theorem BacksAll.goesOn {others : List (List Nat)} {noted : List Nat}
    (h : e.BacksAll written (frame :: rest) (slots :: others)) (hw : written ⊆ more)
    (hb : ∀ limit, e.Backs written slots limit frame →
      e.Backs more noted limit { frame with ip := next }) :
    e.BacksAll more ({ frame with ip := next } :: rest) (noted :: others) := by
  cases h with
  | unit hnone hat => exact .unit hnone (hb _ hat)
  | call hcloses hle hat hrest =>
    exact .call (closes_mono hw hcloses) hle (hb _ hat) (hrest.mono hw)

/-- Behind an instruction what it has written is noted too. -/
theorem Backs.goesOn (h : e.Backs written slots limit frame)
    (hat : frame.body.code.Holds frame.ip instruction)
    (hn : next ∈ instruction.successors frame.ip) :
    e.Backs (instruction.notesGlobal written) (instruction.notesLocal slots) limit
      { frame with ip := next } := by
  obtain ⟨filled, hassigned, hle, hhas, hslots⟩ := h
  obtain ⟨_, hset, _, hnext⟩ := hassigned.at_holds hat
  refine ⟨instruction.fills filled, hnext next hn, Instruction.globals_fills_le hset hle,
    fun slot hlt => ?_, fun slot hlt => ?_⟩
  · rcases Instruction.mem_notesGlobal hlt with hm | hlt
    · exact .inl hm
    · exact hhas.mono (Instruction.subset_notesGlobal _ _) slot hlt
  · exact (Instruction.mem_notesLocal hlt).elim id fun hlt =>
      Instruction.subset_notesLocal _ _ (hslots slot hlt)

/-- A function that is entered has its parameters. -/
theorem Fine.backs {body : CompiledFunction} {captures : Nat}
    (h : e.Fine written body captures) (id : Nat) (captured : List Value) (base : Nat) :
    ∃ limit ≤ e.limit,
      e.Backs written (List.range body.numParameters) limit ⟨id, body, captured, 0, base⟩ := by
  obtain ⟨count, hle, hhas, hassigned⟩ := h
  exact ⟨count, hle, _, hassigned, Nat.le_refl _, hhas, fun slot hlt => List.mem_range.mpr hlt⟩

/-! ### Running states and their ledgers -/

/-- The state is that of a run whose ledger this is. -/
structure Keeps (e : Extent) (s : Snapshot) (ledger : Ledger) : Prop where
  running : s.Running
  constants : s.constants = e.pool
  calls : e.BacksAll ledger.globals s.calls ledger.calls
  values : ∀ value ∈ s.values, value.Closes (e.Fine ledger.globals)
  globals : s.globals.Close (e.Fine ledger.globals)

variable {s t : Snapshot} {ledger : Ledger}

/-- A closure that an instruction makes reads only what has been written by then. -/
theorem Keeps.poised (h : e.Keeps s ledger)
    (hp : s.Poised (Verified s.constants) frame rest instruction) :
    s.Poised (e.Fine ledger.globals) frame rest instruction := by
  have hcalls := h.calls
  rw [hp.calls] at hcalls
  obtain ⟨hown, hcaptured, slots, others, limit, _, hle, _, hbacks⟩ := hcalls.top
  obtain ⟨filled, hassigned, hless, hhas, _⟩ := hbacks
  refine { hp with
    makes := fun id body ho hconstant => ?_, own := hown, captured := hcaptured
    values := h.values, globals := h.globals }
  rw [h.constants] at hconstant
  exact ⟨filled.globals, Nat.le_trans hless hle, hhas,
    (hassigned.at_holds hp.holds).2.2.1 id body ho hconstant⟩

/-- A step that goes on keeps the ledger right. -/
theorem Keeps.goes (h : e.Keeps s ledger) (hs : s.step = .goes t) :
    e.Keeps t (ledger.after s.calls t.calls) := by
  obtain ⟨hrunning, hconstants⟩ := h.running.goes hs
  obtain ⟨frame, rest, instruction, hp, _⟩ := h.running.moves hs
  have hpermitted := (h.poised hp).permitted
  rw [hs] at hpermitted
  cases hpermitted with | goes hmoves _ hvalues hglobals => ?_
  have hcalls := h.calls
  rw [hp.calls] at hcalls
  obtain ⟨_, _, slots, others, _, hledger, _⟩ := hcalls.top
  rw [hledger] at hcalls
  have hsub := Instruction.subset_notesGlobal instruction ledger.globals
  have hbehind : ∀ next ∈ instruction.successors frame.ip, e.BacksAll
      (instruction.notesGlobal ledger.globals) ({ frame with ip := next } :: rest)
      (instruction.notesLocal slots :: others) := fun next hn =>
    hcalls.goesOn hsub fun _ hb => hb.goesOn hp.holds hn
  cases hmoves with
  | runs next hnext hlater _ _ =>
    rw [hp.calls, hlater, Ledger.after_runs hp.holds, hledger]
    exact ⟨hrunning, hconstants.trans h.constants, hlater ▸ hbehind next hnext,
      fun value hv => closes_mono hsub (hvalues value hv),
      ⟨hglobals.capacity_eq, fun value hv => closes_mono hsub (hglobals.slots value hv)⟩⟩
  | enters id body captured ho hcloses hlater _ _ =>
    have hglobal : instruction.notesGlobal ledger.globals = ledger.globals :=
      if_neg (by rw [ho]; nofun)
    have hlocal : instruction.notesLocal slots = slots := if_neg (by rw [ho]; nofun)
    have hcaller := hbehind (frame.ip + instruction.size) (by
      rw [Instruction.successors, ho]
      exact List.mem_singleton_self _)
    rw [hglobal, hlocal] at hcaller
    obtain ⟨limit, hle, hbacks⟩ := Fine.backs hcloses.1 id captured
      (s.values.length - instruction.operand 0)
    rw [hp.calls, hlater, Ledger.after_enters, hledger]
    exact ⟨hrunning, hconstants.trans h.constants, hlater ▸ .call hcloses hle hbacks hcaller,
      hvalues, hglobals⟩
  | leaves value caller callers _ hrest hlater _ =>
    subst hrest
    rw [hp.calls, hlater, Ledger.after_leaves, hledger]
    refine ⟨hrunning, hconstants.trans h.constants, hlater ▸ ?_, hvalues, hglobals⟩
    cases hcalls with
    | call _ _ _ hcallers => exact hcallers

theorem Keeps.logs {later : Ledger} (h : e.Keeps s ledger) (hl : s.Logs ledger t later) :
    e.Keeps t later := by
  induction hl with
  | refl => exact h
  | step _ hs ih => exact ih.goes hs

/-- What a state reads has been written. -/
theorem Keeps.reads (h : e.Keeps s ledger) (hcalls : s.calls = frame :: rest)
    (hat : frame.body.code.Holds frame.ip instruction) :
    (instruction.opcode = .getLocal →
      ∃ slots others, ledger.calls = slots :: others ∧ instruction.operand 0 ∈ slots) ∧
    (instruction.opcode = .getGlobal →
      instruction.operand 0 ∈ ledger.globals ∨ instruction.operand 0 < e.known) := by
  have hbacked := h.calls
  rw [hcalls] at hbacked
  obtain ⟨_, _, slots, others, limit, hledger, _, _, filled, hassigned, _, hhas, hslots⟩ :=
    hbacked.top
  have hreads := (hassigned.at_holds hat).1
  unfold Instruction.ReadsWithin at hreads
  refine ⟨fun ho => ?_, fun ho => ?_⟩
  · rw [ho] at hreads
    exact ⟨slots, others, hledger, hslots _ hreads⟩
  · rw [ho] at hreads
    exact hhas _ hreads

/-- Whoever passes the end of the unit has written all that are known behind it. -/
theorem Keeps.passed (h : e.Keeps s ledger) (hs : s.step = .ends t) (ht : t.calls ≠ []) :
    e.Has ledger.globals e.limit := by
  obtain ⟨frame, rest, hcalls, ⟨instruction, hp⟩ | ⟨hend, hrest, _⟩⟩ := h.running.poised
  · have hpermitted := hp.permitted
    rw [hs] at hpermitted
    cases hpermitted with | ends _ _ hnone _ => exact absurd hnone ht
  · have hbacked := h.calls
    rw [hcalls] at hbacked
    obtain ⟨_, _, _, _, limit, _, _, hlimit, filled, hassigned, _, hhas, _⟩ := hbacked.top
    rw [hlimit hrest, hend] at hassigned
    exact fun slot hlt => hhas slot (Nat.lt_of_lt_of_le hlt hassigned.le_of_done)

end Extent

/-! ### Units in turn -/

/-- Calls of the function read global slots below the count only. -/
def CompiledFunction.ReadsBelow (pool : Array Value) (count : Nat) (body : CompiledFunction)
    (_ : Nat) : Prop :=
  ∃ globals ≤ count, Assigned pool body.code globals 0 ⟨globals, body.numParameters⟩

/-- What holds of a compiler and a machine between units. The functions that the machine holds know
no more globals than the compiler does. -/
structure Compiler.Fits (compiler : Compiler) (machine : Machine) : Prop where
  ready : compiler.Ready
  sound : machine.globals.Sound compiler.constants
  close : machine.globals.Close
    (CompiledFunction.ReadsBelow compiler.constants compiler.symbols.inner.slots)

section
variable {compiler later : Compiler} {machine : Machine} {tree : Program} {unit : Bytecode}
  {written : List Nat}

theorem CompiledFunction.ReadsBelow.mono {pool wider : Array Value} {count more captures : Nat}
    {body : CompiledFunction} (hp : Pool.Extends pool wider) (hle : count ≤ more)
    (h : body.ReadsBelow pool count captures) : body.ReadsBelow wider more captures := by
  obtain ⟨globals, hless, hassigned⟩ := h
  exact ⟨globals, Nat.le_trans hless hle, hassigned.mono hp⟩

theorem Globals.Close.imp {fine also : CompiledFunction → Nat → Prop} {globals : Globals}
    (h : globals.Close fine) (himp : ∀ body captures, fine body captures → also body captures) :
    globals.Close also :=
  ⟨h.capacity_eq, fun value hv => (h.slots value hv).mono himp value⟩

theorem Compiler.Fits.keeps (h : compiler.Fits machine) (hd : tree.isDirect = true)
    (hc : compiler.compile tree = (.ok unit, later)) (written : List Nat) :
    Extent.Keeps ⟨unit.constants, compiler.symbols.inner.slots, later.symbols.inner.slots⟩
      (machine.view.loaded unit) ⟨written, [[]]⟩ := by
  have hyields := h.ready.yields hc
  obtain ⟨hmore, hassigned⟩ := h.ready.assigned hyields hd
  have hafter : unit.CompiledAfter compiler.constants := ⟨compiler, later, tree, h.ready, rfl, hc⟩
  refine ⟨hafter.running h.sound, rfl, .unit rfl ⟨_, hassigned, hmore, fun _ => .inr, nofun⟩,
    nofun, h.close.imp fun body _ hbelow => ?_⟩
  obtain ⟨count, hle, hbody⟩ := hbelow.mono hyields.pool (Nat.le_refl _)
  exact ⟨count, Nat.le_trans hle hmore, fun slot hlt => .inr (Nat.lt_of_lt_of_le hlt hle), hbody⟩

/-- Whatever becomes of the run, the functions that are left know the globals of the unit. -/
theorem Compiler.Fits.ran (h : compiler.Fits machine) (hd : tree.isDirect = true)
    (hc : compiler.compile tree = (.ok unit, later)) (steps : Nat) :
    later.Fits (machine.runWithin steps unit).2 := by
  have hyields := h.ready.yields hc
  obtain ⟨hmore, _⟩ := h.ready.assigned hyields hd
  have hafter : unit.CompiledAfter compiler.constants := ⟨compiler, later, tree, h.ready, rfl, hc⟩
  refine ⟨hyields.ready, hyields.constants_eq ▸ hafter.globals h.sound steps, ?_⟩
  rw [← hyields.constants_eq]
  have hkept : ∀ {s : Snapshot} {ledger : Ledger},
      (machine.view.loaded unit).Logs ⟨[], [[]]⟩ s ledger → s.Running ∧ s.globals.Close
        (CompiledFunction.ReadsBelow unit.constants later.symbols.inner.slots) := fun hl => by
    have hkeeps := (h.keeps hd hc []).logs hl
    refine ⟨hkeeps.running, hkeeps.globals.imp fun body _ hfine => ?_⟩
    obtain ⟨count, hle, _, hbody⟩ := hfine
    exact ⟨count, hle, hbody⟩
  have hlogs := machine.runWithin_logs unit [] steps
  generalize machine.runWithin steps unit = ended at hlogs ⊢
  obtain ⟨ending, last⟩ := ended
  show last.view.globals.Close _
  cases ending with
  | unfinished => exact (hkept hlogs).2
  | finished =>
    obtain ⟨s, hl, hs⟩ := hlogs
    obtain ⟨hrunning, hclose⟩ := hkept hl
    rwa [hrunning.ends hs]
  | faulted fault =>
    rcases hlogs with hsame | ⟨s, hl, hs⟩
    · rw [show last.view.globals = machine.globals from hsame]
      exact h.close.imp fun _ _ hbelow => hbelow.mono hyields.pool hmore
    · obtain ⟨hrunning, hclose⟩ := hkept hl
      rwa [(hrunning.fails hs).2]

theorem Compiler.Served.fits (h : compiler.Served machine written) : compiler.Fits machine := by
  induction h with
  | new maxDepth =>
    exact ⟨ready_create maxDepth, Globals.sound_empty _, rfl, fun _ hv => by cases hv⟩
  | renewed _ hsame ih =>
    refine ⟨ih.ready, ?_, ?_⟩
    · rw [hsame]
      exact ih.sound
    · rw [hsame]
      exact ih.close
  | @refused compiler later machine _ tree _ _ hc ih =>
    obtain ⟨hready, hextends⟩ := ih.ready.compile tree
    have hsymbols : (compiler.compile tree).2.symbols = compiler.symbols := by
      unfold Compiler.compile at hc ⊢
      dsimp only at hc ⊢
      split at hc
      · cases hc
      · rfl
    rw [hc] at hready hextends hsymbols
    exact ⟨hready, ih.sound.mono hextends,
      ih.close.imp fun _ _ hbelow => hbelow.mono hextends (Nat.le_of_eq (by rw [hsymbols]))⟩
  | ran steps _ hd hc ih => exact ih.ran hd hc steps

end

namespace Compiler

/-- Whatever a compiler and a machine were given before, all that a direct program reads has been
written, but for globals that were known before and that no `let` got to write. -/
theorem readsWritten_of_served {compiler later : Compiler} {machine : Machine} {tree : Program}
    {unit : Bytecode} {written : List Nat} (h : compiler.Served machine written)
    (hd : tree.isDirect = true) (hc : compiler.compile tree = (.ok unit, later)) :
    unit.ReadsWritten machine written compiler.symbols.inner.slots
      later.symbols.inner.slots := by
  have hkeeps := h.fits.keeps hd hc written
  refine ⟨fun steps state frame rest slot hrun hframes hat => ?_,
    fun steps state frame rest slot hrun hframes hat => ?_, fun steps last hrun hleft => ?_⟩
  · have hlogs := machine.runWithin_logs unit written steps
    rw [hrun] at hlogs
    exact ((hkeeps.logs hlogs).reads hframes (Frame.instruction?_eq_some.mp hat)).1 rfl
  · have hlogs := machine.runWithin_logs unit written steps
    rw [hrun] at hlogs
    exact ((hkeeps.logs hlogs).reads hframes (Frame.instruction?_eq_some.mp hat)).2 rfl
  · have hlogs := machine.runWithin_logs unit written steps
    rw [hrun] at hlogs
    obtain ⟨s, hl, hs⟩ := hlogs
    exact (hkeeps.logs hl).passed hs hleft

/-- After `let x = true;` comes `fn(a) { let b = a; b }(x)`. -/
theorem readsWritten_in_turn : ∃ (first second : Bytecode) (between later : Compiler),
    (create 64).compile ⟨[.bind "x" (.boolean true .zero) .zero]⟩ = (.ok first, between) ∧
    between.compile ⟨[.expr (.call (.function none ["a"] (.mk [.bind "b" (.ident "a" .zero) .zero,
      .expr (.ident "b" .zero) .zero] .zero) .zero) [.ident "x" .zero] .zero) .zero]⟩ =
      (.ok second, later) ∧
    second.ReadsWritten ((Machine.create ⟨8, 8, Globals.defaultCapacity⟩
      (.opened .off)).runWithin 3 first).2 [0] between.symbols.inner.slots
        later.symbols.inner.slots := by
  have hfirst : ((create 64).compile ⟨[.bind "x" (.boolean true .zero) .zero]⟩).1 =
    .ok ⟨#[7, 21, 0, 0], #[]⟩ := by cbv
  have hserved := Served.ran 3 (.new 64 8 8 (.opened .off)) rfl (Prod.ext hfirst rfl)
  have hledger : (Machine.create ⟨8, 8, Globals.defaultCapacity⟩ (.opened .off)).ledger
    ⟨#[7, 21, 0, 0], #[]⟩ [] 3 = ⟨[0], [[]]⟩ := by cbv
  rw [hledger] at hserved
  refine ⟨_, ⟨#[33, 0, 0, 0, 20, 0, 0, 30, 1, 1],
    #[.compiled 0 ⟨none, #[22, 0, 23, 1, 22, 1, 31], 2, 1⟩]⟩, _, _, Prod.ext hfirst rfl,
    Prod.ext ?second rfl, readsWritten_of_served hserved rfl (Prod.ext ?second rfl)⟩
  cbv

/-- A `let` in a block that is passed by hides an outer name from the machine: the slot that it
would have written is read all the same. -/
theorem values_apart :
    ((Session.create ⟨.vm, 64, 64, 16⟩ (.opened .off)).run
      "let x = 1; let f = fn() \x7b if (false) \x7b let x = 2; \x7d; x \x7d; f()").1 =
        .ok (some .null) ∧
    ((Session.create ⟨.eval, 64, 64, 16⟩ (.opened .off)).run
      "let x = 1; let f = fn() \x7b if (false) \x7b let x = 2; \x7d; x \x7d; f()").1 =
        .ok (some (.int 1)) := by
  have hparses : Program.Parses
      "let x = 1; let f = fn() \x7b if (false) \x7b let x = 2; \x7d; x \x7d; f()" 64
      ⟨[.bind "x" (.integer 1 ⟨8, 9⟩) ⟨0, 9⟩,
        .bind "f" (.function (some "f") [] (.mk
          [.expr (.ifThen (.boolean false ⟨30, 35⟩)
            (.mk [.bind "x" (.integer 2 ⟨47, 48⟩) ⟨39, 48⟩] ⟨37, 51⟩) ⟨26, 51⟩) ⟨26, 51⟩,
          .expr (.ident "x" ⟨53, 54⟩) ⟨53, 54⟩] ⟨24, 56⟩) ⟨19, 56⟩) ⟨11, 56⟩,
        .expr (.call (.ident "f" ⟨58, 59⟩) [] ⟨58, 61⟩) ⟨58, 61⟩]⟩ := by decide +kernel
  constructor
  all_goals
    rw [Session.create, Session.run_of_parses hparses]
    cbv

end Compiler

end Simian
