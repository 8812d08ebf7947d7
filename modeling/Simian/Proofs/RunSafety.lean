import Mathlib.Data.List.Permutation
import Simian.Proofs.RunningStates

-- `Mathlib.Data.List.Permutation` has the equation by which `cbv` unfolds `Prod.snd`.

/-!
# No run faults on its own code

One compiler takes programs in turn, and one machine runs the units that come out of it.
The constants only grow from unit to unit, so what the global slots hold stays sound for
every later unit, closures of earlier units included. From there each run goes through
running states only, and none of them leads to a fault that stands for broken code.
-/
namespace Simian

/-! ### Units in turn -/

/-- The units of the programs that compile, in turn. -/
def Compiler.compileAll (compiler : Compiler) : List Program → List Bytecode
  | [] => []
  | tree :: rest =>
    match compiler.compile tree with
    | (.ok unit, later) => unit :: later.compileAll rest
    | (.error _, later) => later.compileAll rest

/-- The first machine becomes the second one by running some of the units in turn. Anything but
the globals can be renewed between two runs, and no run has to come to its end. -/
inductive Machine.Follows : List Bytecode → Machine → Machine → Prop where
  | done {machine : Machine} : Follows [] machine machine
  | renew {units : List Bytecode} {machine other last : Machine} :
    other.globals = machine.globals → Follows units other last → Follows units machine last
  | skip {unit : Bytecode} {rest : List Bytecode} {machine last : Machine} :
    Follows rest machine last → Follows (unit :: rest) machine last
  | run {unit : Bytecode} {rest : List Bytecode} {machine last : Machine} (steps : Nat) :
    Follows rest (machine.runWithin steps unit).2 last → Follows (unit :: rest) machine last

/-- A run of the unit comes through this state of the machine. -/
def Machine.Visits (machine : Machine) (unit : Bytecode) (state : Machine) : Prop :=
  ∃ steps, machine.runWithin steps unit = (.unfinished, state)

/-- The snapshot at the start of the unit. -/
def Snapshot.loaded (s : Snapshot) (unit : Bytecode) : Snapshot :=
  { s with
    constants := unit.constants, values := [], calls := [Machine.mainFrame s.nextId unit.code]
    lastPopped := .null, nextId := s.nextId + 1 }

/-- What a machine holds that is cleared for a unit. -/
theorem Machine.view_cleared (machine : Machine) (unit : Bytecode) :
    view { machine with
      constants := unit.constants, stack := machine.stack.clear
      frames := machine.frames.clear, lastPopped := .null, nextId := machine.nextId + 1 } =
      { machine.view.loaded unit with calls := [] } := by
  simp only [view, ValueStack.toList_clear, ValueStack.capacity_clear]
  rfl

/-- Loading fails only where there is no room for any frame. -/
theorem Machine.load_view (machine : Machine) (unit : Bytecode) :
    match load unit machine with
    | (.ok _, loaded) => loaded.view = machine.view.loaded unit
    | (.error fault, loaded) => fault = .frameOverflow ∧ loaded.globals = machine.globals ∧
      machine.view.callLimit = 0 := by
  have hload : load unit machine = Run.onFrames (FrameStack.push (mainFrame machine.nextId unit.code))
      { machine with
        constants := unit.constants, stack := machine.stack.clear
        frames := machine.frames.clear, lastPopped := .null, nextId := machine.nextId + 1 } := rfl
  rw [hload]
  generalize he : { machine with
    constants := unit.constants, stack := machine.stack.clear, frames := machine.frames.clear
    lastPopped := .null, nextId := machine.nextId + 1 } = empty
  by_cases hroom : empty.view.calls.length < empty.view.callLimit
  · obtain ⟨loaded, hpush, hview⟩ :=
      @pushFrame_apply empty (mainFrame machine.nextId unit.code) hroom
    rw [hpush]
    dsimp only
    rw [hview, ← he, view_cleared]
    rfl
  · rw [pushFrame_apply_full empty hroom, ← he]
    rw [← he] at hroom
    exact ⟨rfl, rfl, Nat.eq_zero_of_not_pos hroom⟩

/-- A run starts from the loaded unit and goes on to where a step ends it. -/
theorem Machine.runWithin_view (steps : Nat) (machine : Machine) (unit : Bytecode) :
    match machine.runWithin steps unit with
    | (.unfinished, after) => (machine.view.loaded unit).Reaches after.view
    | (.finished, after) =>
      ∃ s, (machine.view.loaded unit).Reaches s ∧ s.step = .ends after.view
    | (.faulted fault, after) => fault = .frameOverflow ∧ after.globals = machine.globals ∧
        machine.view.callLimit = 0 ∨
      ∃ s, (machine.view.loaded unit).Reaches s ∧ s.step = .fails fault after.view := by
  have hload := load_view machine unit
  unfold runWithin
  generalize load unit machine = start at hload
  obtain ⟨result, loaded⟩ := start
  cases result with
  | error fault => exact .inl hload
  | ok _ =>
    dsimp only at hload ⊢
    have hrun := runSteps_view steps { loaded with
      journal := loaded.journal.note .debug fun _ =>
        s!"run {unit.code.size} bytes, {unit.constants.size} constants" }
    generalize runSteps steps _ = ended at hrun
    obtain ⟨ending, last⟩ := ended
    rw [← hload]
    cases ending with
    | unfinished => exact hrun
    | finished => exact hrun
    | faulted fault => exact .inr hrun

/-! ### What a unit comes with -/

theorem Globals.Sound.mono {pool later : Array Value} {globals : Globals}
    (h : globals.Sound pool) (hp : Pool.Extends pool later) : globals.Sound later :=
  ⟨h.capacity_eq, fun value hv => Value.Sound.mono hp value (h.slots value hv)⟩

/-- The unit was compiled with these constants before it by a compiler that was ready. -/
def Bytecode.CompiledAfter (unit : Bytecode) (pool : Array Value) : Prop :=
  ∃ (compiler later : Compiler) (tree : Program), compiler.Ready ∧ compiler.constants = pool ∧
    compiler.compile tree = (.ok unit, later)

theorem Bytecode.CompiledAfter.extends {unit : Bytecode} {pool : Array Value}
    (h : unit.CompiledAfter pool) : Pool.Extends pool unit.constants := by
  obtain ⟨compiler, later, tree, hready, rfl, hcompile⟩ := h
  exact (hready.yields hcompile).pool

/-- A state that holds globals which are sound for what was there before the unit starts running
with it. -/
theorem Bytecode.CompiledAfter.running {unit : Bytecode} {pool : Array Value}
    (h : unit.CompiledAfter pool) {s : Snapshot} (hg : s.globals.Sound pool) :
    (s.loaded unit).Running := by
  obtain ⟨compiler, later, tree, hready, rfl, hcompile⟩ := h
  have hyields := hready.yields hcompile
  have hgives := hyields.laid.gives
  refine ⟨.unit rfl rfl ⟨.first, ?_, hgives.clean.trusted, ?_, nofun⟩, ?_, ?_⟩
  · exact hgives.balanced 0 (.done ⟨rfl, rfl⟩)
  · intro value hv; cases hv
  · intro value hv; cases hv
  · exact hg.mono hyields.pool

/-- Whatever becomes of the run, the globals are sound for the constants of the unit. -/
theorem Bytecode.CompiledAfter.globals {unit : Bytecode} {pool : Array Value}
    (h : unit.CompiledAfter pool) {machine : Machine} (hg : machine.globals.Sound pool)
    (steps : Nat) : (machine.runWithin steps unit).2.globals.Sound unit.constants := by
  have hrunning := h.running (s := machine.view) hg
  have hrun := machine.runWithin_view steps unit
  generalize machine.runWithin steps unit = ended at hrun
  obtain ⟨ending, after⟩ := ended
  have hreached : ∀ {s : Snapshot}, (machine.view.loaded unit).Reaches s →
      s.Running ∧ s.globals.Sound unit.constants := fun hs => by
    obtain ⟨hs, hconstants⟩ := hs.running hrunning
    have hglobals := hs.globals
    rw [hconstants] at hglobals
    exact ⟨hs, hglobals⟩
  show after.view.globals.Sound unit.constants
  cases ending with
  | unfinished => exact (hreached hrun).2
  | finished =>
    obtain ⟨s, hs, hstep⟩ := hrun
    rw [(hreached hs).1.ends hstep]
    exact (hreached hs).2
  | faulted fault =>
    rcases hrun with ⟨_, hsame, _⟩ | ⟨s, hs, hstep⟩
    · rw [show after.view.globals = machine.globals from hsame]
      exact hg.mono h.extends
    · rw [((hreached hs).1.fails hstep).2]
      exact (hreached hs).2

/-- The units were compiled in turn, the first of them with at least this pool before it. -/
inductive Bytecode.Successive : Array Value → List Bytecode → Prop where
  | nil {pool : Array Value} : Successive pool []
  | cons {pool before : Array Value} {unit : Bytecode} {rest : List Bytecode} :
    Pool.Extends pool before → unit.CompiledAfter before → Successive unit.constants rest →
    Successive pool (unit :: rest)

theorem Bytecode.Successive.mono {pool later : Array Value} {units : List Bytecode}
    (hp : Pool.Extends pool later) (h : Successive later units) : Successive pool units := by
  cases h with
  | nil => exact .nil
  | cons hext hunit hrest => exact .cons (hp.trans hext) hunit hrest

theorem Compiler.Ready.successive (trees : List Program) {compiler : Compiler}
    (h : compiler.Ready) :
    Bytecode.Successive compiler.constants (compiler.compileAll trees) := by
  induction trees generalizing compiler with
  | nil => exact .nil
  | cons tree rest ih =>
    obtain ⟨hready, hext⟩ := h.compile tree
    rw [compileAll]
    cases hc : compiler.compile tree with
    | mk result later =>
      rw [hc] at hready hext
      have hrest := ih hready
      cases result with
      | error error => exact hrest.mono hext
      | ok unit =>
        dsimp only at hrest ⊢
        rw [← (h.yields hc).constants_eq] at hrest
        exact .cons (.refl _) ⟨_, _, tree, h, rfl, hc⟩ hrest

/-- When a unit is run, the globals are sound for the constants that it was compiled after. -/
theorem Machine.Follows.sound {earlier later : List Bytecode} {unit : Bytecode}
    {pool : Array Value} {machine last : Machine} (h : machine.Follows earlier last)
    (hunits : Bytecode.Successive pool (earlier ++ unit :: later))
    (hg : machine.globals.Sound pool) :
    ∃ before, unit.CompiledAfter before ∧ last.globals.Sound before := by
  induction h generalizing pool with
  | done =>
    cases hunits with
    | cons hext hunit _ => exact ⟨_, hunit, hg.mono hext⟩
  | renew hsame _ ih =>
    refine ih hunits ?_
    rw [hsame]
    exact hg
  | skip _ ih =>
    cases hunits with
    | cons hext hunit hrest => exact ih hrest (hg.mono (hext.trans hunit.extends))
  | run steps _ ih =>
    cases hunits with
    | cons hext hunit hrest => exact ih hrest (hunit.globals (hg.mono hext) steps)

theorem Globals.sound_empty (pool : Array Value) : (empty defaultCapacity).Sound pool :=
  ⟨rfl, fun _ hv => by cases hv⟩

/-! ### Well-formed code -/

/-- The code of the unit or of a function among its constants, with the local slots it has. -/
inductive Bytecode.HasStream (unit : Bytecode) : Code → Nat → Prop where
  | main : HasStream unit unit.code 0
  | function {index id : Nat} {body : CompiledFunction} :
    unit.constants[index]? = some (.compiled id body) →
    HasStream unit body.code body.numLocals

/-- Instructions tile the code, and what they name is there. -/
structure Code.WellFormed (pool : Array Value) (code : Code) (locals : Nat) : Prop where
  tiled : code.Boundary code.size
  /-- Jumps go to instructions or to the end. -/
  jumps : ∀ offset instruction, code.Boundary offset → code.Holds offset instruction →
    instruction.opcode = .jump ∨ instruction.opcode = .jumpNotTruthy →
    code.Boundary (instruction.operand 0)
  slots : ∀ offset instruction, code.Boundary offset → code.Holds offset instruction →
    instruction.opcode = .getLocal ∨ instruction.opcode = .setLocal →
    instruction.operand 0 < locals
  /-- A function is given as many captured values as its code asks for. -/
  captures : ∀ offset instruction, code.Boundary offset → code.Holds offset instruction →
    instruction.opcode = .closure → ∃ id inner,
      pool[instruction.operand 0]? = some (.compiled id inner) ∧
      ∀ place other, inner.code.Boundary place → inner.code.Holds place other →
        other.opcode = .getFree → other.operand 0 < instruction.operand 1

theorem Code.Trusted.wellFormed {pool : Array Value} {code : Code} {locals captures : Nat}
    {inFunction : Bool} (h : code.Trusted pool locals captures inFunction)
    (hb : code.Boundary code.size) : code.WellFormed pool locals where
  tiled := hb
  jumps := fun offset instruction hb hat ho => by
    have hlegal := h.legal offset instruction hb hat
    unfold Instruction.Legal at hlegal
    rcases ho with ho | ho <;>
    · rw [ho] at hlegal
      exact hlegal
  slots := fun offset instruction hb hat ho => by
    have hlegal := h.legal offset instruction hb hat
    unfold Instruction.Legal at hlegal
    rcases ho with ho | ho <;>
    · rw [ho] at hlegal
      exact hlegal
  captures := fun offset instruction hb hat ho => by
    have hlegal := h.legal offset instruction hb hat
    unfold Instruction.Legal at hlegal
    rw [ho] at hlegal
    obtain ⟨id, inner, hp⟩ := hlegal
    refine ⟨id, inner, hp, fun place other hplace hother hfree => ?_⟩
    have hinner := (h.verified offset instruction id inner hb hat ho hp).trusted.legal
      place other hplace hother
    unfold Instruction.Legal at hinner
    rw [hfree] at hinner
    exact hinner

/-- Every stream of the unit is trusted, with some number of captured values, and tiled. -/
theorem Bytecode.CompiledAfter.trusted {unit : Bytecode} {pool : Array Value}
    (h : unit.CompiledAfter pool) {code : Code} {locals : Nat}
    (hs : unit.HasStream code locals) : ∃ captures inFunction,
      code.Trusted unit.constants locals captures inFunction ∧ code.Boundary code.size := by
  obtain ⟨compiler, later, tree, hready, rfl, hcompile⟩ := h
  have hyields := hready.yields hcompile
  cases hs with
  | main =>
    have hclean := hyields.laid.gives.clean
    exact ⟨_, _, hclean.trusted, hclean.boundary .first⟩
  | function hat =>
    have hfunctions := hyields.ready.functions
    rw [← hyields.constants_eq] at hfunctions
    obtain ⟨captures, hv⟩ := hfunctions _ _ _ (Nat.zero_le _) hat
    refine ⟨_, _, hv.trusted, ?_⟩
    cases hv with
    | intro _ htiled _ _ _ => exact htiled

theorem Bytecode.CompiledAfter.wellFormed {unit : Bytecode} {pool : Array Value}
    (h : unit.CompiledAfter pool) {code : Code} {locals : Nat}
    (hs : unit.HasStream code locals) : code.WellFormed unit.constants locals := by
  obtain ⟨captures, inFunction, htrusted, htiled⟩ := h.trusted hs
  exact htrusted.wellFormed htiled

/-! ### Runs without internal faults -/

/-- What runs of the unit on the machine are safe from. -/
structure Bytecode.RunsSafely (unit : Bytecode) (machine : Machine) : Prop where
  faults : ∀ steps fault, (machine.runWithin steps unit).1 = .faulted fault → ¬fault.IsInternal
  /-- Writing a local slot never fails. -/
  setLocal : ∀ state frame rest instruction, machine.Visits unit state →
    state.frames.frames = frame :: rest → frame.body.code.Holds frame.ip instruction →
    instruction.opcode = .setLocal → ∃ after, Run.step state = (.ok .running, after)
  /-- A function is left by an instruction and not by its end. -/
  functions : ∀ state frame caller rest, machine.Visits unit state →
    state.frames.frames = frame :: caller :: rest →
    ∃ instruction, frame.body.code.Holds frame.ip instruction
  streams : ∀ code locals, unit.HasStream code locals → code.WellFormed unit.constants locals

theorem Bytecode.CompiledAfter.visits {unit : Bytecode} {pool : Array Value}
    (h : unit.CompiledAfter pool) {machine state : Machine} (hg : machine.globals.Sound pool)
    (hv : machine.Visits unit state) : state.view.Running := by
  obtain ⟨steps, hsteps⟩ := hv
  have hrun := machine.runWithin_view steps unit
  rw [hsteps] at hrun
  exact (Snapshot.Reaches.running hrun (h.running hg)).1

/-- A step at a `setLocal` goes on. -/
theorem Snapshot.Running.setLocal {s : Snapshot} (h : s.Running) {frame : Frame}
    {rest : List Frame} {instruction : Instruction} (hcalls : s.calls = frame :: rest)
    (hat : frame.body.code.Holds frame.ip instruction) (ho : instruction.opcode = .setLocal) :
    ∃ t, s.step = .goes t := by
  obtain ⟨frame', rest', hcalls', hnext⟩ := h.poised
  rw [hcalls] at hcalls'
  cases hcalls'
  rcases hnext with ⟨other, hp⟩ | ⟨hend, _⟩
  · cases hp.holds.unique hat
    have hpermitted := hp.permitted
    generalize s.step = turn at hpermitted
    cases hpermitted with
    | goes => exact ⟨_, rfl⟩
    | ends hr => rcases hr with hr | hr <;> rw [ho] at hr <;> cases hr
    | fails _ hset =>
      rw [ho] at hset
      cases hset
  · have hlt := hat.lt_size
    omega

theorem Bytecode.CompiledAfter.runsSafely {unit : Bytecode} {pool : Array Value}
    (h : unit.CompiledAfter pool) {machine : Machine} (hg : machine.globals.Sound pool) :
    unit.RunsSafely machine where
  faults := fun steps fault hf => by
    have hrun := machine.runWithin_view steps unit
    generalize machine.runWithin steps unit = ended at hrun hf
    obtain ⟨ending, after⟩ := ended
    cases hf
    rcases hrun with ⟨rfl, _⟩ | ⟨s, hs, hstep⟩
    · exact fun hi => hi
    · exact ((hs.running (h.running hg)).1.fails hstep).1
  setLocal := fun state frame rest instruction hv hframes hat ho => by
    obtain ⟨t, ht⟩ := (h.visits hg hv).setLocal hframes hat ho
    have hturn := Machine.step_eq state
    rw [ht] at hturn
    cases hr : Run.step state with
    | mk result after =>
      rw [hr] at hturn
      cases result with
      | error fault => cases hturn
      | ok progress =>
        cases progress with
        | running => exact ⟨after, rfl⟩
        | finished => cases hturn
  functions := fun state frame caller rest hv hframes => by
    obtain ⟨frame', rest', hcalls, hnext⟩ := (h.visits hg hv).poised
    have hcalls : state.frames.frames = frame' :: rest' := hcalls
    rw [hframes] at hcalls
    cases hcalls
    rcases hnext with ⟨instruction, hp⟩ | ⟨_, hrest, _⟩
    · exact ⟨instruction, hp.holds⟩
    · cases hrest
  streams := fun _ _ hs => h.wellFormed hs

/-- Whatever programs one compiler is given in turn and whatever becomes of the runs of the units
before, a unit runs safely on the machine. -/
theorem Compiler.runsSafely_of_compileAll {maxDepth : Nat} {trees : List Program}
    {limits : MachineLimits} {journal : Journal} {earlier later : List Bytecode}
    {unit : Bytecode} {machine : Machine}
    (hlimits : limits.globalsCapacity = Globals.defaultCapacity)
    (hunits : (create maxDepth).compileAll trees = earlier ++ unit :: later)
    (hmachine : (Machine.create limits journal).Follows earlier machine) :
    unit.RunsSafely machine := by
  have hsuccessive := (ready_create maxDepth).successive trees
  rw [hunits] at hsuccessive
  have hglobals : (Machine.create limits journal).globals.Sound (create maxDepth).constants := by
    show (Globals.empty limits.globalsCapacity).Sound _
    rw [hlimits]
    exact Globals.sound_empty _
  obtain ⟨pool, hunit, hg⟩ := hmachine.sound hsuccessive hglobals
  exact hunit.runsSafely hg

/-- A closure that a function of the first unit made is called in the second one:
`let f = fn(a) { fn() { a } };` and then `f(true)();`. -/
theorem Compiler.runsSafely_call_of_call : ∃ first second : Bytecode,
    (create 64).compileAll
      [⟨[.bind "f" (.function (some "f") ["a"] (.mk [.expr (.function none []
          (.mk [.expr (.ident "a" .zero) .zero] .zero) .zero) .zero] .zero) .zero) .zero]⟩,
        ⟨[.expr (.call (.call (.ident "f" .zero) [.boolean true .zero] .zero) [] .zero) .zero]⟩] =
      [first] ++ second :: [] ∧
    second.RunsSafely ((Machine.create .default (.opened .off)).runWithin 9 first).2 := by
  refine ⟨⟨#[33, 0, 1, 0, 21, 0, 0], #[.compiled 0 ⟨none, #[25, 0, 31], 0, 0⟩,
      .compiled 1 ⟨some "f", #[22, 0, 33, 0, 0, 1, 31], 1, 1⟩]⟩,
    ⟨#[20, 0, 0, 7, 30, 1, 30, 0, 1], #[.compiled 0 ⟨none, #[25, 0, 31], 0, 0⟩,
      .compiled 1 ⟨some "f", #[22, 0, 33, 0, 0, 1, 31], 1, 1⟩]⟩, ?hunits,
    runsSafely_of_compileAll rfl ?hunits (.run 9 .done)⟩
  cbv

end Simian
