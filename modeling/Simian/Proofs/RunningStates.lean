import Simian.Proofs.CompiledUnits
import Simian.Proofs.StepMoves

/-!
# Running states

`Snapshot.Running` holds before every step of a unit. Each frame is where its code is
balanced with the values that it has above its local slots, and the slots of a frame lie
above everything that its caller has, the callee among it. All values are sound. A step
from such a state leads to another one, ends the unit or fails by no fault of the code.
-/
namespace Simian

/-- Every instruction of the code has operands for this pool, makes closures of verified functions
only and leads forward. -/
structure Code.Trusted (pool : Array Value) (code : Code) (locals captures : Nat)
    (inFunction : Bool) : Prop where
  legal : ∀ offset instruction, code.Boundary offset → code.Holds offset instruction →
    instruction.Legal pool code locals captures inFunction
  verified : ∀ offset instruction id inner, code.Boundary offset →
    code.Holds offset instruction → instruction.opcode = .closure →
    pool[instruction.operand 0]? = some (.compiled id inner) →
    Verified pool inner (instruction.operand 1)
  forward : ∀ offset instruction, code.Boundary offset → code.Holds offset instruction →
    instruction.Forward offset

theorem Verified.trusted {pool : Array Value} {body : CompiledFunction} {captures : Nat}
    (h : Verified pool body captures) :
    body.code.Trusted pool body.numLocals captures true := by
  cases h with
  | intro _ _ hlegal hverified hforward => exact ⟨hlegal, hverified, hforward⟩

theorem Site.Clean.trusted {site : Site} (h : site.Clean 0 site.code.size) :
    site.code.Trusted site.pool site.locals site.captures.length site.inFunction where
  legal := fun offset instruction hb hat =>
    (h.allows .first offset instruction (Nat.zero_le _) hat.lt_size hb hat).legal
  verified := fun offset instruction id inner hb hat ho hp =>
    (h.allows .first offset instruction (Nat.zero_le _) hat.lt_size hb hat).verified id inner ho hp
  forward := fun offset instruction hb hat =>
    (h.allows .first offset instruction (Nat.zero_le _) hat.lt_size hb hat).forward

theorem Code.Balanced.imp {code : Code} {limit offset depth : Nat} {ends ends' : Nat → Prop}
    (h : code.Balanced limit ends offset depth) (hi : ∀ depth, ends depth → ends' depth) :
    code.Balanced limit ends' offset depth := by
  induction h with
  | done hend => exact .done (hi _ hend)
  | step hlt hat htakes _ ih => exact .step hlt hat htakes ih

/-- The frame can go on with this many values above its local slots. Only the code of a unit can
be passed to its end, with none of them left. -/
structure Frame.Active (pool : Array Value) (inFunction : Bool) (frame : Frame) (depth : Nat) :
    Prop where
  boundary : frame.body.code.Boundary frame.ip
  balanced : frame.body.code.Balanced frame.body.code.size
    (fun depth => inFunction = false ∧ depth = 0) frame.ip depth
  trusted : frame.body.code.Trusted pool frame.body.numLocals frame.captured.length inFunction
  captured : ∀ value ∈ frame.captured, value.Sound pool
  verified : inFunction = true → Verified pool frame.body frame.captured.length

/-- The frames share the stack up to this height. A caller goes on when its callee has been
replaced by a value, which is when the stack is as high as the base of the callee's frame. -/
inductive Stacked (pool : Array Value) : Nat → List Frame → Prop where
  | unit {frame : Frame} {depth : Nat} : frame.base = 0 → frame.body.numLocals = 0 →
    frame.Active pool false depth → Stacked pool depth [frame]
  | call {frame caller : Frame} {rest : List Frame} {height depth : Nat} :
    height = frame.base + frame.body.numLocals + depth → frame.Active pool true depth →
    caller.base + caller.body.numLocals + 1 ≤ frame.base →
    Stacked pool frame.base (caller :: rest) → Stacked pool height (frame :: caller :: rest)

namespace Stacked

variable {pool : Array Value} {height : Nat} {frame : Frame} {rest : List Frame}

/-- What is known of the running frame. -/
theorem top (h : Stacked pool height (frame :: rest)) : ∃ depth,
    height = frame.base + frame.body.numLocals + depth ∧
    frame.Active pool (!rest.isEmpty) depth ∧ (rest ≠ [] → 0 < frame.base) := by
  cases h with
  | unit hbase hlocals hactive =>
    exact ⟨height, by omega, hactive, fun hr => absurd rfl hr⟩
  | call hheight hactive hbase _ => exact ⟨_, hheight, hactive, fun _ => by omega⟩

/-- The running frame goes on. -/
theorem goesOn {depth next : Nat} (h : Stacked pool height (frame :: rest))
    (ha : Frame.Active pool (!rest.isEmpty) { frame with ip := next } depth) :
    Stacked pool (frame.base + frame.body.numLocals + depth)
      ({ frame with ip := next } :: rest) := by
  cases h with
  | unit hbase hlocals _ =>
    have hheight : frame.base + frame.body.numLocals + depth = depth := by omega
    rw [hheight]
    exact .unit hbase hlocals ha
  | call _ _ hbase hrest => exact .call rfl ha hbase hrest

theorem ne_nil (h : Stacked pool height []) : False := by cases h

end Stacked

namespace Snapshot

structure Running (s : Snapshot) : Prop where
  stacked : Stacked s.constants s.values.length s.calls
  values : ∀ value ∈ s.values, value.Sound s.constants
  globals : s.globals.Sound s.constants

/-- A running state is poised for an instruction, or has passed the end of the unit. -/
theorem Running.poised {s : Snapshot} (h : s.Running) : ∃ frame rest, s.calls = frame :: rest ∧
    ((∃ instruction, s.Poised (Verified s.constants) frame rest instruction) ∨
      frame.ip = frame.body.code.size ∧ rest = [] ∧ s.values = []) := by
  have hstacked := h.stacked
  cases hcalls : s.calls with
  | nil =>
    rw [hcalls] at hstacked
    exact hstacked.ne_nil.elim
  | cons frame rest =>
    rw [hcalls] at hstacked
    obtain ⟨depth, hheight, hactive, hbase⟩ := hstacked.top
    refine ⟨frame, rest, rfl, ?_⟩
    rcases Nat.lt_or_eq_of_le hactive.balanced.le_limit with hlt | heq
    · obtain ⟨instruction, hat, htakes, _⟩ := hactive.balanced.of_lt hlt
      refine .inl ⟨instruction, hcalls, hat, hactive.trusted.legal _ _ hactive.boundary hat,
        fun id inner => hactive.trusted.verified _ _ id inner hactive.boundary hat, fun hr => ?_,
        hactive.captured, by omega, hbase, h.values, h.globals⟩
      exact ⟨hactive.verified (by simpa using hr), Value.allClose_iff.mpr hactive.captured⟩
    · obtain ⟨hunit, hdepth⟩ := hactive.balanced.done_of_eq heq
      have hrest : rest = [] := by simpa using hunit
      subst hrest
      refine .inr ⟨heq, rfl, ?_⟩
      cases hstacked with
      | unit hb hl _ => exact List.eq_nil_of_length_eq_zero (by omega)

end Snapshot

/-- Where an instruction leads, the frame is active again. -/
theorem Frame.Active.next {pool : Array Value} {inFunction : Bool} {frame : Frame} {depth : Nat}
    (h : frame.Active pool inFunction depth) {instruction : Instruction}
    (hat : frame.body.code.Holds frame.ip instruction) {next : Nat}
    (hn : next ∈ instruction.successors frame.ip) :
    Frame.Active pool inFunction { frame with ip := next }
      (depth - instruction.takes + instruction.gives) := by
  obtain ⟨other, hother, _, hnext⟩ := h.balanced.of_lt hat.lt_size
  cases hother.unique hat
  refine ⟨?_, hnext next hn, h.trusted, h.captured, h.verified⟩
  have hbehind := h.boundary.next hat
  have hlegal := h.trusted.legal _ _ h.boundary hat
  show frame.body.code.Boundary next
  unfold Instruction.successors at hn
  unfold Instruction.Legal at hlegal
  split at hn
  next ho =>
    rw [ho] at hlegal
    cases List.mem_singleton.mp hn
    exact hlegal
  next ho =>
    rw [ho] at hlegal
    rcases List.mem_cons.mp hn with rfl | hn
    · exact hbehind
    · cases List.mem_singleton.mp hn
      exact hlegal
  · cases hn
  · cases hn
  · cases List.mem_singleton.mp hn
    exact hbehind

/-- A closure is entered at the start of its code. -/
theorem Value.Sound.active {pool : Array Value} {id : Nat} {body : CompiledFunction}
    {captured : List Value} (h : (Value.closure id body captured).Sound pool) (base : Nat) :
    Frame.Active pool true ⟨id, body, captured, 0, base⟩ 0 where
  boundary := .first
  balanced := by
    cases h.1 with
    | intro hbalanced _ _ _ _ => exact hbalanced.imp fun _ hf => hf.elim
  trusted := h.1.trusted
  captured := Value.allClose_iff.mp h.2
  verified := fun _ => h.1

namespace Snapshot

section
variable {s t : Snapshot} {frame : Frame} {rest : List Frame} {instruction : Instruction}

/-- Whatever a step does to frames and stack, they fit together again. -/
theorem Running.stacked_of_moves (h : s.Running)
    (hp : s.Poised (Verified s.constants) frame rest instruction)
    (hm : s.Moves (Verified s.constants) frame rest instruction t) :
    Stacked s.constants t.values.length t.calls := by
  have hstacked := h.stacked
  rw [hp.calls] at hstacked
  obtain ⟨depth, hheight, hactive, hbase⟩ := hstacked.top
  obtain ⟨other, hother, htakes, _⟩ := hactive.balanced.of_lt hp.holds.lt_size
  cases hother.unique hp.holds
  cases hm with
  | runs next hnext hcalls hlength _ =>
    have hon := hstacked.goesOn (hactive.next hp.holds hnext)
    rw [hcalls, hlength]
    convert hon using 1
    omega
  | enters id body captured ho hsound hcalls hlength _ =>
    have htake : instruction.takes = instruction.operand 0 + 1 := by rw [Instruction.takes, ho]
    have hgive : instruction.gives = 1 := by rw [Instruction.gives, ho]
    have hon := hstacked.goesOn (hactive.next hp.holds (by
      rw [Instruction.successors, ho]; exact List.mem_singleton_self _))
    rw [hcalls, hlength]
    refine .call rfl (Value.Sound.active hsound _) ?_ ?_
    · dsimp only
      omega
    · convert hon using 1
      dsimp only
      omega
  | leaves value caller others _ hrest hcalls hvalues =>
    subst hrest
    cases hstacked with
    | call _ _ _ hcaller =>
      have hpos := hbase (List.cons_ne_nil _ _)
      rw [hcalls, hvalues, List.length_append, List.length_take, List.length_singleton]
      convert hcaller using 1
      omega

/-- The end of the unit is passed without a change. -/
theorem step_at_end (hcalls : s.calls = [frame]) (hend : frame.body.code.decode? frame.ip = none) :
    s.step = .ends s := by
  unfold Snapshot.step
  rw [hcalls]
  dsimp only
  rw [hend]
  rfl

/-- What a step from a running state leads to. -/
theorem Running.step (h : s.Running) : match s.step with
    | .goes t => t.Running ∧ t.constants = s.constants
    | .ends t => t.globals = s.globals
    | .fails fault t => ¬fault.IsInternal ∧ t.globals = s.globals := by
  obtain ⟨frame, rest, hcalls, ⟨instruction, hp⟩ | ⟨hend, hrest, _⟩⟩ := h.poised
  · have hpermitted := hp.permitted
    generalize s.step = turn at hpermitted
    cases hpermitted with
    | goes hmoves hconstants hvalues hglobals =>
      refine ⟨⟨?_, ?_, ?_⟩, hconstants⟩ <;> rw [hconstants]
      · exact h.stacked_of_moves hp hmoves
      · exact hvalues
      · exact hglobals
    | ends _ _ _ hglobals => exact hglobals
    | fails hfault _ hglobals => exact ⟨hfault, hglobals⟩
  · rw [hrest] at hcalls
    rw [step_at_end hcalls (by rw [hend, Code.decode?, Array.getElem?_eq_none (Nat.le_refl _)])]

theorem Running.goes (h : s.Running) (hs : s.step = .goes t) :
    t.Running ∧ t.constants = s.constants := by
  have hstep := h.step
  rwa [hs] at hstep

/-- A step that goes on is the move of a poised instruction. -/
theorem Running.moves (h : s.Running) (hs : s.step = .goes t) : ∃ frame rest instruction,
    s.Poised (Verified s.constants) frame rest instruction ∧
      s.Moves (Verified s.constants) frame rest instruction t := by
  obtain ⟨frame, rest, hcalls, ⟨instruction, hp⟩ | ⟨hend, hrest, _⟩⟩ := h.poised
  · have hpermitted := hp.permitted
    rw [hs] at hpermitted
    cases hpermitted with
    | goes hmoves _ _ _ => exact ⟨frame, rest, instruction, hp, hmoves⟩
  · rw [hrest] at hcalls
    rw [step_at_end hcalls
      (by rw [hend, Code.decode?, Array.getElem?_eq_none (Nat.le_refl _)])] at hs
    cases hs

theorem Running.ends (h : s.Running) (hs : s.step = .ends t) : t.globals = s.globals := by
  have hstep := h.step
  rwa [hs] at hstep

/-- A unit ends by a return, which leaves no frame, or behind its last instruction. -/
theorem Running.calls_of_ends (h : s.Running) (hs : s.step = .ends t) : t.calls = [] ∨
    ∃ frame, t.calls = [frame] ∧ frame.ip = frame.body.code.size ∧ t.values = [] := by
  obtain ⟨frame, rest, hcalls, ⟨instruction, hp⟩ | ⟨hend, hrest, hvalues⟩⟩ := h.poised
  · have hpermitted := hp.permitted
    rw [hs] at hpermitted
    cases hpermitted with
    | ends _ _ hnone _ => exact .inl hnone
  · rw [hrest] at hcalls
    rw [step_at_end hcalls
      (by rw [hend, Code.decode?, Array.getElem?_eq_none (Nat.le_refl _)])] at hs
    cases hs
    exact .inr ⟨frame, hcalls, hend, hvalues⟩

theorem Running.fails {fault : Fault} (h : s.Running) (hs : s.step = .fails fault t) :
    ¬fault.IsInternal ∧ t.globals = s.globals := by
  have hstep := h.step
  rwa [hs] at hstep

end

/-! ### Runs -/

/-- Some number of steps leads from the first state to the second. -/
inductive Reaches (s : Snapshot) : Snapshot → Prop where
  | refl : Reaches s s
  | step {t u : Snapshot} : Reaches s t → t.step = .goes u → Reaches s u

theorem Reaches.head {s t u : Snapshot} (hs : s.step = .goes t) (h : Reaches t u) :
    Reaches s u := by
  induction h with
  | refl => exact .step .refl hs
  | step _ hstep ih => exact .step ih hstep

theorem Reaches.running {s t : Snapshot} (h : Reaches s t) (hs : s.Running) :
    t.Running ∧ t.constants = s.constants := by
  induction h with
  | refl => exact ⟨hs, rfl⟩
  | step _ hstep ih =>
    obtain ⟨hnext, hsame⟩ := ih.1.goes hstep
    exact ⟨hnext, hsame.trans ih.2⟩

end Snapshot

/-- A run of the machine goes from state to state until a step ends the unit or fails. -/
theorem Machine.runSteps_view (steps : Nat) (machine : Machine) :
    match runSteps steps machine with
    | (.unfinished, after) => machine.view.Reaches after.view
    | (.finished, after) => ∃ s, machine.view.Reaches s ∧ s.step = .ends after.view
    | (.faulted fault, after) =>
      ∃ s, machine.view.Reaches s ∧ s.step = .fails fault after.view := by
  induction steps generalizing machine with
  | zero => exact .refl
  | succ steps ih =>
    have hstep := step_eq machine
    rw [runSteps]
    cases hr : Run.step machine with
    | mk result after =>
      rw [hr] at hstep
      cases result with
      | error fault => exact ⟨_, .refl, hstep.symm⟩
      | ok progress =>
        cases progress with
        | finished => exact ⟨_, .refl, hstep.symm⟩
        | running =>
          have hrest := ih after
          dsimp only
          generalize runSteps steps after = ended at hrest
          obtain ⟨ending, last⟩ := ended
          cases ending with
          | unfinished => exact .head hstep.symm hrest
          | finished =>
            obtain ⟨s, hs, he⟩ := hrest
            exact ⟨s, .head hstep.symm hs, he⟩
          | faulted fault =>
            obtain ⟨s, hs, he⟩ := hrest
            exact ⟨s, .head hstep.symm hs, he⟩

end Simian
