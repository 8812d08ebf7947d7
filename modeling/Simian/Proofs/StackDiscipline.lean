import Mathlib.ModelTheory.Encoding
import Mathlib.Order.Basic
import Simian.Proofs.RunSafety

-- `Mathlib.ModelTheory.Encoding` has the equation by which `cbv` unfolds `Option.join`.

/-!
# Stack discipline

Every frame has its local slots to itself: they lie above the callee's place of its
caller and below everything that it works with. While a call is in progress the values
below its callee stay as they are, so a call that comes to its end has replaced the
callee and the arguments by one value. In the same way the code of an expression, run
from its start to its end, puts one value on top of what was there.
-/
namespace Simian

/-- The first call stands above everything that the second one uses, callee and all. -/
def Frame.Above (callee caller : Frame) : Prop :=
  caller.base + caller.body.numLocals + 1 ≤ callee.base

theorem Stacked.pairwise {pool : Array Value} {height : Nat} {frames : List Frame}
    (h : Stacked pool height frames) : frames.Pairwise Frame.Above := by
  induction h with
  | unit _ _ _ => exact List.pairwise_singleton _ _
  | call _ _ hbase _ ih =>
    refine List.pairwise_cons.mpr ⟨fun other hm => ?_, ih⟩
    rcases List.mem_cons.mp hm with rfl | hm
    · exact hbase
    · have := List.rel_of_pairwise_cons ih hm
      unfold Frame.Above at this ⊢
      omega

theorem take_of_take {α : Type} {a b : List α} {count most : Nat}
    (h : a.take most = b.take most) (hc : count ≤ most) : a.take count = b.take count := by
  have hcut := congrArg (List.take count) h
  rwa [List.take_take, List.take_take, Nat.min_eq_left hc] at hcut

theorem eq_take_append {α : Type} {values older : List α} {count : Nat}
    (hl : values.length = count + 1)
    (h : ∀ i < count, values[i]? = older[i]?) :
    ∃ value, values = older.take count ++ [value] := by
  have htake : values.take count = older.take count := by
    apply List.ext_getElem?
    intro i
    by_cases hi : i < count
    · rw [List.getElem?_take_of_lt hi, List.getElem?_take_of_lt hi, h i hi]
    · rw [List.getElem?_take_eq_none (by omega), List.getElem?_take_eq_none (by omega)]
  refine ⟨values[count], ?_⟩
  rw [← htake, List.take_append_getElem, ← hl, List.take_length]

namespace Snapshot

variable {s t : Snapshot} {frame : Frame} {rest : List Frame} {instruction : Instruction}
  {fine : CompiledFunction → Nat → Prop}

/-- An instruction of a frame leaves everything below the frame alone. -/
theorem Poised.take_eq (hp : s.Poised fine frame rest instruction) {count : Nat}
    (hcount : count ≤ frame.base)
    (hkeep : ∀ i < s.values.length - instruction.takes,
      (instruction.opcode = .setLocal → i ≠ frame.base + instruction.operand 0) →
      t.values[i]? = s.values[i]?) : t.values.take count = s.values.take count := by
  have hheight := hp.height
  apply List.ext_getElem?
  intro i
  by_cases hi : i < count
  · rw [List.getElem?_take_of_lt hi, List.getElem?_take_of_lt hi]
    exact hkeep i (by omega) fun _ => by omega
  · rw [List.getElem?_take_eq_none (by omega), List.getElem?_take_eq_none (by omega)]

/-! ### While a call is in progress -/

/-- The frames have been called from, and the values are those below the callee of the lowest
call above them. -/
structure Inside (calls : List Frame) (base : Nat) (below : List Value) (s : Snapshot) : Prop where
  calls : ∃ inner bottom, s.calls = inner ++ bottom :: calls ∧ bottom.base = base
  values : s.values.take (base - 1) = below

theorem Inside.length_lt {calls : List Frame} {base : Nat} {below : List Value}
    (h : s.Inside calls base below) : calls.length < s.calls.length := by
  obtain ⟨inner, bottom, hcalls, _⟩ := h.calls
  rw [hcalls, List.length_append, List.length_cons]
  omega

/-- The running frame is the lowest call or lies above it. -/
theorem Inside.split {calls : List Frame} {base : Nat} {below : List Value}
    (hi : s.Inside calls base below) (h : s.Running) (hcalls : s.calls = frame :: rest) :
    base ≤ frame.base ∧
    (∀ ip, ∃ inner bottom, { frame with ip } :: rest = inner ++ bottom :: calls ∧
      bottom.base = base) ∧
    (frame.base = base ∧ rest = calls ∨ base + 1 ≤ frame.base ∧ ∃ inner bottom,
      rest = inner ++ bottom :: calls ∧ bottom.base = base) := by
  obtain ⟨inner, bottom, hinner, rfl⟩ := hi.calls
  have hpairs := h.stacked.pairwise
  rw [hinner] at hcalls hpairs
  cases inner with
  | nil =>
    obtain ⟨rfl, rfl⟩ := List.cons.inj hcalls
    exact ⟨Nat.le_refl _, fun ip => ⟨[], _, rfl, rfl⟩, .inl ⟨rfl, rfl⟩⟩
  | cons first inner =>
    obtain ⟨rfl, rfl⟩ := List.cons.inj hcalls
    have habove : Frame.Above first bottom :=
      List.rel_of_pairwise_cons hpairs (List.mem_append_right _ List.mem_cons_self)
    unfold Frame.Above at habove
    exact ⟨by omega, fun ip => ⟨_ :: inner, bottom, rfl, rfl⟩,
      .inr ⟨by omega, inner, bottom, rfl, rfl⟩⟩

/-- A step stays inside the call, or ends it with a value in the place of the callee. -/
theorem Inside.step {calls : List Frame} {base : Nat} {below : List Value} (h : s.Running)
    (hi : s.Inside calls base below) (hs : s.step = .goes t) :
    t.Inside calls base below ∨ t.calls = calls ∧ ∃ value, t.values = below ++ [value] := by
  obtain ⟨frame, rest, instruction, hp, hmoves⟩ := h.moves hs
  obtain ⟨hbase, hreplaced, hplace⟩ := hi.split h hp.calls
  have hheight := hp.height
  have hvalues := hi.values
  cases hmoves with
  | runs next _ hnext _ hkeep =>
    exact .inl ⟨hnext ▸ hreplaced next, (hp.take_eq (by omega) hkeep).trans hvalues⟩
  | enters id body captured ho _ hnext _ hkeep =>
    have htakes : instruction.takes = instruction.operand 0 + 1 := by rw [Instruction.takes, ho]
    obtain ⟨inner, bottom, hinner, hbottom⟩ := hreplaced (frame.ip + instruction.size)
    refine .inl ⟨⟨_ :: inner, bottom, by rw [hnext, hinner]; rfl, hbottom⟩, ?_⟩
    exact (take_of_take hkeep (by omega)).trans hvalues
  | leaves value caller others _ _ hnext hleft =>
    rcases hplace with ⟨hsame, hrest⟩ | ⟨hlt, hinner⟩
    · exact .inr ⟨hnext.trans hrest, value, by rw [hleft, hsame, hvalues]⟩
    · refine .inl ⟨hnext ▸ hinner, ?_⟩
      rw [hleft, List.take_append_of_le_length (by rw [List.length_take]; omega), List.take_take,
        Nat.min_eq_left (by omega)]
      exact hvalues

/-! ### Expressions in progress -/

/-- The values are as in the snapshot but for the local slots of the frame. -/
def Keeps (s : Snapshot) (frame : Frame) (values : List Value) : Prop :=
  ∀ i < s.values.length, i < frame.base ∨ frame.base + frame.body.numLocals ≤ i →
    values[i]? = s.values[i]?

/-- The frame has come from the first snapshot to the second on the way to the limit. It runs
itself, or a call that it made does. -/
inductive Evaluates (s : Snapshot) (frame : Frame) (rest : List Frame) (limit : Nat)
    (ends : Nat → Prop) (t : Snapshot) : Prop where
  | here (ip depth : Nat) : t.calls = { frame with ip } :: rest →
    frame.body.code.Balanced limit ends ip depth → t.values.length = s.values.length + depth →
    s.Keeps frame t.values → Evaluates s frame rest limit ends t
  | inside (ip depth : Nat) (below : List Value) :
    t.Inside ({ frame with ip } :: rest) (s.values.length + depth + 1) below →
    frame.body.code.Balanced limit ends ip (depth + 1) →
    below.length = s.values.length + depth → s.Keeps frame below →
    Evaluates s frame rest limit ends t

theorem Evaluates.step {u : Snapshot} {limit : Nat} {ends : Nat → Prop} (h : t.Running)
    (he : s.Evaluates frame rest limit ends t)
    (hlimit : ∀ ip, t.calls = { frame with ip } :: rest → ip ≠ limit)
    (hs : t.step = .goes u) (hstays : rest.length < u.calls.length) :
    s.Evaluates frame rest limit ends u := by
  cases he with
  | here ip depth hcalls hbalanced hlength hkeeps =>
    obtain ⟨running, others, instruction, hp, hmoves⟩ := h.moves hs
    have hframes := hcalls.symm.trans hp.calls
    obtain ⟨rfl, rfl⟩ := List.cons.inj hframes
    have hlt : ip < limit := Nat.lt_of_le_of_ne hbalanced.le_limit (hlimit ip hcalls)
    obtain ⟨other, hother, htakes, hnext⟩ := hbalanced.of_lt hlt
    cases hother.unique hp.holds
    cases hmoves with
    | runs next hsucc hcalls' hlength' hkeep =>
      refine .here next _ hcalls' (hnext next hsucc) (by omega) fun i hi hplace => ?_
      rw [hkeep i (by omega) fun ho => ?_, hkeeps i hi hplace]
      have hlegal := hp.legal
      rw [Instruction.Legal, ho] at hlegal
      dsimp only at hlegal ⊢
      omega
    | enters id body captured ho _ hcalls' _ hkeep =>
      have htake : instruction.takes = instruction.operand 0 + 1 := by rw [Instruction.takes, ho]
      have hgive : instruction.gives = 1 := by rw [Instruction.gives, ho]
      have hon := hnext (ip + instruction.size) (by
        rw [Instruction.successors, ho]
        exact List.mem_singleton_self _)
      rw [htake, hgive] at hon
      refine .inside (ip + instruction.size) (depth - (instruction.operand 0 + 1))
        (t.values.take (s.values.length + (depth - (instruction.operand 0 + 1))))
        ⟨⟨[], _, hcalls', by dsimp only; omega⟩, ?_⟩ hon ?_ fun i hi hplace => ?_
      · exact take_of_take hkeep (by omega)
      · rw [List.length_take]
        omega
      · rw [List.getElem?_take_of_lt (by omega), hkeeps i hi hplace]
    | leaves value caller more _ _ hcalls' _ =>
      rw [hcalls'] at hstays
      exact absurd hstays (Nat.lt_irrefl _)
  | inside ip depth below hinside hbalanced hlength hkeeps =>
    rcases hinside.step h hs with hinside | ⟨hcalls, value, hvalues⟩
    · exact .inside ip depth below hinside hbalanced hlength hkeeps
    · refine .here ip (depth + 1) hcalls hbalanced ?_ fun i hi hplace => ?_
      · rw [hvalues, List.length_append, hlength]
        rfl
      · rw [hvalues, List.getElem?_append_left (by omega), hkeeps i hi hplace]

end Snapshot

/-! ### Runs of the machine -/

/-- Steps of the machine through states of this kind, up to a state of any kind. -/
inductive Machine.Runs (during : Machine → Prop) (machine : Machine) : Machine → Prop where
  | refl : Runs during machine machine
  | step {before after : Machine} : Runs during machine before → during before →
    Run.step before = (.ok .running, after) → Runs during machine after

namespace Machine

variable {state first after : Machine} {frame : Frame} {rest : List Frame}

theorem step_goes (h : Run.step state = (.ok .running, after)) :
    state.view.step = .goes after.view := by
  rw [← step_eq, h]
  rfl

theorem length_calls (machine : Machine) : machine.view.calls.length = machine.frames.depth :=
  machine.frames.depth_eq.symm

/-- While calls above these frames run, what is below them stays, and they end with a value in
the place of the callee. -/
theorem Runs.inside {calls : List Frame} {base depth : Nat} {below : List Value}
    (hr : first.Runs (fun mid => depth < mid.frames.depth) after)
    (hdepth : calls.length = depth) (h : first.view.Running)
    (hi : first.view.Inside calls base below ∨
      first.view.calls = calls ∧ ∃ value, first.view.values = below ++ [value]) :
    after.view.Running ∧ (after.view.Inside calls base below ∨
      after.view.calls = calls ∧ ∃ value, after.view.values = below ++ [value]) := by
  induction hr with
  | refl => exact ⟨h, hi⟩
  | step _ hdeep hstep ih =>
    obtain ⟨hrunning, hplace⟩ := ih
    have hstep := step_goes hstep
    refine ⟨(hrunning.goes hstep).1, ?_⟩
    rcases hplace with hinside | ⟨hcalls, _⟩
    · exact hinside.step hrunning hstep
    · rw [← length_calls, hcalls, hdepth] at hdeep
      exact absurd hdeep (Nat.lt_irrefl _)

/-- A call that comes to its end has replaced the callee and the arguments by one value. -/
theorem call_returns {count : Nat} (h : state.view.Running)
    (hframes : state.frames.frames = frame :: rest)
    (hat : frame.body.code.Holds frame.ip ⟨.call, [count]⟩)
    (hfirst : Run.step state = (.ok .running, first))
    (hdeep : first.Runs (fun mid => state.frames.depth < mid.frames.depth) after)
    (hdepth : after.frames.depth = state.frames.depth) :
    after.frames.frames = { frame with ip := frame.ip + 2 } :: rest ∧
    ∃ value, after.stack.toList =
      state.stack.toList.take (state.stack.size - count - 1) ++ [value] := by
  have hcalls : state.view.calls = frame :: rest := hframes
  have hlength : state.frames.depth = rest.length + 1 := by
    rw [← length_calls, hcalls]
    rfl
  have hstep := step_goes hfirst
  obtain ⟨running, others, instruction, hp, hmoves⟩ := h.moves hstep
  obtain ⟨rfl, rfl⟩ := List.cons.inj (hcalls.symm.trans hp.calls)
  cases hat.unique hp.holds
  have hheight := hp.height
  have htakes : Instruction.takes ⟨.call, [count]⟩ = count + 1 := rfl
  rw [htakes] at hheight
  have hstart : first.view.Inside ({ frame with ip := frame.ip + 2 } :: rest)
      (state.view.values.length - count)
      (state.view.values.take (state.view.values.length - count - 1)) ∨
      first.view.calls = { frame with ip := frame.ip + 2 } :: rest ∧ ∃ value, first.view.values =
        state.view.values.take (state.view.values.length - count - 1) ++ [value] := by
    cases hmoves with
    | runs next hnext hcalls' hlength' hkeep =>
      cases List.mem_singleton.mp hnext
      refine .inr ⟨hcalls', eq_take_append ?_ fun i hi => ?_⟩
      · rw [hlength', htakes]
        rfl
      · exact hkeep i (by rw [htakes]; omega) nofun
    | enters id body captured _ _ hcalls' _ hkeep =>
      exact .inl ⟨⟨[], _, hcalls', rfl⟩, take_of_take hkeep (Nat.sub_le _ _)⟩
    | leaves _ _ _ ho => rcases ho with ho | ho <;> cases ho
  rw [hlength] at hdeep hdepth
  obtain ⟨_, hinside | hdone⟩ := hdeep.inside rfl (h.goes hstep).1 hstart
  · have := hinside.length_lt
    rw [length_calls, hdepth] at this
    exact absurd this (Nat.lt_irrefl _)
  · rwa [length_values] at hdone

/-- The call at this depth still runs and has not come to the offset. -/
def Before (depth offset : Nat) (machine : Machine) : Prop :=
  depth < machine.frames.depth ∨ machine.frames.depth = depth ∧
    ∀ frame, machine.frames.current? = some frame → frame.ip ≠ offset

theorem Runs.evaluates {start : Snapshot} {limit : Nat} {ends : Nat → Prop}
    (hr : state.Runs (Before (rest.length + 1) limit) after) (h : state.view.Running)
    (he : start.Evaluates frame rest limit ends state.view)
    (hdepth : rest.length < after.frames.depth) :
    after.view.Running ∧ start.Evaluates frame rest limit ends after.view := by
  induction hr with
  | refl => exact ⟨h, he⟩
  | step _ hbefore hstep ih =>
    rename_i before last _
    have hdeep : rest.length < before.frames.depth := by
      rcases hbefore with hlt | ⟨heq, _⟩ <;> omega
    obtain ⟨hrunning, hevaluates⟩ := ih hdeep
    have hstep := step_goes hstep
    refine ⟨(hrunning.goes hstep).1, hevaluates.step hrunning (fun ip hcalls => ?_) hstep ?_⟩
    · rcases hbefore with hlt | ⟨_, hat⟩
      · rw [← length_calls, hcalls] at hlt
        exact absurd hlt (Nat.lt_irrefl _)
      · exact hat _ (congrArg List.head? hcalls)
    · rw [length_calls]
      exact hdepth

/-- Code that gives a value, run from its start to its end in one call, puts that value on top of
what was there. -/
theorem gives_one {site : Site} {p q : Nat} {last : Frame} (h : state.view.Running)
    (hgives : site.Gives 1 p q) (hframes : state.frames.frames = frame :: rest)
    (hcode : frame.body.code = site.code) (hp : frame.ip = p)
    (hr : state.Runs (Before state.frames.depth q) after)
    (hdepth : after.frames.depth = state.frames.depth)
    (hlast : after.frames.current? = some last) (hq : last.ip = q) :
    after.frames.frames = { frame with ip := q } :: rest ∧
    after.stack.size = state.stack.size + 1 ∧
    ∀ i < state.stack.size, i < frame.base ∨ frame.base + frame.body.numLocals ≤ i →
      after.stack.toList[i]? = state.stack.toList[i]? := by
  have hcalls : state.view.calls = frame :: rest := hframes
  have hlength : state.frames.depth = rest.length + 1 := by
    rw [← length_calls, hcalls]
    rfl
  have hbalanced : frame.body.code.Balanced q (· = 1) frame.ip 0 := by
    rw [hcode, hp]
    exact hgives.balanced 0 (.done rfl)
  have hstart : state.view.Evaluates frame rest q (· = 1) state.view :=
    .here frame.ip 0 hcalls hbalanced rfl fun _ _ _ => rfl
  rw [hlength] at hr hdepth
  obtain ⟨_, hend⟩ := hr.evaluates h hstart (by omega)
  cases hend with
  | inside ip depth below hinside _ _ _ =>
    have := hinside.length_lt
    rw [length_calls, hdepth] at this
    exact absurd this (Nat.lt_irrefl _)
  | here ip depth hafter hbalanced hsize hkeeps =>
    have hframe : some last = some { frame with ip } :=
      hlast.symm.trans (congrArg List.head? hafter)
    cases hframe
    cases hbalanced.done_of_eq hq
    cases hq
    rw [length_values, length_values] at hsize
    exact ⟨hafter, hsize, fun i hi => hkeeps i (hi.trans_eq state.length_values.symm)⟩

end Machine

/-! ### The discipline of a unit -/

/-- How runs of the unit, compiled from the tree, use the stack of the machine. -/
structure Bytecode.Disciplined (unit : Bytecode) (tree : Program) (machine : Machine) : Prop where
  /-- The code of the unit is that of the statements, with that of all expressions in it. -/
  laid : ∃ before after, StmtsAt unit.site before 0 tree.statements after unit.code.size
  frames : ∀ state, machine.Visits unit state → state.frames.frames.Pairwise Frame.Above
  /-- There is enough for an instruction above the local slots. A return puts its value in the
  place of the callee, and other instructions change nothing below what they take but for the
  local slot that they write. -/
  steps : ∀ state frame rest instruction, machine.Visits unit state →
    state.frames.frames = frame :: rest → frame.body.code.Holds frame.ip instruction →
    frame.base + frame.body.numLocals + instruction.takes ≤ state.stack.size ∧
    ∀ after, Run.step state = (.ok .running, after) →
      (instruction.opcode = .returnValue ∨ instruction.opcode = .returnNull) ∧
        after.frames.frames = rest ∧
        (∃ value, after.stack.toList = state.stack.toList.take (frame.base - 1) ++ [value]) ∨
      rest.length < after.frames.depth ∧ ∀ i < state.stack.size - instruction.takes,
        (instruction.opcode = .setLocal → i ≠ frame.base + instruction.operand 0) →
        after.stack.toList[i]? = state.stack.toList[i]?
  /-- A call that comes back to its frame has replaced the callee and the arguments. -/
  calls : ∀ state frame rest count first after, machine.Visits unit state →
    state.frames.frames = frame :: rest → frame.body.code.Holds frame.ip ⟨.call, [count]⟩ →
    Run.step state = (.ok .running, first) →
    first.Runs (fun mid => state.frames.depth < mid.frames.depth) after →
    after.frames.depth = state.frames.depth →
    after.frames.frames = { frame with ip := frame.ip + 2 } :: rest ∧
    ∃ value, after.stack.toList =
      state.stack.toList.take (state.stack.size - count - 1) ++ [value]
  /-- From the start to the end of an expression, one value is added to all that is not a local
  slot of the frame. -/
  expressions : ∀ state frame rest site t p tree t' q after last, machine.Visits unit state →
    ExprAt site t p tree t' q → state.frames.frames = frame :: rest →
    frame.body.code = site.code → frame.ip = p →
    state.Runs (Machine.Before state.frames.depth q) after →
    after.frames.depth = state.frames.depth → after.frames.current? = some last →
    last.ip = q →
    after.frames.frames = { frame with ip := q } :: rest ∧
    after.stack.size = state.stack.size + 1 ∧
    ∀ i < state.stack.size, i < frame.base ∨ frame.base + frame.body.numLocals ≤ i →
      after.stack.toList[i]? = state.stack.toList[i]?
  /-- A run that does not end by a return outside of functions has passed the end of the unit. -/
  ends : ∀ steps last, machine.runWithin steps unit = (.finished, last) →
    last.frames.depth = 0 ∨ last.frames.depth = 1 ∧ last.stack.size = 0 ∧
      ∀ frame, last.frames.current? = some frame → frame.ip = frame.body.code.size

/-- What a step does to the stack and to the frames. -/
theorem Machine.step_disciplined {state after : Machine} {frame : Frame} {rest : List Frame}
    {instruction : Instruction} (h : state.view.Running)
    (hframes : state.frames.frames = frame :: rest)
    (hat : frame.body.code.Holds frame.ip instruction)
    (hstep : Run.step state = (.ok .running, after)) :
    (instruction.opcode = .returnValue ∨ instruction.opcode = .returnNull) ∧
      after.frames.frames = rest ∧
      (∃ value, after.stack.toList = state.stack.toList.take (frame.base - 1) ++ [value]) ∨
    rest.length < after.frames.depth ∧ ∀ i < state.stack.size - instruction.takes,
      (instruction.opcode = .setLocal → i ≠ frame.base + instruction.operand 0) →
      after.stack.toList[i]? = state.stack.toList[i]? := by
  obtain ⟨running, others, other, hp, hmoves⟩ := h.moves (step_goes hstep)
  have hcalls : state.view.calls = frame :: rest := hframes
  obtain ⟨rfl, rfl⟩ := List.cons.inj (hcalls.symm.trans hp.calls)
  cases hat.unique hp.holds
  cases hmoves with
  | runs next _ hcalls' _ hkeep =>
    rw [length_values] at hkeep
    refine .inr ⟨?_, hkeep⟩
    rw [← length_calls, hcalls']
    exact Nat.lt_succ_self _
  | enters id body captured ho _ hcalls' _ hkeep =>
    have htakes : instruction.takes = instruction.operand 0 + 1 := by rw [Instruction.takes, ho]
    refine .inr ⟨?_, fun i hi _ => ?_⟩
    · rw [← length_calls, hcalls']
      exact Nat.lt_succ_of_lt (Nat.lt_succ_self _)
    · have hsize := state.length_values
      have hcut := congrArg (·[i]?) hkeep
      rwa [List.getElem?_take_of_lt (by omega), List.getElem?_take_of_lt (by omega)] at hcut
  | leaves value caller more ho _ hcalls' hvalues =>
    exact .inl ⟨ho, hcalls', value, hvalues⟩

/-- There are as many values above the local slots as an instruction takes. -/
theorem Machine.takes_le {state : Machine} {frame : Frame} {rest : List Frame}
    {instruction : Instruction} (h : state.view.Running)
    (hframes : state.frames.frames = frame :: rest)
    (hat : frame.body.code.Holds frame.ip instruction) :
    frame.base + frame.body.numLocals + instruction.takes ≤ state.stack.size := by
  obtain ⟨running, others, hcalls, hnext⟩ := h.poised
  have hcalls' : state.view.calls = frame :: rest := hframes
  obtain ⟨rfl, rfl⟩ := List.cons.inj (hcalls'.symm.trans hcalls)
  rcases hnext with ⟨other, hp⟩ | ⟨hend, _⟩
  · cases hat.unique hp.holds
    exact state.length_values ▸ hp.height
  · have hlt := hat.lt_size
    omega

theorem Bytecode.CompiledAfter.ends {unit : Bytecode} {pool : Array Value}
    (h : unit.CompiledAfter pool) {machine last : Machine} (hg : machine.globals.Sound pool)
    {steps : Nat} (hrun : machine.runWithin steps unit = (.finished, last)) :
    last.frames.depth = 0 ∨ last.frames.depth = 1 ∧ last.stack.size = 0 ∧
      ∀ frame, last.frames.current? = some frame → frame.ip = frame.body.code.size := by
  have hview := machine.runWithin_view steps unit
  rw [hrun] at hview
  obtain ⟨s, hs, hstep⟩ := hview
  rw [← Machine.length_calls]
  rcases (hs.running (h.running hg)).1.calls_of_ends hstep with hnone | ⟨frame, hone, hend, hvalues⟩
  · exact .inl (congrArg List.length hnone)
  · have hsize : last.stack.size = 0 :=
      last.length_values.symm.trans (congrArg List.length hvalues)
    refine .inr ⟨congrArg List.length hone, hsize, fun other ho => ?_⟩
    have hother : last.view.calls.head? = some other := ho
    rw [hone] at hother
    cases hother
    exact hend

/-! ### Units in turn -/

theorem Compiler.compileAll_append (trees more : List Program) (compiler : Compiler) :
    compiler.compileAll (trees ++ more) =
      compiler.compileAll trees ++ (compiler.afterAll trees).compileAll more := by
  induction trees generalizing compiler with
  | nil => rfl
  | cons tree rest ih =>
    rw [List.cons_append, compileAll, compileAll]
    show _ = _ ++ ((compiler.compile tree).2.afterAll rest).compileAll more
    cases hc : compiler.compile tree with
    | mk result later =>
      cases result with
      | error error => exact ih later
      | ok unit => exact congrArg (List.cons unit) (ih later)

/-- The stack discipline holds for every unit that a compiler makes, after any programs that it was
given before and whatever became of their runs. -/
theorem Compiler.disciplined_of_compile {maxDepth : Nat} {trees : List Program} {tree : Program}
    {limits : MachineLimits} {journal : Journal} {unit : Bytecode} {machine : Machine}
    (hlimits : limits.globalsCapacity = Globals.defaultCapacity)
    (hunit : (((create maxDepth).afterAll trees).compile tree).1 = .ok unit)
    (hmachine : (Machine.create limits journal).Follows ((create maxDepth).compileAll trees)
      machine) : unit.Disciplined tree machine := by
  have hready := (ready_create maxDepth).afterAll trees
  have hsuccessive := (ready_create maxDepth).successive (trees ++ [tree])
  rw [compileAll_append, compileAll] at hsuccessive
  cases hc : ((create maxDepth).afterAll trees).compile tree with
  | mk result later =>
  rw [hc] at hunit hsuccessive
  cases hunit
  have hglobals : (Machine.create limits journal).globals.Sound (create maxDepth).constants := by
    show (Globals.empty limits.globalsCapacity).Sound _
    rw [hlimits]
    exact Globals.sound_empty _
  obtain ⟨pool, hunit, hg⟩ := hmachine.sound hsuccessive hglobals
  exact {
    laid := ⟨_, _, (hready.yields hc).laid⟩
    frames := fun state hv => (hunit.visits hg hv).stacked.pairwise
    steps := fun state frame rest instruction hv hframes hat =>
      ⟨Machine.takes_le (hunit.visits hg hv) hframes hat,
        fun after hstep => Machine.step_disciplined (hunit.visits hg hv) hframes hat hstep⟩
    calls := fun state frame rest count first after hv hframes hat hfirst hdeep hdepth =>
      Machine.call_returns (hunit.visits hg hv) hframes hat hfirst hdeep hdepth
    expressions := fun state frame rest site t p tree t' q after last hv hexpr hframes hcode hp
        hr hdepth hlast hq =>
      Machine.gives_one (hunit.visits hg hv) (expr_gives tree hexpr) hframes hcode hp hr hdepth
        hlast hq
    ends := fun steps last hrun => hunit.ends hg hrun }

/-- A return fires inside an array literal: `let f = fn(a) { [a, if (true) { return !a; }] };` and
then `f(true);`. -/
theorem Compiler.disciplined_return_in_array : ∃ first second : Bytecode,
    (create 64).compileAll [⟨[.bind "f" (.function (some "f") ["a"] (.mk [.expr (.array
      [.ident "a" .zero, .ifThen (.boolean true .zero)
        (.mk [.ret (.unary .invert (.ident "a" .zero) .zero) .zero] .zero) .zero]
      .zero) .zero] .zero) .zero) .zero]⟩] = [first] ∧
    second.Disciplined ⟨[.expr (.call (.ident "f" .zero) [.boolean true .zero] .zero) .zero]⟩
      ((Machine.create .default (.opened .off)).runWithin 9 first).2 := by
  let definition : Program := ⟨[.bind "f" (.function (some "f") ["a"] (.mk [.expr (.array
    [.ident "a" .zero, .ifThen (.boolean true .zero)
      (.mk [.ret (.unary .invert (.ident "a" .zero) .zero) .zero] .zero) .zero]
    .zero) .zero] .zero) .zero) .zero]⟩
  let pool : Array Value := #[.compiled 0 ⟨some "f", #[22, 0, 7, 18, 0, 13, 22, 0, 17, 31, 19, 0, 14,
    9, 27, 0, 2, 31], 1, 1⟩]
  have hfirst : (create 64).compileAll [definition] = [⟨#[33, 0, 0, 0, 21, 0, 0], pool⟩] := by cbv
  have hsecond : (((create 64).afterAll [definition]).compile
      ⟨[.expr (.call (.ident "f" .zero) [.boolean true .zero] .zero) .zero]⟩).1 =
      .ok ⟨#[20, 0, 0, 7, 30, 1, 1], pool⟩ := by cbv
  have hmachine : (Machine.create .default (.opened .off)).Follows
      ((create 64).compileAll [definition])
      ((Machine.create .default (.opened .off)).runWithin 9 ⟨#[33, 0, 0, 0, 21, 0, 0], pool⟩).2 := by
    rw [hfirst]
    exact .run 9 .done
  exact ⟨_, _, hfirst, disciplined_of_compile (by rfl) hsecond hmachine⟩

end Simian
