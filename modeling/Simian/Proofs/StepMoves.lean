import Simian.Proofs.Closures
import Simian.Proofs.Snapshot

/-!
# What a step can do

`Snapshot.Poised` is what there has to be for an instruction to run: it stands at the
offset of the running frame, its operands are legal, all values around close over what is
fine, and there are as many values above the local slots as it takes. `Snapshot.Moves` lists what
a step does to frames and stack then: the frame runs on, a call enters a new one, or a
return leaves it. The values below those that an instruction takes stay as they are, but
for the local slot that it writes, and the only faults are those of the program and of
the limits.
-/
namespace Simian

/-- Faults that stand for broken code and not for what a program does. -/
def Fault.IsInternal : Fault → Prop
  | .unknownOpcode .. | .truncatedInstruction .. | .constantOutOfRange _ | .notAFunction _
  | .globalOutOfRange _ | .unknownBuiltin _ | .captureOutOfRange _ | .noActiveFrame => True
  | _ => False

/-- All slots that operands can name, with values that close over what is fine. -/
structure Globals.Close (fine : CompiledFunction → Nat → Prop) (globals : Globals) : Prop where
  capacity_eq : globals.capacity = defaultCapacity
  slots : ∀ value ∈ globals.slots.toList, value.Closes fine

/-- All slots that operands can name, with sound values. -/
abbrev Globals.Sound (pool : Array Value) (globals : Globals) : Prop :=
  globals.Close (Verified pool)

variable {fine : CompiledFunction → Nat → Prop}

theorem Globals.Close.get {globals : Globals} (h : globals.Close fine) {index : Nat}
    (hi : index < maxGlobals) : ∃ value, globals.get index = .ok value ∧ value.Closes fine := by
  refine ⟨(globals.slots[index]?).getD .null, ?_, ?_⟩
  · rw [Globals.get, if_neg]
    rw [h.capacity_eq]
    exact Nat.not_le_of_lt hi
  · cases hs : globals.slots[index]? with
    | none => trivial
    | some value => exact h.slots value (Array.mem_toList_iff.mpr (Array.mem_of_getElem? hs))

theorem Globals.Close.set {globals : Globals} (h : globals.Close fine) {index : Nat}
    (hi : index < maxGlobals) {value : Value} (hv : value.Closes fine) :
    ∃ later, Globals.set index value globals = (.ok (), later) ∧ later.Close fine := by
  obtain ⟨slots, capacity⟩ := globals
  have hcap : ¬capacity ≤ index := by
    have := h.capacity_eq
    dsimp only at this
    rw [this]
    exact Nat.not_le_of_lt hi
  refine ⟨⟨(slots ++ List.replicate (index + 1 - slots.size) Value.null).setIfInBounds index value,
    capacity⟩, by simp only [Globals.set, if_neg hcap], h.capacity_eq, fun v hm => ?_⟩
  rw [Array.toList_setIfInBounds, Array.toList_appendList] at hm
  rcases List.mem_or_eq_of_mem_set hm with hm | rfl
  · rcases List.mem_append.mp hm with hm | hm
    · exact h.slots v hm
    · rw [List.eq_of_mem_replicate hm]
      trivial
  · exact hv

namespace Snapshot

/-- The instruction can run in the frame, which is the innermost one. -/
structure Poised (s : Snapshot) (fine : CompiledFunction → Nat → Prop) (frame : Frame)
    (rest : List Frame) (instruction : Instruction) : Prop where
  calls : s.calls = frame :: rest
  holds : frame.body.code.Holds frame.ip instruction
  legal : instruction.Legal s.constants frame.body.code frame.body.numLocals frame.captured.length
    !rest.isEmpty
  makes : ∀ id inner, instruction.opcode = .closure →
    s.constants[instruction.operand 0]? = some (.compiled id inner) →
    fine inner (instruction.operand 1)
  own : rest ≠ [] → frame.closure.Closes fine
  captured : ∀ value ∈ frame.captured, value.Closes fine
  height : frame.base + frame.body.numLocals + instruction.takes ≤ s.values.length
  base_pos : rest ≠ [] → 0 < frame.base
  values : ∀ value ∈ s.values, value.Closes fine
  globals : s.globals.Close fine

/-- What a step does to frames and stack. -/
inductive Moves (s : Snapshot) (fine : CompiledFunction → Nat → Prop) (frame : Frame)
    (rest : List Frame) (instruction : Instruction) (t : Snapshot) : Prop where
  | runs (next : Nat) : next ∈ instruction.successors frame.ip →
    t.calls = { frame with ip := next } :: rest →
    t.values.length = s.values.length - instruction.takes + instruction.gives →
    (∀ i < s.values.length - instruction.takes,
      (instruction.opcode = .setLocal → i ≠ frame.base + instruction.operand 0) →
      t.values[i]? = s.values[i]?) → Moves s fine frame rest instruction t
  | enters (id : Nat) (body : CompiledFunction) (captured : List Value) :
    instruction.opcode = .call → (Value.closure id body captured).Closes fine →
    t.calls = ⟨id, body, captured, 0, s.values.length - instruction.operand 0⟩ ::
      { frame with ip := frame.ip + instruction.size } :: rest →
    t.values.length = s.values.length - instruction.operand 0 + body.numLocals →
    t.values.take (s.values.length - instruction.operand 0) =
      s.values.take (s.values.length - instruction.operand 0) →
    Moves s fine frame rest instruction t
  | leaves (value : Value) (caller : Frame) (others : List Frame) :
    instruction.opcode = .returnValue ∨ instruction.opcode = .returnNull →
    rest = caller :: others → t.calls = rest →
    t.values = s.values.take (frame.base - 1) ++ [value] → Moves s fine frame rest instruction t

/-- What a poised instruction leads to. -/
inductive Permitted (s : Snapshot) (fine : CompiledFunction → Nat → Prop) (frame : Frame)
    (rest : List Frame) (instruction : Instruction) : Turn → Prop where
  | goes {t : Snapshot} : Moves s fine frame rest instruction t → t.constants = s.constants →
    (∀ value ∈ t.values, value.Closes fine) → t.globals.Close fine →
    Permitted s fine frame rest instruction (.goes t)
  | ends {t : Snapshot} : instruction.opcode = .returnValue ∨ instruction.opcode = .returnNull →
    rest = [] → t.calls = [] → t.globals = s.globals →
    Permitted s fine frame rest instruction (.ends t)
  | fails {fault : Fault} {t : Snapshot} : ¬fault.IsInternal →
    (instruction.opcode == .setLocal) = false → t.globals = s.globals →
    Permitted s fine frame rest instruction (.fails fault t)

/-- The snapshot without the values that the instruction takes, the frame behind it. -/
structure Took (s : Snapshot) (frame : Frame) (rest : List Frame) (instruction : Instruction)
    (t : Snapshot) : Prop where
  calls : t.calls = { frame with ip := frame.ip + instruction.size } :: rest
  values : t.values = s.values.take (s.values.length - instruction.takes)
  constants : t.constants = s.constants
  globals : t.globals = s.globals

section
variable {s t : Snapshot} {frame : Frame} {rest : List Frame} {instruction : Instruction}

theorem Took.push (h : s.Poised fine frame rest instruction) (ht : s.Took frame rest instruction t)
    (hs : frame.ip + instruction.size ∈ instruction.successors frame.ip)
    (hg : instruction.gives = 1) (hset : (instruction.opcode == .setLocal) = false) {value : Value}
    (hv : value.Closes fine) : s.Permitted fine frame rest instruction (t.push value) := by
  have hheight := h.height
  have hlength : t.values.length = s.values.length - instruction.takes := by
    rw [ht.values, List.length_take]
    omega
  unfold Snapshot.push
  split
  · refine .goes (.runs _ hs ht.calls ?_ ?_) ht.constants (fun v hm => ?_) ?_
    · dsimp only
      rw [List.length_append, hlength, hg]
      rfl
    · intro i hi _
      dsimp only
      rw [List.getElem?_append_left (by omega), ht.values, List.getElem?_take_of_lt hi]
    · rcases List.mem_append.mp hm with hm | hm
      · rw [ht.values] at hm
        exact h.values v (List.mem_of_mem_take hm)
      · cases List.mem_singleton.mp hm
        exact hv
    · dsimp only
      rw [ht.globals]
      exact h.globals
  · exact .fails (fun hi => hi) hset ht.globals

theorem Took.settle (h : s.Poised fine frame rest instruction)
    (ht : s.Took frame rest instruction t)
    (hs : frame.ip + instruction.size ∈ instruction.successors frame.ip)
    (hg : instruction.gives = 1) (hset : (instruction.opcode == .setLocal) = false)
    {result : Except OperationError Value}
    (hv : ∀ value, result = .ok value → value.Closes fine) :
    s.Permitted fine frame rest instruction (t.settle result) := by
  cases result with
  | ok value => exact ht.push h hs hg hset (hv value rfl)
  | error error => exact .fails (fun hi => hi) hset ht.globals

/-- Taking values and going on somewhere. -/
theorem Took.goes (h : s.Poised fine frame rest instruction) {next : Nat}
    (hs : next ∈ instruction.successors frame.ip) (hg : instruction.gives = 0)
    (hcalls : t.calls = { frame with ip := next } :: rest)
    (hvalues : t.values = s.values.take (s.values.length - instruction.takes))
    (hconstants : t.constants = s.constants) (hglobals : t.globals.Close fine) :
    s.Permitted fine frame rest instruction (.goes t) := by
  have hheight := h.height
  refine .goes (.runs next hs hcalls ?_ ?_) hconstants (fun v hm => ?_) hglobals
  · rw [hvalues, List.length_take, hg]
    omega
  · intro i hi _
    rw [hvalues, List.getElem?_take_of_lt hi]
  · rw [hvalues] at hm
    exact h.values v (List.mem_of_mem_take hm)

theorem closes_top (h : ∀ value ∈ t.values, value.Closes fine) :
    t.top.Closes fine := by
  unfold top
  cases hl : t.values.getLast? with
  | none => trivial
  | some value => exact h value (List.mem_of_getLast? hl)

theorem closes_dropped (h : ∀ value ∈ t.values, value.Closes fine) :
    ∀ value ∈ t.dropped.values, value.Closes fine :=
  fun value hm => h value ((List.dropLast_sublist _).mem hm)

theorem closes_topValues (h : ∀ value ∈ t.values, value.Closes fine)
    (count : Nat) : ∀ value ∈ t.topValues count, value.Closes fine :=
  fun value hm => h value (List.mem_of_mem_drop hm)

/-- The snapshot with the frame behind the instruction and nothing else changed. -/
structure Went (s : Snapshot) (frame : Frame) (rest : List Frame) (instruction : Instruction)
    (t : Snapshot) : Prop where
  calls : t.calls = { frame with ip := frame.ip + instruction.size } :: rest
  values : t.values = s.values
  constants : t.constants = s.constants
  globals : t.globals = s.globals

theorem Went.takeNone (h : s.Went frame rest instruction t) (ht : instruction.takes = 0) :
    s.Took frame rest instruction t :=
  ⟨h.calls, by rw [ht, h.values]; exact (List.take_length).symm, h.constants, h.globals⟩

theorem Went.takeOne (h : s.Went frame rest instruction t) (ht : instruction.takes = 1) :
    s.Took frame rest instruction t.dropped := by
  refine ⟨h.calls, ?_, h.constants, h.globals⟩
  rw [ht, ← h.values]
  exact List.dropLast_eq_take

theorem Went.takeTwo (h : s.Went frame rest instruction t) (ht : instruction.takes = 2) :
    s.Took frame rest instruction t.dropped.dropped := by
  refine ⟨h.calls, ?_, h.constants, h.globals⟩
  have hlast : ∀ u : Snapshot, u.dropped.values = u.values.take (u.values.length - 1) :=
    fun _ => List.dropLast_eq_take
  rw [ht, hlast, hlast, List.take_take, List.length_take, h.values]
  congr 1
  omega

theorem Went.takeMany (h : s.Went frame rest instruction t) {count : Nat}
    (ht : instruction.takes = count) : s.Took frame rest instruction (t.without count) := by
  refine ⟨h.calls, ?_, h.constants, h.globals⟩
  rw [ht, ← h.values]
  rfl

theorem step_of_holds (hcalls : s.calls = frame :: rest)
    (hat : frame.body.code.Holds frame.ip instruction) :
    s.step = { s with calls := { frame with ip := frame.ip + instruction.size } :: rest }.execute
      { frame with ip := frame.ip + instruction.size } instruction := by
  unfold step
  rw [hcalls]
  dsimp only
  rw [show frame.body.code.decode? frame.ip = some (.ok instruction) from hat]

theorem calls_jumped {frame : Frame} (h : t.calls = frame :: rest) (ip : Nat) :
    (t.jumped ip).calls = { frame with ip } :: rest := by
  rw [jumped, h]

theorem values_jumped (t : Snapshot) (ip : Nat) : (t.jumped ip).values = t.values := by
  unfold jumped
  split <;> rfl

theorem constants_jumped (t : Snapshot) (ip : Nat) : (t.jumped ip).constants = t.constants := by
  unfold jumped
  split <;> rfl

theorem globals_jumped (t : Snapshot) (ip : Nat) : (t.jumped ip).globals = t.globals := by
  unfold jumped
  split <;> rfl

/-- Leaving a call gives its value to the caller. -/
theorem Poised.leave (h : s.Poised fine frame rest instruction)
    (ho : instruction.opcode = .returnValue ∨ instruction.opcode = .returnNull)
    (ht : s.Took frame rest instruction t) {value : Value} (hv : value.Closes fine) :
    s.Permitted fine frame rest instruction (t.leave value) := by
  have hset : (instruction.opcode == .setLocal) = false := by
    rcases ho with ho | ho <;> rw [ho] <;> rfl
  have hheight := h.height
  have hcalls := ht.calls
  cases rest with
  | nil =>
    unfold Snapshot.leave
    rw [hcalls]
    exact .ends ho rfl rfl ht.globals
  | cons caller others =>
    have hpos := h.base_pos (List.cons_ne_nil _ _)
    have hlow : frame.base - 1 ≤ s.values.length - instruction.takes := by omega
    have hvalues : ({ t with calls := caller :: others } : Snapshot).resized (frame.base - 1) =
        { t with calls := caller :: others, values := s.values.take (frame.base - 1) } := by
      simp only [Snapshot.resized, ht.values, List.take_take, List.length_take]
      rw [Nat.min_eq_left hlow, show frame.base - 1 -
        min (s.values.length - instruction.takes) s.values.length = 0 by omega]
      simp
    unfold Snapshot.leave Snapshot.reshape
    rw [hcalls]
    dsimp only
    split
    · rw [hvalues]
      unfold Snapshot.push
      split
      · refine .goes (.leaves value caller others ho rfl rfl rfl) ht.constants (fun v hm => ?_) ?_
        · rcases List.mem_append.mp hm with hm | hm
          · exact h.values v (List.mem_of_mem_take hm)
          · cases List.mem_singleton.mp hm
            exact hv
        · dsimp only
          rw [ht.globals]
          exact h.globals
      · exact .fails (fun hi => hi) hset ht.globals
    · exact .fails (fun hi => hi) hset ht.globals

/-- A call enters the closure, or fails at its arguments or at a limit. -/
theorem Poised.callClosure {count id : Nat} {body : CompiledFunction} {captured : List Value}
    (h : s.Poised fine frame rest instruction) (ho : instruction.opcode = .call)
    (hcount : instruction.operand 0 = count) (ht : s.Went frame rest instruction t)
    (hv : (Value.closure id body captured).Closes fine) :
    s.Permitted fine frame rest instruction (t.callClosure id body captured count) := by
  have hset : (instruction.opcode == .setLocal) = false := by rw [ho]; rfl
  unfold Snapshot.callClosure
  split
  · exact .fails (fun hi => hi) hset ht.globals
  split
  case isFalse => exact .fails (fun hi => hi) hset ht.globals
  unfold Snapshot.reshape
  dsimp only
  split
  case isFalse => exact .fails (fun hi => hi) hset ht.globals
  refine .goes (.enters id body captured ho hv ?_ ?_ ?_) ht.constants (fun v hm => ?_) ?_
  · rw [hcount, ← ht.values, ← ht.calls]
    rfl
  · simp only [Snapshot.resized, ht.values, List.length_append, List.length_take,
      List.length_replicate, hcount]
    omega
  · simp only [Snapshot.resized, ht.values, hcount]
    rw [List.take_append_of_le_length (by rw [List.length_take]; omega), List.take_take,
      Nat.min_eq_left (by omega)]
  · simp only [Snapshot.resized, ht.values] at hm
    rcases List.mem_append.mp hm with hm | hm
    · exact h.values v (List.mem_of_mem_take hm)
    · rw [List.eq_of_mem_replicate hm]
      trivial
  · show t.globals.Close fine
    rw [ht.globals]
    exact h.globals

theorem Poised.callBuiltin {count : Nat} {builtin : Builtin}
    (h : s.Poised fine frame rest instruction) (ho : instruction.opcode = .call)
    (hcount : instruction.operand 0 = count) (ht : s.Went frame rest instruction t) :
    s.Permitted fine frame rest instruction (t.callBuiltin builtin count) := by
  have hset : (instruction.opcode == .setLocal) = false := by rw [ho]; rfl
  have hcloses : ∀ value ∈ t.values, value.Closes fine := ht.values ▸ h.values
  unfold Snapshot.callBuiltin
  split
  next value sink hcall =>
    have hv := Builtin.closes_call (closes_topValues hcloses count) hcall
    unfold Snapshot.reshape
    dsimp only
    split
    · refine Took.push (t := Snapshot.resized { t with sink } (t.values.length - count - 1)) h
        ⟨ht.calls, ?_, ht.constants, ht.globals⟩ ?_ ?_ hset hv
      · have htakes : instruction.takes = count + 1 := by rw [Instruction.takes, ho, hcount]
        simp only [Snapshot.resized, ht.values, htakes]
        rw [show s.values.length - count - 1 - s.values.length = 0 by omega, List.replicate_zero,
          List.append_nil, Nat.sub_sub]
      · rw [Instruction.successors, ho]
        exact List.mem_singleton_self _
      · rw [Instruction.gives, ho]
    · exact .fails (fun hi => hi) hset ht.globals
  · exact .fails (fun hi => hi) hset ht.globals

theorem closes_callee (h : ∀ value ∈ t.values, value.Closes fine)
    (count : Nat) : (t.callee count).Closes fine := by
  unfold callee
  split
  · cases hv : t.values[t.values.length - (count + 1)]? with
    | none => trivial
    | some value => exact h value (List.mem_of_getElem? hv)
  · trivial

theorem closes_pairUp : ∀ {values : List Value},
    (∀ value ∈ values, value.Closes fine) → ∀ pair ∈ Run.pairUp values, pair.2.Closes fine
  | [], _, _, hp => by cases hp
  | [_], _, _, hp => by cases hp
  | key :: value :: rest, h, pair, hp => by
    rw [Run.pairUp] at hp
    rcases List.mem_cons.mp hp with rfl | hp
    · exact h value (List.mem_cons_of_mem _ List.mem_cons_self)
    · exact closes_pairUp (fun v hv => h v (List.mem_cons_of_mem _ (List.mem_cons_of_mem _ hv)))
        pair hp

/-- A local slot can be written: it lies below the values that the frame works with. -/
theorem Poised.setLocal {slot : Nat} (h : s.Poised fine frame rest instruction)
    (ho : instruction.opcode = .setLocal) (hslot : instruction.operand 0 = slot)
    (ht : s.Went frame rest instruction t) :
    s.Permitted fine frame rest instruction
      (if frame.base + slot < t.dropped.values.length then
        .goes { t.dropped with values := t.dropped.values.set (frame.base + slot) t.top }
      else .fails .stackOverflow t.dropped) := by
  have hlegal := h.legal
  have hheight := h.height
  have htakes : instruction.takes = 1 := by rw [Instruction.takes, ho]
  have htook := ht.takeOne htakes
  rw [Instruction.Legal, ho, hslot] at hlegal
  dsimp only at hlegal
  have hlength : t.dropped.values.length = s.values.length - 1 := by
    rw [htook.values, htakes, List.length_take]
    omega
  rw [if_pos (by omega)]
  refine .goes (.runs (frame.ip + instruction.size) ?_ htook.calls ?_ ?_) htook.constants
    (fun v hm => ?_) ?_
  · rw [Instruction.successors, ho]
    exact List.mem_singleton_self _
  · dsimp only
    rw [List.length_set, hlength, htakes, Instruction.gives, ho]
    rfl
  · intro i hi hne
    have hne := hne ho
    rw [hslot] at hne
    rw [htakes] at hi
    dsimp only
    rw [List.getElem?_set_ne (Ne.symm hne), htook.values, htakes, List.getElem?_take_of_lt hi]
  · rcases List.mem_or_eq_of_mem_set hm with hm | rfl
    · rw [htook.values] at hm
      exact h.values v (List.mem_of_mem_take hm)
    · exact closes_top (ht.values ▸ h.values)
  · show t.globals.Close fine
    rw [ht.globals]
    exact h.globals

theorem Poised.makeClosure (h : s.Poised fine frame rest instruction)
    (ho : instruction.opcode = .closure) (ht : s.Went frame rest instruction t) :
    s.Permitted fine frame rest instruction
      (t.makeClosure (instruction.operand 0) (instruction.operand 1)) := by
  have hlegal := h.legal
  have hheight := h.height
  have htakes : instruction.takes = instruction.operand 1 := by rw [Instruction.takes, ho]
  rw [Instruction.Legal, ho] at hlegal
  obtain ⟨id, body, hp⟩ := hlegal
  have htook := ht.takeMany htakes
  have hcloses := closes_topValues (ht.values ▸ h.values) (instruction.operand 1)
  have hlength : (t.topValues (instruction.operand 1)).length = instruction.operand 1 := by
    rw [topValues, List.length_drop, ht.values]
    omega
  unfold Snapshot.makeClosure
  rw [ht.constants, hp]
  refine Took.push (t := { t.without (instruction.operand 1) with nextId := t.nextId + 1 }) h
    ⟨htook.calls, htook.values, htook.constants, htook.globals⟩ ?_ ?_ ?_
    ⟨?_, Value.allClose_iff.mpr hcloses⟩
  · rw [Instruction.successors, ho]
    exact List.mem_singleton_self _
  · rw [Instruction.gives, ho]
  · rw [ho]
    rfl
  · rw [hlength]
    exact h.makes id body ho hp

theorem Poised.binary (h : s.Poised fine frame rest instruction) (op : BinaryOp)
    (hs : frame.ip + instruction.size ∈ instruction.successors frame.ip)
    (hg : instruction.gives = 1) (hset : (instruction.opcode == .setLocal) = false)
    (ht : s.Took frame rest instruction t.dropped.dropped) :
    s.Permitted fine frame rest instruction (t.binary op) :=
  ht.settle h hs hg hset fun _ hv => (BinaryOp.isScalar_of_apply hv).closes

theorem Poised.unary (h : s.Poised fine frame rest instruction) (op : UnaryOp)
    (hs : frame.ip + instruction.size ∈ instruction.successors frame.ip)
    (hg : instruction.gives = 1) (hset : (instruction.opcode == .setLocal) = false)
    (ht : s.Took frame rest instruction t.dropped) :
    s.Permitted fine frame rest instruction (t.unary op) :=
  ht.settle h hs hg hset fun _ hv => (UnaryOp.isScalar_of_apply hv).closes

/-- A step from where an instruction is poised does what is permitted. -/
theorem Poised.permitted (h : s.Poised fine frame rest instruction) :
    s.Permitted fine frame rest instruction s.step := by
  rw [step_of_holds h.calls h.holds]
  have hwent : s.Went frame rest instruction
      { s with calls := { frame with ip := frame.ip + instruction.size } :: rest } :=
    ⟨rfl, rfl, rfl, rfl⟩
  generalize ({ s with calls := _ } : Snapshot) = t at hwent
  have hvalues : ∀ value ∈ t.values, value.Closes fine := hwent.values ▸ h.values
  have hlegal := h.legal
  obtain ⟨opcode, operands⟩ := instruction
  cases opcode with
  | constant =>
    obtain ⟨value, hv, hk⟩ := hlegal
    simp only [execute]
    rw [hwent.constants, hv]
    refine (hwent.takeNone rfl).push h (List.mem_singleton_self _) rfl rfl ?_
    cases value <;> first | trivial | (rcases hk with hk | hk <;> cases hk)
  | pop =>
    have htook := hwent.takeOne rfl
    exact Took.goes h (List.mem_singleton_self _) rfl htook.calls htook.values htook.constants
      (htook.globals ▸ h.globals)
  | pushTrue | pushFalse | pushNull =>
    exact (hwent.takeNone rfl).push h (List.mem_singleton_self _) rfl rfl trivial
  | add | sub | mul | div | mod | equal | notEqual | greaterThan | greaterEqual | lessThan
  | lessEqual =>
    exact h.binary _ (List.mem_singleton_self _) rfl rfl (hwent.takeTwo rfl)
  | minus | bang =>
    exact h.unary _ (List.mem_singleton_self _) rfl rfl (hwent.takeOne rfl)
  | jump =>
    have htook := hwent.takeNone rfl
    exact Took.goes h (List.mem_singleton_self _) rfl (calls_jumped htook.calls _)
      ((values_jumped _ _).trans htook.values) ((constants_jumped _ _).trans htook.constants)
      ((globals_jumped _ _).trans htook.globals ▸ h.globals)
  | jumpNotTruthy =>
    have htook := hwent.takeOne rfl
    simp only [execute]
    split
    · exact Took.goes h List.mem_cons_self rfl htook.calls htook.values htook.constants
        (htook.globals ▸ h.globals)
    · exact Took.goes h (List.mem_cons_of_mem _ (List.mem_singleton_self _)) rfl
        (calls_jumped htook.calls _) ((values_jumped _ _).trans htook.values)
        ((constants_jumped _ _).trans htook.constants)
        ((globals_jumped _ _).trans htook.globals ▸ h.globals)
  | getGlobal =>
    obtain ⟨value, hget, hv⟩ := h.globals.get hlegal
    simp only [execute]
    rw [hwent.globals, hget]
    exact (hwent.takeNone rfl).push h (List.mem_singleton_self _) rfl rfl hv
  | setGlobal =>
    obtain ⟨globals, hset, hg⟩ := h.globals.set hlegal (closes_top hvalues)
    have htook := hwent.takeOne rfl
    simp only [execute]
    rw [hwent.globals, hset]
    exact Took.goes h (List.mem_singleton_self _) rfl htook.calls htook.values htook.constants hg
  | getLocal =>
    refine (hwent.takeNone rfl).push h (List.mem_singleton_self _) rfl rfl ?_
    cases hv : t.values[frame.base + Instruction.operand ⟨.getLocal, operands⟩ 0]? with
    | none => trivial
    | some value => exact hvalues value (List.mem_of_getElem? hv)
  | setLocal => exact h.setLocal rfl rfl hwent
  | getBuiltin =>
    obtain ⟨builtin, hb⟩ := hlegal
    simp only [execute]
    rw [hb]
    exact (hwent.takeNone rfl).push h (List.mem_singleton_self _) rfl rfl trivial
  | getFree =>
    have hlegal : Instruction.operand ⟨.getFree, operands⟩ 0 < frame.captured.length := hlegal
    have hcapture := List.getElem?_eq_getElem hlegal
    simp only [execute, Frame.capture]
    rw [hcapture]
    exact (hwent.takeNone rfl).push h (List.mem_singleton_self _) rfl rfl
      (h.captured _ (List.getElem_mem hlegal))
  | currentClosure =>
    refine (hwent.takeNone rfl).push h (List.mem_singleton_self _) rfl rfl (h.own fun hr => ?_)
    rw [hr] at hlegal
    cases hlegal
  | array =>
    exact (hwent.takeMany rfl).push h (List.mem_singleton_self _) rfl rfl
      (Value.allClose_iff.mpr (closes_topValues hvalues _))
  | hash =>
    exact (hwent.takeMany rfl).settle h (List.mem_singleton_self _) rfl rfl
      fun _ hv => Value.closes_ofPairs (closes_pairUp (closes_topValues hvalues _)) hv
  | index =>
    exact (hwent.takeTwo rfl).settle h (List.mem_singleton_self _) rfl rfl
      fun _ hv => Value.closes_index (closes_top (closes_dropped hvalues)) hv
  | call =>
    have hcallee := closes_callee hvalues (Instruction.operand ⟨.call, operands⟩ 0)
    simp only [execute, Snapshot.call]
    split
    next id body captured hc =>
      rw [hc] at hcallee
      exact h.callClosure rfl rfl hwent hcallee
    · exact h.callBuiltin rfl rfl hwent
    · exact .fails (fun hi => hi) rfl hwent.globals
  | returnValue => exact h.leave (.inl rfl) (hwent.takeOne rfl) (closes_top hvalues)
  | returnNull => exact h.leave (.inr rfl) (hwent.takeNone rfl) trivial
  | closure => exact h.makeClosure rfl hwent

end

end Snapshot

end Simian
