import Simian.Proofs.UnguardedRuns

/-!
# No code crashes the machine

Code that no compiler made may take values from below its own frame, jump anywhere and call
with any number of arguments. `Snapshot.Sturdy` holds at every step all the same: the stack
and the calls stay within their limits, and a called frame starts above its callee and within
the stack. On a snapshot of that kind the bare machine has an outcome for every step, the one
that the machine has, and no end of a call fails.
-/
namespace Simian

/-! ### What holds at every step -/

namespace Snapshot

/-- Where the called frames start, all but the outermost. -/
def bases (s : Snapshot) : List Nat := (s.calls.map Frame.base).dropLast

structure Sturdy (s : Snapshot) : Prop where
  height : s.values.length ≤ s.room
  depth : s.calls.length ≤ s.callLimit
  bases : ∀ base ∈ s.bases, 1 ≤ base ∧ base ≤ s.room

section
variable {s : Snapshot}

/-- The values may be others, as long as there is room for them. -/
theorem Sturdy.holds (h : s.Sturdy) {values : List Value} (hv : values.length ≤ s.room) :
    { s with values }.Sturdy := ⟨hv, h.depth, h.bases⟩

theorem Sturdy.dropped (h : s.Sturdy) : s.dropped.Sturdy := by
  apply h.holds
  rw [List.length_dropLast]
  exact Nat.le_trans (Nat.sub_le ..) h.height

theorem Sturdy.without (h : s.Sturdy) (count : Nat) : (s.without count).Sturdy := by
  apply h.holds
  rw [List.length_take]
  exact Nat.le_trans (Nat.min_le_right ..) h.height

theorem length_resized (size : Nat) : (s.resized size).values.length = size := by
  simp only [Snapshot.resized, List.length_append, List.length_take, List.length_replicate]
  omega

theorem Sturdy.resized (h : s.Sturdy) {size : Nat} (hs : size ≤ s.room) :
    (s.resized size).Sturdy := by
  apply h.holds
  show (s.resized size).values.length ≤ s.room
  rwa [length_resized]

/-- Going on elsewhere changes no place where a frame starts. -/
theorem Sturdy.jumped (h : s.Sturdy) (ip : Nat) : (s.jumped ip).Sturdy := by
  have hdepth := h.depth
  have hbases := h.bases
  unfold Snapshot.bases at hbases
  unfold Snapshot.jumped
  cases hc : s.calls with
  | nil => exact h
  | cons frame rest =>
    rw [hc] at hdepth hbases
    exact ⟨h.height, hdepth, hbases⟩

theorem Sturdy.push (h : s.Sturdy) (value : Value) : (s.push value).after.Sturdy := by
  unfold Snapshot.push
  split
  next hroom =>
    apply h.holds
    rw [List.length_append, List.length_singleton]
    exact hroom
  next => exact h

theorem Sturdy.settle (h : s.Sturdy) (result : Except OperationError Value) :
    (s.settle result).after.Sturdy := by
  cases result with
  | ok value => exact h.push value
  | error error => exact h

theorem Sturdy.reshape (h : s.Sturdy) (size : Nat) {next : Snapshot → Turn}
    (hn : ∀ t : Snapshot, t.Sturdy → (next t).after.Sturdy) :
    (s.reshape size next).after.Sturdy := by
  unfold Snapshot.reshape
  split
  next hs => exact hn _ (h.resized hs)
  next => exact h

/-- The caller is back, and its callee had started within the stack. -/
theorem Sturdy.caller {frame caller : Frame} {rest : List Frame} (h : s.Sturdy)
    (hc : s.calls = frame :: caller :: rest) :
    { s with calls := caller :: rest }.Sturdy ∧ 1 ≤ frame.base ∧ frame.base ≤ s.room := by
  have hdepth := h.depth
  have hbases := h.bases
  unfold Snapshot.bases at hbases
  rw [hc] at hdepth hbases
  refine ⟨⟨h.height, Nat.le_of_succ_le hdepth, fun base hb => ?_⟩, ?_⟩
  · exact hbases base (List.mem_cons_of_mem _ hb)
  · exact hbases frame.base List.mem_cons_self

theorem Sturdy.leave (h : s.Sturdy) (value : Value) : (s.leave value).after.Sturdy := by
  unfold Snapshot.leave
  split
  · exact h
  · exact ⟨h.height, Nat.zero_le _, by simp [Snapshot.bases, Turn.after]⟩
  next hc => exact (h.caller hc).1.reshape _ fun t ht => ht.push value

/-- A callee that is a function was found on the stack, so the arguments are all there and there is
a place below them. -/
theorem callee_lt {count : Nat} (h : s.callee count ≠ .null) : count < s.values.length := by
  unfold callee at h
  split at h
  next hlt => exact hlt
  next => exact absurd rfl h

/-- A new frame starts above its callee. -/
theorem Sturdy.called (h : s.Sturdy) (hroom : s.calls.length < s.callLimit) (id : Nat)
    (body : CompiledFunction) (captured : List Value) {count : Nat}
    (hcount : count < s.values.length) :
    { s with calls := ⟨id, body, captured, 0, s.values.length - count⟩ :: s.calls }.Sturdy := by
  refine ⟨h.height, hroom, ?_⟩
  have hheight := h.height
  have hbases := h.bases
  unfold Snapshot.bases at hbases ⊢
  cases hc : s.calls with
  | nil => simp
  | cons frame rest =>
    intro base hb
    rw [hc] at hbases
    rcases List.mem_cons.mp hb with rfl | hb
    · show 1 ≤ s.values.length - count ∧ s.values.length - count ≤ s.room
      omega
    · exact hbases base hb

theorem Sturdy.callClosure (h : s.Sturdy) (id : Nat) (body : CompiledFunction)
    (captured : List Value) {count : Nat} (hcount : count < s.values.length) :
    (s.callClosure id body captured count).after.Sturdy := by
  unfold Snapshot.callClosure
  split
  · exact h
  split
  next hroom =>
    have hcalled := h.called hroom id body captured hcount
    dsimp only
    exact hcalled.reshape _ fun t ht => ht
  next => exact h

theorem Sturdy.callBuiltin (h : s.Sturdy) (builtin : Builtin) (count : Nat) :
    (s.callBuiltin builtin count).after.Sturdy := by
  unfold Snapshot.callBuiltin
  split
  next value sink hcall =>
    have hsink : { s with sink }.Sturdy := ⟨h.height, h.depth, h.bases⟩
    exact hsink.reshape _ fun t ht => ht.push value
  next => exact ⟨h.height, h.depth, h.bases⟩

theorem Sturdy.call (h : s.Sturdy) (count : Nat) : (s.call count).after.Sturdy := by
  unfold Snapshot.call
  split
  next id body captured hc => exact h.callClosure id body captured (callee_lt (by simp [hc]))
  next builtin hc => exact h.callBuiltin builtin count
  next => exact h

theorem Sturdy.makeClosure (h : s.Sturdy) (index count : Nat) :
    (s.makeClosure index count).after.Sturdy := by
  have hwithout := h.without count
  unfold Snapshot.makeClosure
  split
  · exact Sturdy.push (s := { s.without count with nextId := s.nextId + 1 })
      ⟨hwithout.height, hwithout.depth, hwithout.bases⟩ _
  · exact h
  · exact h

theorem Sturdy.execute (h : s.Sturdy) (frame : Frame) (instruction : Instruction) :
    (s.execute frame instruction).after.Sturdy := by
  unfold Snapshot.execute
  cases instruction.opcode with
  | pushTrue | pushFalse | pushNull | getLocal | currentClosure => exact h.push _
  | constant | getBuiltin | getFree | getGlobal =>
    dsimp only
    split
    · exact h.push _
    · exact h
  | setGlobal =>
    dsimp only
    split <;> exact ⟨h.dropped.height, h.depth, h.bases⟩
  | setLocal =>
    dsimp only
    split
    · apply h.dropped.holds
      rw [List.length_set]
      exact h.dropped.height
    · exact h.dropped
  | add | sub | mul | div | mod | equal | notEqual | greaterThan | greaterEqual | lessThan
  | lessEqual | index => exact h.dropped.dropped.settle _
  | minus | bang => exact h.dropped.settle _
  | pop => exact ⟨h.dropped.height, h.depth, h.bases⟩
  | jump => exact h.jumped _
  | jumpNotTruthy =>
    dsimp only [Turn.after]
    split
    · exact h.dropped
    · exact h.dropped.jumped _
  | returnValue => exact h.dropped.leave _
  | returnNull => exact h.leave _
  | array => exact (h.without _).push _
  | hash => exact (h.without _).settle _
  | call => exact h.call _
  | closure => exact h.makeClosure _ _

/-- Every step keeps to the limits, whatever the code. -/
theorem Sturdy.step (h : s.Sturdy) : s.step.after.Sturdy := by
  unfold Snapshot.step
  split
  · exact h
  next frame rest hc =>
    split
    · split
      · exact h
      · exact h.leave _
    · exact h
    next instruction hd =>
      have hjumped := h.jumped (frame.ip + instruction.size)
      rw [Snapshot.jumped, hc] at hjumped
      exact hjumped.execute _ _

theorem Sturdy.runSteps (h : s.Sturdy) (steps : Nat) : (s.runSteps steps).2.Sturdy := by
  induction steps generalizing s with
  | zero => exact h
  | succ steps ih =>
    have hstep := h.step
    rw [Snapshot.runSteps]
    generalize s.step = turn at hstep
    cases turn with
    | goes after => exact ih hstep
    | ends after => exact hstep
    | fails fault after => exact hstep

end

/-- A unit starts on an empty stack, in the only frame. -/
theorem sturdy_loaded (s : Snapshot) (unit : Bytecode) (h : 0 < s.callLimit) :
    (s.loaded unit).Sturdy :=
  ⟨Nat.zero_le _, h, by simp [loaded, bases]⟩

theorem sturdy_runUnit (steps : Nat) (unit : Bytecode) (s : Snapshot) :
    (s.runUnit steps unit).2.Sturdy := by
  unfold runUnit
  split
  next hroom => exact (sturdy_loaded s unit hroom).runSteps steps
  next => exact ⟨Nat.zero_le _, Nat.zero_le _, by simp [bases]⟩

/-! ### Leaving a call -/

/-- The call goes back to its caller with the stack cut below the callee, or the unit ends. -/
theorem Sturdy.leave_ok {s : Snapshot} (h : s.Sturdy) (value : Value) :
    ∀ fault after, s.leave value ≠ .fails fault after := by
  intro fault after
  unfold Snapshot.leave
  split
  · rintro ⟨⟩
  · rintro ⟨⟩
  next frame caller rest hc =>
    obtain ⟨-, hpos, hroom⟩ := h.caller hc
    have hsize : frame.base - 1 ≤ s.room := by omega
    let back := { s with calls := caller :: rest }.resized (frame.base - 1)
    have hlow : back.values.length < back.room := by
      show back.values.length < s.room
      rw [length_resized]
      omega
    have hpush : back.push value = .goes { back with values := back.values ++ [value] } :=
      if_pos hlow
    rw [Snapshot.reshape, if_pos hsize, hpush]
    rintro ⟨⟩

/-! ### The bare machine does the same -/

/-- The bare machine that holds the same. -/
def bare (s : Snapshot) : Bare :=
  ⟨s.constants, .holding s.values s.room, s.calls, s.callLimit, s.globals, s.lastPopped, s.sink,
    s.nextId⟩

end Snapshot

namespace Turn

/-- A piece of work on the bare machine has the outcome that the turn says. -/
def Worked : Turn → Option (Except Fault Unit × Bare) → Prop
  | goes after, outcome => outcome = some (.ok (), after.bare)
  | ends _, _ => False
  | fails fault after, outcome => outcome = some (.error fault, after.bare)

/-- The outcome of a step of the bare machine. -/
def stepped : Turn → Option (Except Fault Progress × Bare)
  | goes after => some (.ok .running, after.bare)
  | ends after => some (.ok .finished, after.bare)
  | fails fault after => some (.error fault, after.bare)

end Turn

namespace Raw

variable {α β : Type}

theorem bind_of_ok {first : Raw α} {next : α → Raw β} {bare after : Bare} {value : α}
    (h : first bare = some (.ok value, after)) : (first >>= next) bare = next value after := by
  simp only [bind, h]

theorem bind_of_error {first : Raw α} {next : α → Raw β} {bare after : Bare} {fault : Fault}
    (h : first bare = some (.error fault, after)) :
    (first >>= next) bare = some (.error fault, after) := by
  simp only [bind, h]

section
variable {s : Snapshot}

theorem onMemory_bare {work : Memory → Option (Except Fault α × Memory)} {result : Except Fault α}
    {values : List Value}
    (hw : work (.holding s.values s.room) = some (result, .holding values s.room)) :
    onMemory work s.bare = some (result, { s with values }.bare) := by
  unfold onMemory
  rw [show s.bare.memory = .holding s.values s.room from rfl, hw]
  rfl

theorem look_bare {query : Memory → Option α} {value : α}
    (hq : query (.holding s.values s.room) = some value) :
    look query s.bare = some (.ok value, s.bare) := by
  unfold look
  rw [show s.bare.memory = .holding s.values s.room from rfl, hq]
  rfl

theorem push_bare (h : s.Sturdy) (value : Value) : (s.push value).Worked (push value s.bare) := by
  have hpush := Memory.push_holding h.height value
  unfold Snapshot.push
  split at hpush
  next hroom => rw [if_pos hroom]; exact onMemory_bare hpush
  next hroom => rw [if_neg hroom]; exact onMemory_bare hpush

theorem pop_bare (h : s.Sturdy) : pop s.bare = some (.ok s.top, s.dropped.bare) := by
  apply onMemory_bare
  rw [Memory.pop_holding h.height]
  rfl

theorem takeTop_bare (h : s.Sturdy) (count : Nat) :
    takeTop count s.bare = some (.ok (s.topValues count), (s.without count).bare) := by
  apply onMemory_bare
  rw [Memory.takeTop_holding h.height]
  rfl

theorem resize_bare (h : s.Sturdy) {size : Nat} (hs : size ≤ s.room) :
    resize size s.bare = some (.ok (), (s.resized size).bare) := by
  apply onMemory_bare
  rw [Memory.resize_holding h.height, if_pos hs]

theorem resize_bare_full (h : s.Sturdy) {size : Nat} (hs : ¬size ≤ s.room) :
    resize size s.bare = some (.error .stackOverflow, s.bare) := by
  apply onMemory_bare
  rw [Memory.resize_holding h.height, if_neg hs]

theorem reshape_bare (h : s.Sturdy) (size : Nat) {work : Raw Unit} {next : Snapshot → Turn}
    (hn : ∀ t : Snapshot, t.Sturdy → (next t).Worked (work t.bare)) :
    (s.reshape size next).Worked ((do
      resize size
      work : Raw Unit) s.bare) := by
  by_cases hs : size ≤ s.room
  · rw [bind_of_ok (resize_bare h hs), Snapshot.reshape, if_pos hs]
    exact hn _ (h.resized hs)
  · rw [bind_of_error (resize_bare_full h hs), Snapshot.reshape, if_neg hs]
    rfl

theorem settle_bare (h : s.Sturdy) (result : Except OperationError Value) :
    (s.settle result).Worked ((do push (← ofOperation result) : Raw Unit) s.bare) := by
  cases result with
  | ok value => exact push_bare h value
  | error error => rfl

theorem binary_bare (h : s.Sturdy) (op : BinaryOp) :
    (s.binary op).Worked (binary op s.bare) := by
  unfold binary
  rw [bind_of_ok (pop_bare h), bind_of_ok (pop_bare h.dropped)]
  exact settle_bare h.dropped.dropped _

theorem unary_bare (h : s.Sturdy) (op : UnaryOp) : (s.unary op).Worked (unary op s.bare) := by
  unfold unary
  rw [bind_of_ok (pop_bare h)]
  exact settle_bare h.dropped _

theorem index_bare (h : s.Sturdy) :
    (s.dropped.dropped.settle (s.dropped.top.index s.top)).Worked (index s.bare) := by
  unfold index
  rw [bind_of_ok (pop_bare h), bind_of_ok (pop_bare h.dropped)]
  exact settle_bare h.dropped.dropped _

theorem buildArray_bare (h : s.Sturdy) (count : Nat) :
    ((s.without count).push (.array (s.topValues count))).Worked (buildArray count s.bare) := by
  unfold buildArray
  rw [bind_of_ok (takeTop_bare h count)]
  exact push_bare (h.without count) _

theorem buildHash_bare (h : s.Sturdy) (count : Nat) :
    ((s.without count).settle (Value.ofPairs (Run.pairUp (s.topValues count)))).Worked
      (buildHash count s.bare) := by
  unfold buildHash
  rw [bind_of_ok (takeTop_bare h count)]
  exact settle_bare (h.without count) _

theorem jump_bare (ip : Nat) : jump ip s.bare = some (.ok (), (s.jumped ip).bare) := by
  unfold jump Snapshot.jumped
  rw [show s.bare.calls = s.calls from rfl]
  cases s.calls <;> rfl

theorem jumpNotTruthy_bare (h : s.Sturdy) (target : Nat) :
    (Turn.goes (if s.top.isTruthy then s.dropped else s.dropped.jumped target)).Worked
      (jumpNotTruthy target s.bare) := by
  unfold jumpNotTruthy
  rw [bind_of_ok (pop_bare h)]
  by_cases ht : s.top.isTruthy
  · rw [if_pos ht, if_pos ht]
    rfl
  · rw [if_neg ht, if_neg ht]
    exact jump_bare target

theorem constant_bare (h : s.Sturdy) (index : Nat):
    Turn.Worked (match s.constants[index]? with
      | some value => s.push value
      | none => .fails (.constantOutOfRange index) s) (constant index s.bare) := by
  unfold constant
  rw [show s.bare.constants = s.constants from rfl]
  cases s.constants[index]? with
  | some value => exact push_bare h value
  | none => rfl

theorem drop_bare (h : s.Sturdy) :
    (Turn.goes { s.dropped with lastPopped := s.top }).Worked (drop s.bare) := by
  unfold drop
  rw [bind_of_ok (pop_bare h)]
  rfl

theorem getGlobal_bare (h : s.Sturdy) (index : Nat):
    Turn.Worked (match s.globals.get index with
      | .ok value => s.push value
      | .error fault => .fails fault s) (getGlobal index s.bare) := by
  unfold getGlobal
  rw [show s.bare.globals = s.globals from rfl]
  cases s.globals.get index with
  | ok value => exact push_bare h value
  | error fault => rfl

/-- There are enough slots when the slot is written. -/
theorem writeGlobal_bare (index : Nat) (value : Value) :
    Turn.Worked (match Globals.set index value s.globals with
      | (.ok _, globals) => .goes { s with globals }
      | (.error fault, globals) => .fails fault { s with globals })
      (writeGlobal index value s.bare) := by
  obtain ⟨constants, values, room, calls, callLimit, ⟨slots, capacity⟩, lastPopped, sink,
    nextId⟩ := s
  unfold writeGlobal Globals.set
  dsimp only [Snapshot.bare]
  by_cases hcapacity : capacity ≤ index
  · rw [if_pos hcapacity, if_pos hcapacity]
    rfl
  · rw [if_neg hcapacity, if_neg hcapacity]
    by_cases hfew : slots.size ≤ index
    · have hindex : index < (slots ++ List.replicate (index + 1 - slots.size) Value.null).size := by
        rw [← Array.length_toList, Array.toList_appendList, List.length_append,
          List.length_replicate, Array.length_toList]
        omega
      simp only [if_pos hfew, dif_pos hindex, Array.setIfInBounds]
      rfl
    · have hindex : index < slots.size := by omega
      have hnone : index + 1 - slots.size = 0 := by omega
      simp [hfew, hindex, hnone, Array.setIfInBounds]
      rfl

theorem setGlobal_bare (h : s.Sturdy) (index : Nat) :
    Turn.Worked (match Globals.set index s.top s.globals with
      | (.ok _, globals) => .goes { s.dropped with globals }
      | (.error fault, globals) => .fails fault { s.dropped with globals })
      (setGlobal index s.bare) := by
  unfold setGlobal
  rw [bind_of_ok (pop_bare h)]
  exact writeGlobal_bare (s := s.dropped) index s.top

theorem frame_bare {frame : Frame} {rest : List Frame} (hc : s.calls = frame :: rest) :
    Raw.frame s.bare = some (.ok frame, s.bare) := by
  unfold Raw.frame
  rw [show s.bare.calls = frame :: rest from hc]

theorem getLocal_bare (h : s.Sturdy) {frame : Frame} {rest : List Frame}
    (hc : s.calls = frame :: rest) (slot : Nat) :
    (s.push ((s.values[frame.base + slot]?).getD .null)).Worked (getLocal slot s.bare) := by
  have hlook : look (fun memory => memory.get (frame.base + slot)) s.bare =
      some (.ok ((s.values[frame.base + slot]?).getD .null), s.bare) :=
    look_bare (Memory.get_holding _)
  unfold getLocal
  rw [bind_of_ok (frame_bare hc), bind_of_ok hlook]
  exact push_bare h _

theorem setLocal_bare (h : s.Sturdy) {frame : Frame} {rest : List Frame}
    (hc : s.calls = frame :: rest) (slot : Nat):
      Turn.Worked (if frame.base + slot < s.dropped.values.length then
        .goes { s.dropped with values := s.dropped.values.set (frame.base + slot) s.top }
      else .fails .stackOverflow s.dropped) (setLocal slot s.bare) := by
  have hset := Memory.set_holding h.dropped.height (frame.base + slot) s.top
  unfold setLocal
  rw [bind_of_ok (frame_bare hc), bind_of_ok (pop_bare h)]
  split at hset
  next hplace => rw [if_pos hplace]; exact onMemory_bare hset
  next hplace => rw [if_neg hplace]; exact onMemory_bare hset

theorem getBuiltin_bare (h : s.Sturdy) (index : Nat):
    Turn.Worked (match Builtin.ofIndex? index with
      | some builtin => s.push (.builtin builtin)
      | none => .fails (.unknownBuiltin index) s) (getBuiltin index s.bare) := by
  unfold getBuiltin
  cases Builtin.ofIndex? index with
  | some builtin => exact push_bare h _
  | none => rfl

theorem getCapture_bare (h : s.Sturdy) {frame : Frame} {rest : List Frame}
    (hc : s.calls = frame :: rest) (index : Nat):
      Turn.Worked (match frame.capture index with
        | .ok value => s.push value
        | .error fault => .fails fault s) (getCapture index s.bare) := by
  unfold getCapture
  rw [bind_of_ok (frame_bare hc)]
  cases frame.capture index with
  | ok value => exact push_bare h value
  | error fault => rfl

theorem currentClosure_bare (h : s.Sturdy) {frame : Frame} {rest : List Frame}
    (hc : s.calls = frame :: rest) : (s.push frame.closure).Worked (currentClosure s.bare) := by
  unfold currentClosure
  rw [bind_of_ok (frame_bare hc)]
  exact push_bare h _

/-! ### Calls -/

theorem height_bare : height s.bare = some (.ok s.values.length, s.bare) := rfl

theorem difference_bare {a b : Nat} (hab : b ≤ a) :
    difference a b s.bare = some (.ok (a - b), s.bare) := by
  unfold difference look minus
  rw [if_pos hab]
  rfl

theorem pushFrame_bare (frame : Frame) (h : s.calls.length < s.callLimit) :
    pushFrame frame s.bare = some (.ok (), { s with calls := frame :: s.calls }.bare) := by
  unfold pushFrame
  rw [if_pos (show s.bare.calls.length < s.bare.callLimit from h)]
  rfl

theorem pushFrame_bare_full (frame : Frame) (h : ¬s.calls.length < s.callLimit) :
    pushFrame frame s.bare = some (.error .frameOverflow, s.bare) := by
  unfold pushFrame
  rw [if_neg (show ¬s.bare.calls.length < s.bare.callLimit from h)]

theorem callClosure_bare (h : s.Sturdy) (id : Nat) (body : CompiledFunction)
    (captured : List Value) {count : Nat} (hcount : count < s.values.length) :
    (s.callClosure id body captured count).Worked
      (callClosure id body captured count s.bare) := by
  unfold callClosure Snapshot.callClosure
  by_cases hp : count ≠ body.numParameters
  · rw [if_pos hp, if_pos hp]
    exact rfl
  · rw [if_neg hp, if_neg hp, bind_of_ok height_bare,
      bind_of_ok (difference_bare (Nat.le_of_lt hcount))]
    by_cases hroom : s.calls.length < s.callLimit
    · have hcalled := h.called hroom id body captured hcount
      rw [if_pos hroom, bind_of_ok (pushFrame_bare _ hroom)]
      dsimp only [Snapshot.reshape]
      split
      next hs => exact resize_bare hcalled hs
      next hs => exact resize_bare_full hcalled hs
    · rw [if_neg hroom, bind_of_error (pushFrame_bare_full _ hroom)]
      exact rfl

/-- There is a value below the arguments, so the place of the callee is no negative number. -/
theorem callBuiltin_bare (h : s.Sturdy) (builtin : Builtin) {count : Nat}
    (hcount : count < s.values.length) :
    (s.callBuiltin builtin count).Worked (callBuiltin builtin count s.bare) := by
  have htop : look (fun memory => memory.topValues count) s.bare =
      some (.ok (s.topValues count), s.bare) := look_bare (Memory.topValues_holding h.height count)
  unfold callBuiltin Snapshot.callBuiltin
  rw [bind_of_ok htop]
  cases hcall : builtin.call (s.topValues count) s.sink with
  | mk result sink =>
    cases result with
    | error error =>
      have happly : applyBuiltin builtin (s.topValues count) s.bare =
          some (.error (.operation error), { s with sink }.bare) := by
        unfold applyBuiltin
        rw [show s.bare.sink = s.sink from rfl, hcall]
        rfl
      rw [bind_of_error happly]
      exact rfl
    | ok value =>
      have happly : applyBuiltin builtin (s.topValues count) s.bare =
          some (.ok value, { s with sink }.bare) := by
        unfold applyBuiltin
        rw [show s.bare.sink = s.sink from rfl, hcall]
        rfl
      have hsink : { s with sink }.Sturdy := ⟨h.height, h.depth, h.bases⟩
      rw [bind_of_ok happly, bind_of_ok height_bare,
        bind_of_ok (difference_bare (Nat.le_of_lt hcount)),
        bind_of_ok (difference_bare (Nat.sub_pos_of_lt hcount))]
      exact reshape_bare hsink _ fun t ht => push_bare ht value

theorem call_bare (h : s.Sturdy) (count : Nat) : (s.call count).Worked (call count s.bare) := by
  have hpeek : look (fun memory => memory.peek? count) s.bare =
      some (.ok (if count < s.values.length then s.values[s.values.length - (count + 1)]?
        else none), s.bare) := look_bare (Memory.peek?_holding count)
  have hcallee : Option.getD (if count < s.values.length then
      s.values[s.values.length - (count + 1)]? else none) .null = s.callee count := by
    unfold Snapshot.callee
    split <;> rfl
  unfold call Snapshot.call
  rw [bind_of_ok hpeek, hcallee]
  cases hc : s.callee count with
  | closure id body captured =>
    exact callClosure_bare h id body captured (Snapshot.callee_lt (by simp [hc]))
  | builtin builtin => exact callBuiltin_bare h builtin (Snapshot.callee_lt (by simp [hc]))
  | null | int _ | bool _ | str _ | array _ | hash _ | function _ | compiled _ _ => exact rfl

theorem wrap_bare (h : s.Sturdy) (body : CompiledFunction) (count : Nat) :
    ({ s.without count with nextId := s.nextId + 1 }.push
      (.closure s.nextId body (s.topValues count))).Worked (wrap body count s.bare) := by
  have hwithout := h.without count
  have hfresh : freshId (s.without count).bare =
      some (.ok s.nextId, { s.without count with nextId := s.nextId + 1 }.bare) := rfl
  unfold wrap
  rw [bind_of_ok (takeTop_bare h count), bind_of_ok hfresh]
  exact push_bare (s := { s.without count with nextId := s.nextId + 1 })
    ⟨hwithout.height, hwithout.depth, hwithout.bases⟩ _

theorem makeClosure_bare (h : s.Sturdy) (index count : Nat) :
    (s.makeClosure index count).Worked (makeClosure index count s.bare) := by
  unfold makeClosure Snapshot.makeClosure
  rw [show s.bare.constants = s.constants from rfl]
  cases s.constants[index]? with
  | none => exact rfl
  | some value =>
    cases value with
    | compiled id body => exact wrap_bare h body count
    | null | int _ | bool _ | str _ | array _ | hash _ | function _ | closure _ _ _
    | builtin _ => exact rfl

/-! ### Steps -/

theorem thenGoOn_bare {work : Raw Unit} {turn : Turn} (h : turn.Worked (work s.bare)) :
    thenGoOn work s.bare = turn.stepped := by
  unfold thenGoOn
  cases turn with
  | goes after => exact bind_of_ok h
  | ends after => exact h.elim
  | fails fault after => exact bind_of_error h

theorem leave_bare (h : s.Sturdy) (value : Value) :
    leave value s.bare = (s.leave value).stepped := by
  unfold leave Snapshot.leave
  rw [show s.bare.calls = s.calls from rfl]
  cases hc : s.calls with
  | nil => rfl
  | cons frame rest =>
    cases rest with
    | nil => rfl
    | cons caller rest =>
      have hcaller := (h.caller hc).1
      exact thenGoOn_bare (s := { s with calls := caller :: rest })
        (reshape_bare hcaller _ fun t ht => push_bare ht value)

theorem execute_bare (h : s.Sturdy) {frame : Frame} {rest : List Frame}
    (hc : s.calls = frame :: rest) (instruction : Instruction) :
    execute instruction s.bare = (s.execute frame instruction).stepped := by
  obtain ⟨opcode, operands⟩ := instruction
  cases opcode with
  | constant => exact thenGoOn_bare (constant_bare h _)
  | pop => exact thenGoOn_bare (drop_bare h)
  | pushTrue | pushFalse | pushNull => exact thenGoOn_bare (push_bare h _)
  | getGlobal => exact thenGoOn_bare (getGlobal_bare h _)
  | setGlobal => exact thenGoOn_bare (setGlobal_bare h _)
  | getLocal => exact thenGoOn_bare (getLocal_bare h hc _)
  | setLocal => exact thenGoOn_bare (setLocal_bare h hc _)
  | getBuiltin => exact thenGoOn_bare (getBuiltin_bare h _)
  | getFree => exact thenGoOn_bare (getCapture_bare h hc _)
  | currentClosure => exact thenGoOn_bare (currentClosure_bare h hc)
  | add | sub | mul | div | mod | equal | notEqual | greaterThan | greaterEqual | lessThan
  | lessEqual => exact thenGoOn_bare (binary_bare h _)
  | minus | bang => exact thenGoOn_bare (unary_bare h _)
  | jump => exact thenGoOn_bare (show (Turn.goes (s.jumped _)).Worked _ from jump_bare _)
  | jumpNotTruthy => exact thenGoOn_bare (jumpNotTruthy_bare h _)
  | returnValue => exact (bind_of_ok (pop_bare h)).trans (leave_bare h.dropped _)
  | returnNull => exact leave_bare h _
  | array => exact thenGoOn_bare (buildArray_bare h _)
  | hash => exact thenGoOn_bare (buildHash_bare h _)
  | index => exact thenGoOn_bare (index_bare h)
  | call => exact thenGoOn_bare (call_bare h _)
  | closure => exact thenGoOn_bare (makeClosure_bare h _ _)

/-- A step of the bare machine has an outcome, and it is that of the step. -/
theorem step_bare (h : s.Sturdy) : step s.bare = s.step.stepped := by
  unfold step Snapshot.step
  rw [show s.bare.calls = s.calls from rfl]
  cases hc : s.calls with
  | nil => rfl
  | cons frame rest =>
    dsimp only
    rw [Code.fetch_eq]
    cases frame.body.code.decode? frame.ip with
    | none =>
      dsimp only
      by_cases hr : rest = []
      · rw [if_pos hr, if_pos hr]
        rfl
      · rw [if_neg hr, if_neg hr]
        exact leave_bare h _
    | some result =>
      cases result with
      | error error => rfl
      | ok instruction =>
        have hjumped := h.jumped (frame.ip + instruction.size)
        have hcalls : s.jumped (frame.ip + instruction.size) =
            { s with calls := { frame with ip := frame.ip + instruction.size } :: rest } := by
          rw [Snapshot.jumped, hc]
        dsimp only
        rw [bind_of_ok (jump_bare _), ← hcalls]
        exact execute_bare hjumped (congrArg Snapshot.calls hcalls) instruction

end

end Raw

namespace Bare

theorem runSteps_bare {s : Snapshot} (h : s.Sturdy) (steps : Nat) :
    runSteps steps s.bare = some ((s.runSteps steps).1, (s.runSteps steps).2.bare) := by
  induction steps generalizing s with
  | zero => rfl
  | succ steps ih =>
    have hstep := h.step
    rw [runSteps, Snapshot.runSteps, Raw.step_bare h]
    cases hs : s.step with
    | goes after => rw [hs] at hstep; exact ih hstep
    | ends after => rfl
    | fails fault after => rfl

/-- Whatever the unit, its run has an outcome. -/
theorem runWithin_bare {s : Snapshot} (h : s.values.length ≤ s.room) (steps : Nat)
    (unit : Bytecode) : runWithin steps s.bare unit =
      some ((s.runUnit steps unit).1, (s.runUnit steps unit).2.bare) := by
  have hclear : s.bare.memory.clear = some (.holding [] s.room) := Memory.clear_holding h
  unfold runWithin Snapshot.runUnit
  rw [hclear]
  dsimp only [Option.bind_eq_bind, Option.bind_some]
  by_cases hroom : 0 < s.callLimit
  · have hpush : Raw.pushFrame (Machine.mainFrame s.nextId unit.code)
        { s.loaded unit with calls := [] }.bare = some (.ok (), (s.loaded unit).bare) :=
      Raw.pushFrame_bare (s := { s.loaded unit with calls := [] }) _ hroom
    have hloaded := Snapshot.sturdy_loaded s unit hroom
    rw [if_pos hroom, ← runSteps_bare hloaded]
    exact congrArg (Option.bind · _) hpush
  · have hpush : Raw.pushFrame (Machine.mainFrame s.nextId unit.code)
        { s.loaded unit with calls := [] }.bare =
          some (.error .frameOverflow, { s.loaded unit with calls := [] }.bare) :=
      Raw.pushFrame_bare_full (s := { s.loaded unit with calls := [] }) _ hroom
    rw [if_neg hroom]
    exact congrArg (Option.bind · _) hpush

end Bare

/-! ### Every unit on every machine -/

/-- The next step in the frame leaves it: its code ends there, or it returns. -/
def Frame.Leaves (frame : Frame) : Prop :=
  match frame.body.code.decode? frame.ip with
  | none => True
  | some (.ok instruction) => instruction.opcode = .returnValue ∨ instruction.opcode = .returnNull
  | some (.error _) => False

theorem Snapshot.Sturdy.step_ok {s : Snapshot} (h : s.Sturdy) {frame : Frame}
    (hc : s.calls.head? = some frame) (hl : frame.Leaves) :
    ∀ fault after, s.step ≠ .fails fault after := by
  intro fault after
  cases hcalls : s.calls with
  | nil => simp [hcalls] at hc
  | cons running rest =>
    obtain rfl : running = frame := by simpa [hcalls] using hc
    unfold Frame.Leaves at hl
    unfold Snapshot.step
    rw [hcalls]
    dsimp only
    split at hl
    next hd =>
      rw [hd]
      dsimp only
      split
      · rintro ⟨⟩
      · exact h.leave_ok _ fault after
    next instruction hd =>
      have hjumped := h.jumped (running.ip + instruction.size)
      rw [Snapshot.jumped, hcalls] at hjumped
      rw [hd]
      dsimp only [Snapshot.execute]
      rcases hl with hl | hl
      · rw [hl]
        exact hjumped.dropped.leave_ok _ fault after
      · rw [hl]
        exact hjumped.leave_ok _ fault after
    next => exact hl.elim

namespace Machine

/-- The run of a unit keeps within the machine. -/
structure Withstands (machine : Machine) (unit : Bytecode) : Prop where
  /-- The bare machine always has an outcome, which is that of the machine. -/
  outcome : ∀ steps, machine.view.bare.runWithin steps unit =
    some ((machine.runWithin steps unit).1, (machine.runWithin steps unit).2.view.bare)
  height : ∀ steps, (machine.runWithin steps unit).2.stack.size ≤ machine.stack.capacity
  depth : ∀ steps, (machine.runWithin steps unit).2.frames.depth ≤ machine.frames.maxDepth
  /-- A called frame starts above its callee and within the stack. -/
  bases : ∀ steps, ∀ frame ∈ (machine.runWithin steps unit).2.frames.frames.dropLast,
    1 ≤ frame.base ∧ frame.base ≤ machine.stack.capacity
  /-- Leaving a frame is no fault. -/
  leaves : ∀ steps frame, (machine.runWithin steps unit).2.frames.current? = some frame →
    frame.Leaves →
      ∃ progress left, Run.step (machine.runWithin steps unit).2 = (.ok progress, left)

theorem sturdy_runWithin (machine : Machine) (unit : Bytecode) (steps : Nat) :
    (machine.runWithin steps unit).2.view.Sturdy ∧
      machine.view.Equips (machine.runWithin steps unit).2.view := by
  have hsturdy := Snapshot.sturdy_runUnit steps unit machine.view
  have hequips := Snapshot.equips_runUnit steps unit machine.view
  rw [runWithin_eq] at hsturdy hequips
  exact ⟨hsturdy, hequips⟩

/-- No unit crashes a machine, whatever its code, its constants and the size of the machine. -/
theorem withstands (machine : Machine) (unit : Bytecode) : machine.Withstands unit where
  outcome steps := by
    rw [Bare.runWithin_bare machine.length_values_le, runWithin_eq]
  height steps := by
    obtain ⟨hsturdy, hequips⟩ := sturdy_runWithin machine unit steps
    rw [← length_values]
    exact Nat.le_trans hsturdy.height (Nat.le_of_eq hequips.room)
  depth steps := by
    obtain ⟨hsturdy, hequips⟩ := sturdy_runWithin machine unit steps
    rw [FrameStack.depth_eq]
    exact Nat.le_trans hsturdy.depth (Nat.le_of_eq hequips.callLimit)
  bases steps frame hf := by
    obtain ⟨hsturdy, hequips⟩ := sturdy_runWithin machine unit steps
    have hbase : frame.base ∈ (machine.runWithin steps unit).2.view.bases := by
      unfold Snapshot.bases
      rw [← List.map_dropLast]
      exact List.mem_map_of_mem hf
    have hroom : (machine.runWithin steps unit).2.view.room = machine.stack.capacity :=
      hequips.room
    rw [← hroom]
    exact hsturdy.bases frame.base hbase
  leaves steps frame hc hl := by
    obtain ⟨hsturdy, -⟩ := sturdy_runWithin machine unit steps
    have hstep := step_eq (machine.runWithin steps unit).2
    cases hs : Run.step (machine.runWithin steps unit).2 with
    | mk result left =>
      cases result with
      | ok progress => exact ⟨progress, left, rfl⟩
      | error fault =>
        rw [hs] at hstep
        exact absurd hstep.symm (hsturdy.step_ok hc hl fault left.view)

end Machine

end Simian
