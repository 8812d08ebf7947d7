import Simian.Proofs.BodyAgreement

/-!
# Calls beside the evaluator

A call of a function opens a scope on the evaluator and a frame on the machine, where the
arguments become the first local slots. Its body leaves the call with the same value, which
the machine puts in the place of the callee. Built-in functions and values that cannot be
called come to the same on both engines at once. There is a frame left if there is a call
left, where the machine has one frame more than the evaluator has calls.
-/
namespace Simian

open Scene

/-! ### Steps of a call -/

namespace Snapshot

variable {s t : Snapshot} {apart : Prop} {goal : Snapshot → Prop}

theorem callee_of_values {front back : List Value} {other : Value}
    (h : s.values = front ++ other :: back) : s.callee back.length = other := by
  unfold callee
  rw [h, if_pos (by simp; omega)]
  simp

theorem callBuiltin_of_values {front back : List Value} {other : Value} {builtin : Builtin}
    (h : s.values = front ++ other :: back) : s.callBuiltin builtin back.length =
      match builtin.call back s.sink with
      | (.ok value, sink) => ({ s with sink } : Snapshot).reshape front.length fun s => s.push value
      | (.error error, sink) => .fails (.operation error) { s with sink } := by
  have hvalues : s.values = (front ++ [other]) ++ back := by
    rw [h, List.append_assoc]
    rfl
  have hheight : s.values.length - back.length - 1 = front.length := by
    rw [h, List.length_append, List.length_cons]
    omega
  unfold Snapshot.callBuiltin
  rewrite [topValues_of_values hvalues, hheight]
  rfl

theorem call_closure {front back captured : List Value} {id : Nat} {body : CompiledFunction}
    (h : s.values = front ++ .closure id body captured :: back) :
    s.call back.length = s.callClosure id body captured back.length := by
  rw [call, callee_of_values h]

theorem call_builtin {front back : List Value} {builtin : Builtin}
    (h : s.values = front ++ .builtin builtin :: back) : s.call back.length =
      match builtin.call back s.sink with
      | (.ok value, sink) => ({ s with sink } : Snapshot).reshape front.length fun s => s.push value
      | (.error error, sink) => .fails (.operation error) { s with sink } := by
  rw [call, callee_of_values h]
  exact callBuiltin_of_values h

/-- A step that takes values off the stack and pushes one goes on, or there is no room. -/
theorem Meets.reshape {front back : List Value} {value : Value} (ht : t.values = front ++ back)
    (hs : s.step = t.reshape front.length fun s => s.push value)
    (h : ({ t with values := front ++ [value] } : Snapshot).Meets apart goal) :
    s.Meets apart goal := by
  unfold Snapshot.reshape at hs
  split at hs
  · refine .push hs ?_
    unfold resized
    rw [ht, List.take_left, List.length_append]
    simpa using h
  · exact .inl ⟨s, .stackOverflow, t, .refl, hs, .inl rfl⟩

/-- A step that leaves a frame for the one below goes on, or there is no room. -/
theorem Meets.leave {frame caller : Frame} {rest : List Frame} {front back : List Value}
    {value : Value} (hbase : frame.base = front.length + 1)
    (hs : s.step = (t.placed (frame :: caller :: rest) (front ++ back)).leave value)
    (h : (t.placed (caller :: rest) (front ++ [value])).Meets apart goal) :
    s.Meets apart goal := by
  have hstep : s.step = (t.placed (caller :: rest) (front ++ back)).reshape (frame.base - 1)
      fun s => s.push value := hs
  rw [hbase, Nat.add_sub_cancel] at hstep
  exact .reshape rfl hstep h

/-- A step that opens a frame goes on with the local slots filled, or there is no room. There may
be no room for the frame only where the engines run out of calls at different depths. -/
theorem Meets.callClosure {id : Nat} {body : CompiledFunction} {captured front back : List Value}
    (ht : t.values = front ++ back) (hcount : back.length = body.numParameters)
    (hlocals : back.length ≤ body.numLocals)
    (hs : s.step = t.callClosure id body captured back.length)
    (hframes : apart ∨ t.calls.length < t.callLimit)
    (h : (t.placed (⟨id, body, captured, 0, front.length⟩ :: t.calls)
      (front ++ (back ++ List.replicate (body.numLocals - back.length) .null))).Meets apart goal) :
    s.Meets apart goal := by
  unfold Snapshot.callClosure at hs
  rw [if_neg (not_not.mpr hcount)] at hs
  split at hs
  · have hbase : t.values.length - back.length = front.length := by
      rw [ht, List.length_append, Nat.add_sub_cancel]
    rw [hbase] at hs
    unfold Snapshot.reshape at hs
    dsimp only at hs
    split at hs
    · have hheight : front.length + body.numLocals - (front ++ back).length =
          body.numLocals - back.length := by
        rw [List.length_append]
        omega
      have hall : (front ++ back).take (front.length + body.numLocals) = front ++ back :=
        List.take_of_length_le (by rw [List.length_append]; omega)
      refine .step hs ?_
      unfold resized
      rw [ht, hall, hheight, List.append_assoc]
      exact h
    · exact .inl ⟨s, _, _, .refl, hs, .inl rfl⟩
  next hfull => exact .inl ⟨s, _, _, .refl, hs, .inr ⟨rfl, hframes.resolve_right hfull⟩⟩

end Snapshot

/-- A built-in function changes the sink only. -/
theorem Eval.callBuiltin_eq {builtin : Builtin} {arguments : List Value} {evaluator : Evaluator}
    {result : Except OperationError Value} {sink : Sink}
    (h : builtin.call arguments evaluator.sink = (result, sink)) :
    callBuiltin builtin arguments evaluator = ofOperation result { evaluator with sink } := by
  obtain ⟨scopes, before, nextId, depth, calls, limits⟩ := evaluator
  unfold callBuiltin
  dsimp only at h ⊢
  rw [h]

/-- A call of a function needs as many arguments as it has parameters. -/
theorem Eval.applyWith_function (run : Nat → Block → Eval Value) (tree : TreeFunction)
    (arguments : List Value) :
    applyWith run (.function tree) arguments =
      if arguments.length ≠ tree.parameters.length then
        failWith (.wrongArgumentCount tree.parameters.length arguments.length)
      else
        onScopes (·.enclose tree.scope (callBindings tree arguments)) >>= fun scope =>
          inCall (run scope tree.body) := rfl

namespace Scene

variable {c : Scene} {table : SymbolTable} {depth ip : Nat}
  {pending operands : List (Value × Value)} {callee other : Value} {j : Joint}

/-- What is below the arguments of a call. -/
def below (c : Scene) (pending : List (Value × Value)) : List Value :=
  c.act.low ++ (c.slots ++ pending.map Prod.snd)

theorem Stands.values_call
    (h : c.Stands table depth ip (pending ++ (callee, other) :: operands) j) :
    j.machine.values = c.below pending ++ other :: operands.map Prod.snd :=
  h.values_append

theorem Stands.step_call (h : c.Stands table depth ip (pending ++ (callee, other) :: operands) j)
    (hat : c.act.site.code.Holds ip ⟨.call, [operands.length]⟩) :
    let s := j.machine.placed (c.act.frame (ip + 2) :: c.act.rest) j.machine.values
    j.machine.step = s.call (operands.map Prod.snd).length ∧
      s.values = c.below pending ++ other :: operands.map Prod.snd := by
  rw [List.length_map]
  exact ⟨h.step_eq hat, h.values_call⟩

/-- The machine goes on behind a call with a value in the place of the callee. -/
theorem Stands.withSinks (h : c.Stands table depth ip pending j) {sink sink' : Sink}
    (hs : sink.fault = none) (hs' : sink'.fault = none) :
    c.Stands table depth ip pending
      ⟨j.made, { j.evaluator with sink }, { j.machine with sink := sink' }⟩ where
  valid := ⟨h.valid.nextId, h.valid.nextId_machine, hs, hs', h.valid.constants, h.valid.bounds,
    h.valid.ordered, h.valid.names, h.valid.ids, h.valid.supported⟩
  finds := h.finds
  sound := h.sound
  since := ⟨h.since.made, h.since.size_le, h.since.scopes, h.since.globals, h.since.born⟩
  depth := h.depth
  calls := h.calls
  frames := h.frames
  values := h.values
  alike := h.alike

theorem Stands.callBuiltin {builtin : Builtin}
    (h : c.Stands table depth ip (pending ++ (callee, .builtin builtin) :: operands) j)
    (hat : c.act.site.code.Holds ip ⟨.call, [operands.length]⟩) :
    c.Agrees j (Eval.callBuiltin builtin (operands.map Prod.fst) j.evaluator)
      (c.Gives table depth (ip + 2) pending) := by
  obtain ⟨hstep, hvalues⟩ := h.step_call hat
  rw [Snapshot.call_builtin hvalues] at hstep
  have halike : AllAlike (Made.making j.made) (operands.map Prod.fst) (operands.map Prod.snd) := by
    rw [allAlike_iff, List.forall₂_map_left_iff, List.forall₂_map_right_iff, List.forall₂_same]
    exact fun pair hp => h.alike pair (List.mem_append_right _ (List.mem_cons_of_mem _ hp))
  have hsame := halike.call builtin h.valid.sink h.valid.sink_machine
  dsimp only [Snapshot.placed] at hstep
  rcases hfirst : builtin.call (operands.map Prod.fst) j.evaluator.sink with ⟨result, sink⟩
  rcases hsecond : builtin.call (operands.map Prod.snd) j.machine.sink with ⟨result', sink'⟩
  rw [hfirst, hsecond] at hsame
  rw [hsecond] at hstep
  rw [Eval.callBuiltin_eq hfirst]
  obtain ⟨hsame, hsink, hsink'⟩ := hsame
  cases result with
  | error error =>
    cases result' with
    | ok value => exact hsame.elim
    | error fault => exact .inr (.here ⟨_, _, hstep, .inl hsame⟩)
  | ok value =>
    cases result' with
    | error fault => exact hsame.elim
    | ok other =>
      have hmoved := (h.moved (ip + 2) (alike_push h.alike_front hsame)
        j.machine.lastPopped).withSinks hsink hsink'
      rw [List.map_append, ← List.append_assoc c.slots, ← List.append_assoc c.act.low] at hmoved
      exact Snapshot.Meets.reshape (t := { j.machine.placed (c.act.frame (ip + 2) :: c.act.rest)
        j.machine.values with sink := sink' }) hvalues hstep (.here ⟨j.made, other, hmoved⟩)

end Scene

/-! ### Opening a scope and a frame -/

/-- The evaluator counts one call more, and is back where it was behind it. -/
theorem agrees_inCall {apart : Prop} {left other done : Value → Joint → Prop} {body : Eval Value}
    {j : Joint} (hfull : j.evaluator.limits.maxCalls ≤ j.evaluator.calls →
      apart ∨ j.machine.Stops .callStackExhausted)
    (h : j.evaluator.calls < j.evaluator.limits.maxCalls → Joint.Agrees apart left
      ⟨j.made, { j.evaluator with depth := 0, calls := j.evaluator.calls + 1 }, j.machine⟩
      (body { j.evaluator with depth := 0, calls := j.evaluator.calls + 1 }) left)
    (hl : ∀ value later, left value later → later.machine.Meets apart fun s =>
      done value ⟨later.made, { later.evaluator with
        depth := j.evaluator.depth, calls := later.evaluator.calls - 1 }, s⟩) :
    Joint.Agrees apart other j (Eval.inCall body j.evaluator) done := by
  obtain ⟨made, ⟨scopes, sink, nextId, depth, calls, limits⟩, s⟩ := j
  unfold Eval.inCall
  dsimp only at hfull h hl ⊢
  split
  next hle => exact (hfull hle).imp (fun hapart => ⟨rfl, hapart⟩) .here
  next hlt =>
  replace h := h (Nat.lt_of_not_le hlt)
  generalize body ⟨scopes, sink, nextId, 0, calls + 1, limits⟩ = outcome at h
  obtain ⟨result, evaluator⟩ := outcome
  cases result with
  | ok value =>
    refine Snapshot.Meets.bind h ?_
    rintro t ⟨made, hleft⟩
    exact (hl value _ hleft).imp fun u hu => ⟨made, hu⟩
  | error unwind =>
    cases unwind with
    | returned value =>
      refine Snapshot.Meets.bind h ?_
      rintro t ⟨made, hleft⟩
      exact (hl value _ hleft).imp fun u hu => ⟨made, hu⟩
    | failed error => exact h

theorem foldl_insert_ne_none {pairs : List (String × Value)}
    {bindings : Std.ExtHashMap String Value} {name : String}
    (h : name ∈ pairs.map Prod.fst ∨ bindings[name]? ≠ none) :
    (pairs.foldl (fun bindings pair => bindings.insert pair.1 pair.2) bindings)[name]? ≠ none := by
  induction pairs generalizing bindings with
  | nil => exact h.resolve_left List.not_mem_nil
  | cons pair rest ih =>
    refine ih ?_
    by_cases he : pair.1 = name
    · exact .inr (by rw [Std.ExtHashMap.getElem?_insert, if_pos (by simpa using he)]; nofun)
    · rw [Std.ExtHashMap.getElem?_insert, if_neg (by simpa using he)]
      refine h.imp_left fun hm => ?_
      exact (List.mem_cons.mp hm).resolve_left (Ne.symm he)

/-- A call binds the parameters and the function's own name. -/
theorem callBindings_ne_none {tree : TreeFunction} {arguments : List Value} {name : String}
    (hlength : tree.parameters.length = arguments.length)
    (h : name ∈ tree.parameters ∨ tree.name = some name) :
    (Eval.callBindings tree arguments)[name]? ≠ none := by
  refine foldl_insert_ne_none (h.imp (fun hm => ?_) fun he => ?_)
  · rwa [List.map_fst_zip (Nat.le_of_eq hlength)]
  · rw [he]
    dsimp only
    rw [Std.ExtHashMap.getElem?_insert_self]
    nofun

theorem Made.Laid.slots_le {m : Made} {pool : Array Value} {maxDepth : Nat}
    (h : m.Laid pool maxDepth) :
    (m.table.opened m.tree.name m.tree.parameters).inner.slots ≤ m.site.locals := by
  obtain ⟨t', hbody, hlocals⟩ := h.body
  rw [hlocals]
  exact (hbody.widens (areDirectStmts_of_settled h.settled)
    (SymbolTable.sound_opened h.sound _ _)).2.slots_le

namespace Scene

variable {c : Scene} {table : SymbolTable} {depth ip : Nat}
  {pending operands : List (Value × Value)} {captured : List Value} {j : Joint} {m : Made}

/-- The call of a function by the running one, with a scope of its own. -/
def calling (c : Scene) (m : Made) (captured : List Value) (pending : List (Value × Value))
    (ip scope : Nat) : Activation where
  id := m.tree.id + 1
  body := m.compiled
  captured := captured
  rest := c.act.frame ip :: c.act.rest
  low := c.below pending ++ [.closure (m.tree.id + 1) m.compiled captured]
  site := m.site
  code_eq := rfl
  scope := scope
  owner := some m

/-- What the evaluator has when it starts on the body of the function. -/
def opening (evaluator : Evaluator) (tree : TreeFunction) (arguments : List Value) : Evaluator :=
  { evaluator with
    scopes := ⟨evaluator.scopes.scopes.push ⟨Eval.callBindings tree arguments, some tree.scope⟩⟩
    depth := 0
    calls := evaluator.calls + 1 }

/-- Both engines start on the body. -/
theorem Stands.opened (h : c.Stands table depth ip
      (pending ++ (.function m.tree, .closure (m.tree.id + 1) m.compiled captured) :: operands) j)
    (hm : m ∈ j.made) (hlength : m.tree.parameters.length = operands.length) (next : Nat) :
    let act := c.calling m captured pending next j.scopes.scopes.size
    let slots := operands.map Prod.snd ++ List.replicate (m.site.locals - operands.length) .null
    act.Between c.setting
      ⟨j.made, opening j.evaluator m.tree (operands.map Prod.fst),
        j.machine.placed (act.frame 0 :: act.rest) (act.low ++ slots)⟩ []
      (m.table.opened m.tree.name m.tree.parameters) slots 0
      ⟨j.made, opening j.evaluator m.tree (operands.map Prod.fst),
        j.machine.placed (act.frame 0 :: act.rest) (act.low ++ slots)⟩ := by
  intro act slots
  have hs := h.valid.supported m hm
  have halike : ∀ pair ∈ operands, j.Alike pair.1 pair.2 := fun pair hp =>
    h.alike pair (List.mem_append_right _ (List.mem_cons_of_mem _ hp))
  obtain ⟨hlocals, hcount⟩ := sameLocals_opened hs.laid.sound hs.laid.nodup hlength halike
    (List.replicate (m.site.locals - operands.length) .null)
  have holder : ∀ k < j.scopes.scopes.size,
      (j.scopes.scopes.push ⟨Eval.callBindings m.tree (operands.map Prod.fst),
        some m.tree.scope⟩)[k]? = j.scopes.scopes[k]? := fun k hk => by
    rw [Array.getElem?_push_lt hk, Array.getElem?_eq_getElem hk]
  have hsize : 0 < j.scopes.scopes.size := h.valid.ordered.size_pos
  have hroom := hs.laid.slots_le
  rw [hcount] at hroom
  refine ⟨⟨h.valid.nextId, h.valid.nextId_machine, h.valid.sink, h.valid.sink_machine,
      h.valid.constants, h.valid.bounds, h.valid.ordered.enclose hs.scope_lt, ?names, h.valid.ids,
      ?supported⟩,
    .call rfl hm rfl (Nat.ne_of_gt hsize) ?scope ?outer
      (h.alike _ (List.mem_append_right _ List.mem_cons_self)) hlocals ?height,
    SymbolTable.sound_opened hs.laid.sound _ _, rfl, ?calls, rfl, rfl, .refl _ _, ?direct⟩
  case names =>
    exact fun name symbol hn => (h.valid.names name symbol hn).mono (List.prefix_refl _)
      (holder 0 hsize)
  case supported =>
    intro m' hm'
    refine (h.valid.supported m' hm').mono (List.prefix_refl _) holder ?_
    show j.scopes.scopes.size ≤ (j.scopes.scopes.push _).size
    rw [Array.size_push]
    omega
  case scope => exact Array.getElem?_push_size
  case outer =>
    rw [SymbolTable.outer_opened]
    exact List.forall₂_same.mpr fun scope _ => .refl scope
  case height =>
    show (operands.map Prod.snd ++ List.replicate _ Value.null).length = m.site.locals
    rw [List.length_append, List.length_map, List.length_replicate]
    omega
  case calls =>
    show j.evaluator.calls + 1 = c.act.calls + 1
    rw [h.calls]
  case direct =>
    intro m' hm' hscope
    have hlt : m'.tree.scope < j.scopes.scopes.size := (h.valid.supported m' hm').scope_lt
    have heq : m'.tree.scope = j.scopes.scopes.size := hscope
    omega

/-- The call is over: its value is in the place of the callee. -/
theorem Stands.closed (h : c.Stands table depth ip (pending ++ operands) j) {next : Nat}
    {later : Joint} {arguments values : List Value} {calls : List Frame} {value : Value}
    (hl : (c.calling m captured pending next j.scopes.scopes.size).Left c.setting
      ⟨j.made, opening j.evaluator m.tree arguments, j.machine.placed calls values⟩ value later) :
    later.machine.Meets c.setting.Apart fun s => c.Gives table depth next pending value
      ⟨later.made, { later.evaluator with
        depth := j.evaluator.depth, calls := later.evaluator.calls - 1 }, s⟩ := by
  obtain ⟨stop, extra, other, hvalue, hstep⟩ := hl.step
  have holder : ∀ k < j.scopes.scopes.size, later.scopes.scopes[k]? = j.scopes.scopes[k]? := by
    intro k hk
    rw [hl.beyond.scopes k hk]
    show (j.scopes.scopes.push _)[k]? = _
    rw [Array.getElem?_push_lt hk, Array.getElem?_eq_getElem hk]
  have hsize : j.scopes.scopes.size ≤ later.scopes.scopes.size := by
    refine Nat.le_trans ?_ hl.beyond.size_le
    show j.scopes.scopes.size ≤ (j.scopes.scopes.push _).size
    rw [Array.size_push]
    omega
  have hmade : j.made <+: later.made := hl.beyond.made
  rw [show (c.calling m captured pending next j.scopes.scopes.size).low ++ extra =
    c.below pending ++ (.closure (m.tree.id + 1) m.compiled captured :: extra) from
    List.append_assoc ..] at hstep
  have hbase : (c.below pending ++ [Value.closure (m.tree.id + 1) m.compiled captured]).length =
      (c.below pending).length + 1 := by
    rw [List.length_append, List.length_singleton]
  refine .leave hbase hstep (.here ⟨other, ?_⟩)
  have hlt := c.scope_lt
  have hle := h.since.size_le
  exact
    { valid := ⟨hl.valid.nextId, hl.valid.nextId_machine, hl.valid.sink, hl.valid.sink_machine,
        hl.valid.constants, hl.valid.bounds, hl.valid.ordered, hl.valid.names, hl.valid.ids,
        hl.valid.supported⟩
      finds := h.finds.mono hmade (holder _ (by omega))
      sound := h.sound
      since := ⟨h.since.made.trans hmade, Nat.le_trans hle hsize,
        fun k hk => (holder k (by omega)).trans (h.since.scopes k hk),
        hl.beyond.globals.trans h.since.globals, fun m' hm' => by
          rcases hl.beyond.born m' hm' with hm' | hscope
          · exact h.since.born m' hm'
          · exact .inr (.inl (Nat.le_trans hle hscope))⟩
      depth := h.depth
      calls := by
        show later.evaluator.calls - 1 = c.act.calls
        rw [hl.calls]
        rfl
      frames := rfl
      values := by
        rw [List.map_append, ← List.append_assoc c.slots, ← List.append_assoc c.act.low]
        rfl
      alike := alike_push (fun pair hp => (h.alike_front pair hp).mono fun _ _ _ =>
        Made.making_mono hmade) hvalue }

end Scene

/-! ### Calls of values -/

/-- Evaluating the body of the function that a call runs comes to the same as running its code. -/
def BodiesAgree (bounds : Bounds) (act : Activation) (run : Nat → Block → Eval Value) : Prop :=
  ∀ (setting : Setting) (m : Made) (slots : List Value) (start : Joint),
    setting.bounds = bounds → act.owner = some m → act.site = m.site →
    act.site.pool = setting.pool → m.Laid setting.pool setting.maxDepth →
    (∀ name ∈ freeInStmts m.tree.body.statements,
      name ∈ m.free ∨ start.scopes.bound? act.scope name ≠ none) →
    act.Between setting start [] (m.table.opened m.tree.name m.tree.parameters) slots 0 start →
    Joint.Agrees setting.Apart (act.Left setting start) start
      (run act.scope m.tree.body start.evaluator) (act.Left setting start)

section
variable {c : Scene} {table : SymbolTable} {depth ip next : Nat} {pending : List (Value × Value)}
  {j : Joint}

/-- Where calls run out at the same depth, the machine has a frame left just if the evaluator has a
call left. -/
theorem Scene.Stands.hasFrame_iff (h : c.Stands table depth ip pending j)
    (hapart : ¬c.setting.Apart) : (c.act.frame next :: c.act.rest).length < j.machine.callLimit ↔
      j.evaluator.calls < j.evaluator.limits.maxCalls := by
  have hframes : c.setting.bounds.maxFrames = c.setting.bounds.maxCalls + 1 := not_not.mp hapart
  rw [h.valid.maxFrames, h.valid.maxCalls, h.calls, hframes, List.length_cons]
  exact Nat.succ_lt_succ_iff

theorem Scene.Stands.room_for_frame (h : c.Stands table depth ip pending j)
    (hroom : j.evaluator.calls < j.evaluator.limits.maxCalls) :
    c.setting.Apart ∨ (c.act.frame next :: c.act.rest).length < j.machine.callLimit := by
  by_cases hapart : c.setting.Apart
  · exact .inl hapart
  · exact .inr ((h.hasFrame_iff hapart).mpr hroom)

theorem Scene.Stands.stops_of_full {id : Nat} {body : CompiledFunction}
    {captured values : List Value} {count : Nat} (h : c.Stands table depth ip pending j)
    (harity : count = body.numParameters)
    (hstep : j.machine.step =
      (j.machine.placed (c.act.frame next :: c.act.rest) values).callClosure id body captured count)
    (hfull : j.evaluator.limits.maxCalls ≤ j.evaluator.calls) :
    c.setting.Apart ∨ j.machine.Stops .callStackExhausted := by
  by_cases hapart : c.setting.Apart
  · exact .inl hapart
  · have hnone : ¬(c.act.frame next :: c.act.rest).length < j.machine.callLimit :=
      mt (h.hasFrame_iff hapart).mp (Nat.not_lt_of_le hfull)
    unfold Snapshot.callClosure at hstep
    rw [if_neg (not_not.mpr harity)] at hstep
    exact .inr ⟨_, _, hstep.trans (if_neg hnone), .inr ⟨rfl, rfl⟩⟩

end

theorem Scene.Stands.callFunction {c : Scene} {table : SymbolTable} {depth ip : Nat}
    {pending operands : List (Value × Value)} {tree : TreeFunction} {id : Nat}
    {body : CompiledFunction} {captured : List Value} {j : Joint}
    (h : c.Stands table depth ip
      (pending ++ (.function tree, .closure id body captured) :: operands) j)
    (hat : c.act.site.code.Holds ip ⟨.call, [operands.length]⟩)
    {run : Nat → Block → Eval Value}
    (hrun : ∀ act : Activation, act.calls = c.act.calls + 1 →
      act.calls ≤ c.setting.bounds.maxCalls → BodiesAgree c.setting.bounds act run) :
    c.Agrees j (Eval.applyWith run (.function tree) (operands.map Prod.fst) j.evaluator)
      (c.Gives table depth (ip + 2) pending) := by
  obtain ⟨hid, values, ⟨m, hm, rfl, rfl, hcaptured⟩, hall⟩ :=
    (h.alike _ (List.mem_append_right _ List.mem_cons_self)).of_closure
  subst hid
  have hmem : m ∈ j.made := List.mem_of_getElem? hm
  have hlaid := (h.valid.supported m hmem).laid
  obtain ⟨hstep, hvalues⟩ := h.step_call hat
  rw [Snapshot.call_closure hvalues] at hstep
  rw [Eval.applyWith_function]
  by_cases hlength : (operands.map Prod.fst).length = m.tree.parameters.length
  · have hcount : m.tree.parameters.length = operands.length := by
      rw [← hlength, List.length_map]
    have hvalues' := hvalues.trans (List.append_cons ..)
    rw [if_neg (not_not.mpr hlength)]
    have hlocals : (operands.map Prod.snd).length ≤ m.compiled.numLocals := by
      have hroom := hlaid.slots_le
      rwa [(sameLocals_opened hlaid.sound hlaid.nodup hcount (fun pair hp =>
        h.alike pair (List.mem_append_right _ (List.mem_cons_of_mem _ hp))) []).2, hcount,
        ← List.length_map (f := Prod.snd)] at hroom
    have hopened := h.opened hmem hcount (ip + 2)
    have hfree : ∀ name ∈ freeInStmts m.tree.body.statements, name ∈ m.free ∨
        (opening j.evaluator m.tree (operands.map Prod.fst)).scopes.bound? j.scopes.scopes.size
          name ≠ none := by
      intro name hn
      by_cases hown : name ∈ m.tree.parameters ∨ m.tree.name = some name
      · refine .inr ?_
        show (((j.scopes.scopes.push _)[j.scopes.scopes.size]?).bind _) ≠ none
        rw [Array.getElem?_push_size]
        exact callBindings_ne_none hlength.symm hown
      · refine .inl (List.mem_filter.mpr ⟨hn, ?_⟩)
        simpa [not_or, and_comm] using hown
    let wider : Evaluator := { j.evaluator with
      scopes := (j.scopes.enclose m.tree.scope
        (Eval.callBindings m.tree (operands.map Prod.fst))).2 }
    have harity : (operands.map Prod.snd).length = m.compiled.numParameters := by
      rw [List.length_map, ← hcount]
      rfl
    have hentered (hroom : j.evaluator.calls < j.evaluator.limits.maxCalls) :=
      have hbody := hrun (c.calling m captured pending (ip + 2) j.scopes.scopes.size) rfl
        (by rwa [h.calls, h.valid.maxCalls] at hroom) c.setting m _ _ rfl rfl rfl hlaid.pool_eq
        hlaid hfree hopened
      Joint.Agrees.of_meets (j := ⟨j.made, opening j.evaluator m.tree
        (operands.map Prod.fst), j.machine⟩) (.callClosure hvalues' harity hlocals hstep
          (h.room_for_frame hroom) (.here ⟨j.made, by rw [List.length_map]; exact hbody⟩))
    exact agrees_inCall (j := ⟨j.made, wider, j.machine⟩) (h.stops_of_full harity hstep)
      hentered fun value later => h.closed
  · have hcount : (operands.map Prod.snd).length ≠ m.compiled.numParameters := by
      rw [List.length_map] at hlength ⊢
      exact hlength
    rw [if_pos hlength]
    rw [Snapshot.callClosure, if_pos hcount] at hstep
    refine .inr (.here ⟨_, _, hstep, .inl ⟨rfl, ?_⟩⟩)
    rw [List.length_map, List.length_map]

variable {bounds : Bounds} {act : Activation}

/-- Both engines call the same things. -/
theorem callsAgree_applyWith {run : Nat → Block → Eval Value}
    (hrun : ∀ act' : Activation, act'.calls = act.calls + 1 → act'.calls ≤ bounds.maxCalls →
      BodiesAgree bounds act' run) : CallsAgree bounds act (Eval.applyWith run) := by
  rintro c table depth ip pending operands callee other j rfl rfl h hat
  obtain ⟨hstep, hvalues⟩ := h.step_call hat
  unfold Snapshot.call at hstep
  rw [Snapshot.callee_of_values hvalues] at hstep
  cases h.alike _ (List.mem_append_right _ List.mem_cons_self) with
  | function => exact h.callFunction hat hrun
  | builtin => exact h.callBuiltin hat
  | _ => exact .inr (.here ⟨_, _, hstep, .inl rfl⟩)

theorem bodiesAgree_block {call : Value → List Value → Eval Value}
    (hcall : CallsAgree bounds act call) :
    BodiesAgree bounds act fun scope body => Eval.block call scope body := by
  rintro setting m slots start rfl ho hsite hp hlaid hfree h
  obtain ⟨t', hbody, _⟩ := hlaid.body
  have hs := hlaid.settled
  have hd := hlaid.distinct
  have hn := hlaid.nesting
  obtain ⟨⟨id, name, parameters, ⟨statements, span⟩, scope⟩, table, site, env⟩ := m
  show Joint.Agrees _ _ _ (Eval.block call act.scope (.mk statements span) start.evaluator) _
  rw [Eval.block]
  exact hbody.body hcall rfl hsite hp ho hs hd hfree hn h fun _ => rfl

/-- A call comes to the same on both engines where no more calls are left than the limit
allows. -/
theorem callsAgree_apply (callsLeft : Nat) (h : bounds.maxCalls ≤ act.calls + callsLeft) :
    CallsAgree bounds act (Eval.apply callsLeft) := by
  induction callsLeft generalizing act with
  | zero => exact callsAgree_applyWith fun act' hcalls hle => by omega
  | succ callsLeft ih =>
    exact callsAgree_applyWith fun act' hcalls _ => bodiesAgree_block (ih (by omega))

end Simian
