import Simian.Proofs.CallAgreement
import Simian.Proofs.InlineExpressions
import Simian.Proofs.PlainValues

/-!
# Code that stays in its frame

A passage is a stretch of code that a frame runs, beside an evaluator in a scope. While
the stretch runs, the machine differs from what it was in four things only: the offset,
the operands on top of the stack, the value dropped last and what has been written
(`Passage.state`). The evaluator differs in the nesting depth and in what it has written,
which is the same.

Each kind of instruction has its lemma here. Unlike with functions, the operands are the
values of the evaluator themselves, so results and errors are the same too.
-/
namespace Simian

/-- What the name means in the scope: what it is bound to, or the built-in function. -/
def Scopes.meaning? (scopes : Scopes) (scope : Nat) (name : String) : Option Value :=
  (scopes.find? scope name).or ((Builtin.ofName? name).map .builtin)

theorem Eval.lookUp_of_meaning {evaluator : Evaluator} {scope : Nat} {name : String} {value : Value}
    (h : evaluator.scopes.meaning? scope name = some value) :
    lookUp scope name evaluator = (.ok value, evaluator) := by
  unfold Scopes.meaning? at h
  cases hf : evaluator.scopes.find? scope name with
  | some found =>
    rw [hf, Option.some_or, Option.some_inj] at h
    rw [Scene.lookUp_of_some hf, h]
  | none =>
    rw [hf, Option.none_or, Option.map_eq_some_iff] at h
    obtain ⟨builtin, hb, rfl⟩ := h
    exact Scene.lookUp_of_none hf hb

/-- The value is where a load of the symbol finds it. -/
def Snapshot.Stores (s : Snapshot) (frame : Frame) (symbol : Symbol) (value : Value) : Prop :=
  match symbol.storage with
  | .globalSlot => s.globals.get symbol.index = .ok value
  | .localSlot => s.values[frame.base + symbol.index]? = some value
  | .builtin => (Builtin.ofIndex? symbol.index).map .builtin = some value
  | .captured => frame.captured[symbol.index]? = some value
  | .self => frame.closure = value

/-- The fault of the machine is the error of the evaluator. -/
def Fault.Is : Fault → EvalError → Prop
  | .operation error, .operation other => error = other
  | .notCallable kind, .notCallable other => kind = other
  | _, _ => False

theorem Fault.Is.message_eq {fault : Fault} {error : EvalError} (h : fault.Is error) :
    fault.message = error.message := by
  cases fault <;> cases error <;> first | exact h.elim | skip
  · have h : _ = _ := h
    rw [h]
    rfl
  · have h : _ = _ := h
    rw [h]
    rfl

/-! ### Runs of the machine -/

namespace Snapshot

/-- Some number of steps leads to such a state. -/
def Comes (s : Snapshot) (goal : Snapshot → Prop) : Prop := ∃ t, s.Reaches t ∧ goal t

variable {s t : Snapshot} {goal next : Snapshot → Prop}

theorem Comes.here (h : goal s) : s.Comes goal := ⟨s, .refl, h⟩

theorem Comes.step (hs : s.step = .goes t) (h : t.Comes goal) : s.Comes goal := by
  obtain ⟨u, hu, hg⟩ := h
  exact ⟨u, hu.head hs, hg⟩

theorem Comes.bind (h : s.Comes goal) (hn : ∀ t, goal t → t.Comes next) : s.Comes next := by
  obtain ⟨t, ht, hg⟩ := h
  obtain ⟨u, hu, hnext⟩ := hn t hg
  exact ⟨u, ht.trans hu, hnext⟩

theorem reshape_of_values {front back : List Value} (h : s.values = front ++ back)
    (hroom : front.length ≤ s.room) (next : Snapshot → Turn) :
    s.reshape front.length next = next (s.placed s.calls front) := by
  have hlength : front.length - (front ++ back).length = 0 := by
    rw [List.length_append]
    omega
  rw [reshape, if_pos hroom, resized, h, List.take_left, hlength]
  exact congrArg (fun values => next (s.placed s.calls values)) (List.append_nil front)

theorem Comes.imp (h : s.Comes goal) (hn : ∀ t, goal t → next t) : s.Comes next :=
  h.bind fun t ht => .here (hn t ht)

end Snapshot

structure Passage where
  /-- The frame's function, with its finished code. -/
  site : Site
  frame : Frame
  /-- The frames below. -/
  rest : List Frame
  /-- The machine as it was before the stretch. -/
  start : Snapshot
  /-- The evaluator as it was before the expression. -/
  evaluator : Evaluator
  /-- The evaluator's scope. -/
  scope : Nat
  /-- The names as they are known behind the stretch. -/
  names : SymbolTable
  code_eq : frame.body.code = site.code
  pool_eq : start.constants = site.pool
  sound : names.Sound

namespace Passage

/-- The machine within the stretch. -/
def state (c : Passage) (ip : Nat) (operands : List Value) (dropped : Value) (sink : Sink) :
    Snapshot :=
  { c.start with
    values := c.start.values ++ operands, calls := { c.frame with ip } :: c.rest
    lastPopped := dropped, sink }

/-- The machine has come to an offset and the evaluator to this depth, with these operands. -/
structure Stands (c : Passage) (depth ip : Nat) (operands : List Value) (evaluator : Evaluator)
    (s : Snapshot) : Prop where
  machine : s = c.state ip operands s.lastPopped evaluator.sink
  evaluator : evaluator = { c.evaluator with sink := evaluator.sink, depth }
  plain : ∀ value ∈ operands, value.isPlain = true

/-- The value has come on top. -/
def Gives (c : Passage) (depth ip : Nat) (operands : List Value) (value : Value)
    (evaluator : Evaluator) (s : Snapshot) : Prop :=
  c.Stands depth ip (operands ++ [value]) evaluator s

/-- The next step leaves the frame with the value. -/
def Leaves (c : Passage) (value : Value) (evaluator : Evaluator) (s : Snapshot) : Prop :=
  ∃ ip operands, s.step = (c.state ip operands s.lastPopped evaluator.sink).leave value

/-- The next step fails with the error. -/
def Fails (error : EvalError) (evaluator : Evaluator) (s : Snapshot) : Prop :=
  ∃ fault after, s.step = .fails fault after ∧ fault.Is error ∧ after.sink = evaluator.sink

/-- Whatever comes of evaluating, the machine comes to the same: what is done then, a return from
the frame, or the error. -/
def Follows {α : Type} (c : Passage) (s : Snapshot) (outcome : Except Unwind α × Evaluator)
    (done : α → Evaluator → Snapshot → Prop) : Prop :=
  match outcome with
  | (.ok value, evaluator) => s.Comes (done value evaluator)
  | (.error (.returned value), evaluator) => s.Comes (c.Leaves value evaluator)
  | (.error (.failed error), evaluator) => s.Comes (Fails error evaluator)

namespace Follows

variable {α β : Type} {c : Passage} {s : Snapshot} {evaluator : Evaluator}

theorem bind {first : Eval α} {next : α → Eval β} {mid : α → Evaluator → Snapshot → Prop}
    {done : β → Evaluator → Snapshot → Prop} (h : c.Follows s (first evaluator) mid)
    (hn : ∀ value later t, mid value later t → c.Follows t (next value later) done) :
    c.Follows s ((first >>= next) evaluator) done := by
  rw [Attempt.bind_apply]
  generalize first evaluator = outcome at h
  obtain ⟨result, between⟩ := outcome
  cases result with
  | error unwind => cases unwind <;> exact h
  | ok value =>
    dsimp only [Follows] at h ⊢
    have hrest := hn value between
    generalize next value between = rest at hrest
    obtain ⟨result, last⟩ := rest
    cases result with
    | ok value => exact h.bind hrest
    | error unwind => cases unwind <;> exact h.bind hrest

theorem imp {outcome : Except Unwind α × Evaluator} {done more : α → Evaluator → Snapshot → Prop}
    (h : c.Follows s outcome done)
    (hm : ∀ value later t, done value later t → more value later t) :
    c.Follows s outcome more := by
  obtain ⟨result, later⟩ := outcome
  cases result with
  | ok value => exact Snapshot.Comes.imp h (hm value later)
  | error unwind => cases unwind <;> exact h

/-- The machine takes steps on its own. -/
theorem of_comes {outcome : Except Unwind α × Evaluator} {done : α → Evaluator → Snapshot → Prop}
    (h : s.Comes fun t => c.Follows t outcome done) : c.Follows s outcome done := by
  obtain ⟨result, later⟩ := outcome
  cases result with
  | ok value => exact h.bind fun _ ht => ht
  | error unwind => cases unwind <;> exact h.bind fun _ ht => ht

/-- The evaluation ends here, and the machine takes some steps more. -/
theorem andThen {outcome : Except Unwind α × Evaluator}
    {mid done : α → Evaluator → Snapshot → Prop} (h : c.Follows s outcome mid)
    (hn : ∀ value later t, mid value later t → t.Comes (done value later)) :
    c.Follows s outcome done := by
  obtain ⟨result, later⟩ := outcome
  cases result with
  | ok value => exact Snapshot.Comes.bind h (hn value later)
  | error unwind => cases unwind <;> exact h

end Follows

variable {c : Passage} {depth ip : Nat} {operands : List Value} {evaluator : Evaluator}
  {s : Snapshot}

theorem follows_of_gives {value : Value} {next : Nat}
    (h : s.Comes (c.Gives depth next operands value evaluator)) :
    c.Follows s ((pure value : Eval Value) evaluator) (c.Gives depth next operands) := h

theorem push_state {value dropped : Value} {sink : Sink}
    (hroom : c.start.values.length + operands.length < c.start.room) :
    (c.state ip operands dropped sink).push value =
      .goes (c.state ip (operands ++ [value]) dropped sink) := by
  have hheight : (c.start.values ++ operands).length < c.start.room := by
    rw [List.length_append]
    exact hroom
  rw [state, state, Snapshot.push, if_pos hheight, ← List.append_assoc]

theorem plain_push {value : Value} (h : ∀ value ∈ operands, value.isPlain = true)
    (hv : value.isPlain = true) : ∀ other ∈ operands ++ [value], other.isPlain = true :=
  List.forall_mem_append.mpr ⟨h, List.forall_mem_singleton.mpr hv⟩

/-! ### The operands on the stack -/

theorem values_append (c : Passage) (ip : Nat) (values others : List Value) (dropped : Value)
    (sink : Sink) : (c.state ip (values ++ others) dropped sink).values =
      (c.start.values ++ values) ++ others :=
  (List.append_assoc ..).symm

theorem top_one (c : Passage) (ip : Nat) (values : List Value) (value dropped : Value)
    (sink : Sink) :
    let s := c.state ip (values ++ [value]) dropped sink
    s.top = value ∧ s.dropped = c.state ip values dropped sink := by
  have hvalues : (c.state ip (values ++ [value]) dropped sink).values =
      (c.start.values ++ values) ++ [value] := (List.append_assoc ..).symm
  exact ⟨Snapshot.top_of_values hvalues, Snapshot.dropped_of_values hvalues⟩

theorem top_two (c : Passage) (ip : Nat) (values : List Value) (first second dropped : Value)
    (sink : Sink) :
    let s := c.state ip (values ++ [first] ++ [second]) dropped sink
    s.top = second ∧ s.dropped.top = first ∧
      s.dropped.dropped = c.state ip values dropped sink := by
  obtain ⟨htop, hdropped⟩ := top_one c ip (values ++ [first]) second dropped sink
  refine ⟨htop, ?_, ?_⟩
  · rw [hdropped]
    exact (top_one c ip values first dropped sink).1
  · rw [hdropped]
    exact (top_one c ip values first dropped sink).2

/-- The keys and values one after the other, as they stand on the stack. -/
def flat (pairs : List (Value × Value)) : List Value := pairs.flatMap fun pair => [pair.1, pair.2]

theorem length_flat (pairs : List (Value × Value)) : (flat pairs).length = pairs.length * 2 := by
  induction pairs with
  | nil => rfl
  | cons pair rest ih =>
    rw [flat, List.flatMap_cons, List.length_append, ← flat, ih, List.length_cons]
    simp only [List.length_cons, List.length_nil]
    omega

theorem pairUp_flat (pairs : List (Value × Value)) : Run.pairUp (flat pairs) = pairs := by
  induction pairs with
  | nil => rfl
  | cons pair rest ih => exact congrArg _ ih

theorem execute_call (s : Snapshot) (frame : Frame) (count : Nat) :
    s.execute frame ⟨.call, [count]⟩ = s.call count := rfl

theorem size_call (count : Nat) : (⟨.call, [count]⟩ : Instruction).size = 2 := rfl

/-! ### Standing in the code -/

namespace Stands

/-- The evaluator goes one level deeper and comes back. -/
theorem nested (h : c.Stands depth ip operands evaluator s)
    (hlt : depth < c.evaluator.limits.maxDepth) {body : Eval Value} {next : Nat}
    (hbody : ∀ evaluator, c.Stands (depth + 1) ip operands evaluator s →
      c.Follows s (body evaluator) (c.Gives (depth + 1) next operands)) :
    c.Follows s (Eval.nested body evaluator) (c.Gives depth next operands) := by
  have hdepth : evaluator.depth = depth := by rw [h.evaluator]
  rw [Scene.nested_apply (by rw [hdepth, h.evaluator]; exact hlt), hdepth]
  have hfollows := hbody { evaluator with depth := depth + 1 }
    ⟨h.machine, by rw [h.evaluator], h.plain⟩
  generalize body { evaluator with depth := depth + 1 } = outcome at hfollows
  obtain ⟨result, later⟩ := outcome
  cases result with
  | ok value =>
    refine Snapshot.Comes.imp hfollows fun t ht => ?_
    exact ⟨ht.machine, by rw [ht.evaluator]; rfl, ht.plain⟩
  | error unwind => cases unwind <;> exact hfollows

/-! ### Steps -/

theorem step_eq (h : c.Stands depth ip operands evaluator s) {instruction : Instruction}
    (hat : c.site.code.Holds ip instruction) : s.step =
      (c.state (ip + instruction.size) operands s.lastPopped evaluator.sink).execute
        { c.frame with ip := ip + instruction.size } instruction := by
  have hcalls : s.calls = { c.frame with ip } :: c.rest := by rw [h.machine]; rfl
  have hcode : c.frame.body.code.Holds ip instruction := by rwa [c.code_eq]
  rw [Snapshot.step_of_holds hcalls hcode]
  conv_lhs => rw [h.machine]
  rfl

/-- The machine goes on at another offset with other operands. -/
theorem moved (h : c.Stands depth ip operands evaluator s) (next : Nat) {others : List Value}
    (hp : ∀ value ∈ others, value.isPlain = true) (dropped : Value) (sink : Sink) :
    c.Stands depth next others { evaluator with sink } (c.state next others dropped sink) :=
  ⟨rfl, by rw [h.evaluator], hp⟩

/-- An instruction that leaves some of the operands and pushes a value. -/
theorem pushOnto (h : c.Stands depth ip operands evaluator s) {instruction : Instruction}
    (hat : c.site.code.Holds ip instruction) {others : List Value} {value : Value}
    (hp : ∀ value ∈ others, value.isPlain = true)
    (he : (c.state (ip + instruction.size) operands s.lastPopped evaluator.sink).execute
        { c.frame with ip := ip + instruction.size } instruction =
      (c.state (ip + instruction.size) others s.lastPopped evaluator.sink).push value)
    (hv : value.isPlain = true)
    (hroom : c.start.values.length + others.length < c.start.room) :
    s.Comes (c.Gives depth (ip + instruction.size) others value evaluator) := by
  have hstep := (h.step_eq hat).trans he
  rw [push_state hroom] at hstep
  exact .step hstep
    (.here (h.moved (ip + instruction.size) (plain_push hp hv) s.lastPopped evaluator.sink))

/-- An instruction that pushes a value. -/
theorem push (h : c.Stands depth ip operands evaluator s) {instruction : Instruction}
    (hat : c.site.code.Holds ip instruction) {value : Value}
    (he : (c.state (ip + instruction.size) operands s.lastPopped evaluator.sink).execute
        { c.frame with ip := ip + instruction.size } instruction =
      (c.state (ip + instruction.size) operands s.lastPopped evaluator.sink).push value)
    (hv : value.isPlain = true)
    (hroom : c.start.values.length + operands.length < c.start.room) :
    s.Comes (c.Gives depth (ip + instruction.size) operands value evaluator) :=
  h.pushOnto hat h.plain he hv hroom

/-- An instruction that does an operation, as the evaluator does. -/
theorem settle (h : c.Stands depth ip operands evaluator s) {instruction : Instruction}
    (hat : c.site.code.Holds ip instruction) {others : List Value}
    (hp : ∀ value ∈ others, value.isPlain = true) {result : Except OperationError Value}
    (he : (c.state (ip + instruction.size) operands s.lastPopped evaluator.sink).execute
        { c.frame with ip := ip + instruction.size } instruction =
      (c.state (ip + instruction.size) others s.lastPopped evaluator.sink).settle result)
    (hv : ∀ value, result = .ok value → value.isPlain = true)
    (hroom : c.start.values.length + others.length < c.start.room) :
    c.Follows s (Eval.ofOperation result evaluator)
      (c.Gives depth (ip + instruction.size) others) := by
  cases result with
  | ok value => exact h.pushOnto hat hp he (hv value rfl) hroom
  | error error => exact .here ⟨_, _, (h.step_eq hat).trans he, rfl, rfl⟩

/-! ### Instructions -/

theorem constant (h : c.Stands depth ip operands evaluator s) {index : Nat} {value : Value}
    (hat : c.site.code.Holds ip ⟨.constant, [index]⟩) (hp : c.site.pool[index]? = some value)
    (hv : value.isPlain = true) (hroom : c.start.values.length + operands.length < c.start.room) :
    s.Comes (c.Gives depth (ip + 3) operands value evaluator) := by
  have hconstant : c.start.constants[index]? = some value := by rw [c.pool_eq, hp]
  exact h.push hat (Snapshot.execute_constant hconstant) hv hroom

theorem pushNull (h : c.Stands depth ip operands evaluator s)
    (hat : c.site.code.Holds ip ⟨.pushNull, []⟩)
    (hroom : c.start.values.length + operands.length < c.start.room) :
    s.Comes (c.Gives depth (ip + 1) operands .null evaluator) :=
  h.push hat rfl rfl hroom

theorem pushBool (h : c.Stands depth ip operands evaluator s) (truth : Bool)
    (hat : c.site.code.Holds ip ⟨if truth then .pushTrue else .pushFalse, []⟩)
    (hroom : c.start.values.length + operands.length < c.start.room) :
    s.Comes (c.Gives depth (ip + 1) operands (.bool truth) evaluator) := by
  cases truth with
  | false => exact h.push hat rfl rfl hroom
  | true => exact h.push hat rfl rfl hroom

/-- A symbol is loaded from the place where its value was at the start. -/
theorem load (h : c.Stands depth ip operands evaluator s) {symbol : Symbol} {next : Nat}
    {value : Value} (hl : Loads c.site symbol ip next) (hk : c.start.Stores c.frame symbol value)
    (hv : value.isPlain = true) (hroom : c.start.values.length + operands.length < c.start.room) :
    s.Comes (c.Gives depth next operands value evaluator) := by
  unfold Snapshot.Stores at hk
  cases hl with
  | global hst _ hload =>
    rw [hst] at hk
    exact h.push hload (Snapshot.execute_getGlobal hk) hv hroom
  | slot hst _ hload =>
    rw [hst] at hk
    dsimp only at hk
    have hlt := (List.getElem?_eq_some_iff.mp hk).1
    have hget : (c.start.values ++ operands)[c.frame.base + symbol.index]? = some value := by
      rw [List.getElem?_append_left hlt, hk]
    exact h.push hload (Snapshot.execute_getLocal hget) hv hroom
  | builtin hst hof _ hload =>
    rw [hst, hof] at hk
    cases hk
    exact h.push hload (Snapshot.execute_getBuiltin hof) hv hroom
  | captured hst _ _ hload =>
    rw [hst] at hk
    exact h.push hload (Snapshot.execute_getFree hk) hv hroom
  | self hst _ _ =>
    rw [hst] at hk
    rw [← show c.frame.closure = value from hk] at hv
    cases hv

section
variable {value left right : Value}

theorem plain_front {others : List Value}
    (h : c.Stands depth ip (operands ++ others) evaluator s) :
    (∀ value ∈ operands, value.isPlain = true) ∧ ∀ value ∈ others, value.isPlain = true :=
  List.forall_mem_append.mp h.plain

theorem plain_two (h : c.Stands depth ip (operands ++ [left] ++ [right]) evaluator s) :
    (∀ value ∈ operands, value.isPlain = true) ∧ left.isPlain = true ∧ right.isPlain = true := by
  obtain ⟨hfront, hright⟩ := h.plain_front
  obtain ⟨hoperands, hleft⟩ := List.forall_mem_append.mp hfront
  exact ⟨hoperands, hleft left List.mem_cons_self, hright right List.mem_cons_self⟩

theorem unary (h : c.Stands depth ip (operands ++ [value]) evaluator s) (op : UnaryOp)
    (hat : c.site.code.Holds ip ⟨Compile.opcodeOfUnary op, []⟩)
    (hroom : c.start.values.length + operands.length < c.start.room) :
    c.Follows s (Eval.ofOperation (op.apply value) evaluator)
      (c.Gives depth (ip + 1) operands) := by
  obtain ⟨hfront, hvalue⟩ := h.plain_front
  obtain ⟨htop, hrest⟩ := top_one c (ip + (⟨Compile.opcodeOfUnary op, []⟩ : Instruction).size)
    operands value s.lastPopped evaluator.sink
  have hsettle := h.settle hat hfront (by rw [Snapshot.execute_unary, Snapshot.unary, htop, hrest])
    (fun _ hr => UnaryOp.isPlain_apply (hvalue value List.mem_cons_self) hr) hroom
  rwa [Snapshot.size_opcodeOfUnary] at hsettle

theorem binary (h : c.Stands depth ip (operands ++ [left] ++ [right]) evaluator s) (op : BinaryOp)
    (hat : c.site.code.Holds ip ⟨Compile.opcodeOfBinary op, []⟩)
    (hroom : c.start.values.length + operands.length < c.start.room) :
    c.Follows s (Eval.ofOperation (op.apply left right) evaluator)
      (c.Gives depth (ip + 1) operands) := by
  obtain ⟨hfront, hleft, hright⟩ := h.plain_two
  obtain ⟨hsecond, hfirst, hrest⟩ :=
    top_two c (ip + (⟨Compile.opcodeOfBinary op, []⟩ : Instruction).size) operands left right
      s.lastPopped evaluator.sink
  have hsettle := h.settle hat hfront
    (by rw [Snapshot.execute_binary, Snapshot.binary, hsecond, hfirst, hrest])
    (fun _ hr => BinaryOp.isPlain_apply hleft hright hr) hroom
  rwa [Snapshot.size_opcodeOfBinary] at hsettle

theorem index (h : c.Stands depth ip (operands ++ [left] ++ [right]) evaluator s)
    (hat : c.site.code.Holds ip ⟨.index, []⟩)
    (hroom : c.start.values.length + operands.length < c.start.room) :
    c.Follows s (Eval.ofOperation (left.index right) evaluator)
      (c.Gives depth (ip + 1) operands) := by
  obtain ⟨hfront, hleft, hright⟩ := h.plain_two
  refine h.settle hat hfront ?_ (fun _ hr => Value.isPlain_index hleft hright hr) hroom
  obtain ⟨hsecond, hfirst, hrest⟩ :=
    top_two c (ip + 1) operands left right s.lastPopped evaluator.sink
  show Snapshot.settle _ (Value.index _ _) = _
  rw [show (⟨.index, []⟩ : Instruction).size = 1 from rfl, hsecond, hfirst, hrest]

/-! ### Jumps, drops and returns -/

theorem jump (h : c.Stands depth ip operands evaluator s) {target : Nat}
    (hat : c.site.code.Holds ip ⟨.jump, [target]⟩) :
    s.Comes (c.Stands depth target operands evaluator) :=
  .step (h.step_eq hat) (.here (h.moved target h.plain s.lastPopped evaluator.sink))

/-- The condition decides for both engines. -/
theorem jumpNotTruthy (h : c.Stands depth ip (operands ++ [value]) evaluator s) {target : Nat}
    (hat : c.site.code.Holds ip ⟨.jumpNotTruthy, [target]⟩) :
    s.Comes (c.Stands depth (if value.isTruthy then ip + 3 else target) operands evaluator) := by
  have hstep := h.step_eq hat
  obtain ⟨htop, hrest⟩ := top_one c (ip + 3) operands value s.lastPopped evaluator.sink
  rw [show (⟨.jumpNotTruthy, [target]⟩ : Instruction).size = 3 from rfl,
    Snapshot.execute_jumpNotTruthy, htop, hrest] at hstep
  refine .step hstep (.here ?_)
  split
  · exact h.moved (ip + 3) h.plain_front.1 s.lastPopped evaluator.sink
  · exact h.moved target h.plain_front.1 s.lastPopped evaluator.sink

/-- A statement drops its value, and the machine remembers it. -/
theorem drop (h : c.Stands depth ip (operands ++ [value]) evaluator s)
    (hat : c.site.code.Holds ip ⟨.pop, []⟩) :
    s.Comes (c.Stands depth (ip + 1) operands evaluator) := by
  have hstep := h.step_eq hat
  obtain ⟨htop, hrest⟩ := top_one c (ip + 1) operands value s.lastPopped evaluator.sink
  rw [show (⟨.pop, []⟩ : Instruction).size = 1 from rfl, Snapshot.execute_pop, htop, hrest] at hstep
  exact .step hstep (.here (h.moved (ip + 1) h.plain_front.1 value evaluator.sink))

theorem leaves (h : c.Stands depth ip (operands ++ [value]) evaluator s)
    (hat : c.site.code.Holds ip ⟨.returnValue, []⟩) : c.Leaves value evaluator s := by
  have hstep := h.step_eq hat
  obtain ⟨htop, hrest⟩ := top_one c (ip + 1) operands value s.lastPopped evaluator.sink
  rw [show (⟨.returnValue, []⟩ : Instruction).size = 1 from rfl,
    show ∀ (s : Snapshot) frame, s.execute frame ⟨.returnValue, []⟩ = s.dropped.leave s.top
      from fun _ _ => rfl, htop, hrest] at hstep
  exact ⟨_, _, hstep⟩

theorem leaves_null (h : c.Stands depth ip operands evaluator s)
    (hat : c.site.code.Holds ip ⟨.returnNull, []⟩) : c.Leaves .null evaluator s :=
  ⟨_, _, h.step_eq hat⟩

/-- The end of a logical operator, which the code comes to by its second operand. -/
theorem truth {q : Nat} (h : c.Stands depth q (operands ++ [value]) evaluator s)
    (htest : c.site.code.Holds q ⟨.jumpNotTruthy, [q + 7]⟩)
    (htrue : c.site.code.Holds (q + 3) ⟨.pushTrue, []⟩)
    (hjump : c.site.code.Holds (q + 4) ⟨.jump, [q + 8]⟩)
    (hfalse : c.site.code.Holds (q + 7) ⟨.pushFalse, []⟩)
    (hroom : c.start.values.length + operands.length < c.start.room) :
    s.Comes (c.Gives depth (q + 8) operands (.bool value.isTruthy) evaluator) := by
  refine (h.jumpNotTruthy htest).bind fun t ht => ?_
  generalize value.isTruthy = truth at ht ⊢
  cases truth with
  | false => exact ht.pushBool false hfalse hroom
  | true => exact (ht.pushBool true htrue hroom).bind fun t ht => ht.jump hjump

/-! ### Arrays, hashes and calls -/

theorem array {items : List Value} (h : c.Stands depth ip (operands ++ items) evaluator s)
    (hat : c.site.code.Holds ip ⟨.array, [items.length]⟩)
    (hroom : c.start.values.length + operands.length < c.start.room) :
    s.Comes (c.Gives depth (ip + 3) operands (.array items) evaluator) := by
  obtain ⟨hfront, hitems⟩ := h.plain_front
  have hvalues := values_append c (ip + 3) operands items s.lastPopped evaluator.sink
  refine h.pushOnto hat hfront ?_ (arePlain_iff.mpr hitems) hroom
  show Snapshot.push (Snapshot.without _ items.length)
    (.array (Snapshot.topValues _ items.length)) = _
  rw [show (⟨Opcode.array, [items.length]⟩ : Instruction).size = 3 from rfl,
    Snapshot.topValues_of_values hvalues, Snapshot.without_of_values hvalues]
  rfl

theorem hash {pairs : List (Value × Value)}
    (h : c.Stands depth ip (operands ++ flat pairs) evaluator s)
    (hat : c.site.code.Holds ip ⟨.hash, [pairs.length * 2]⟩)
    (hroom : c.start.values.length + operands.length < c.start.room) :
    c.Follows s (Eval.ofOperation (Value.ofPairs pairs) evaluator)
      (c.Gives depth (ip + 3) operands) := by
  obtain ⟨hfront, hflat⟩ := h.plain_front
  have hvalues := values_append c (ip + 3) operands (flat pairs) s.lastPopped
    evaluator.sink
  have hplain : ∀ pair ∈ pairs, pair.1.isPlain = true ∧ pair.2.isPlain = true := by
    intro pair hm
    have hboth : ∀ value ∈ [pair.1, pair.2], value.isPlain = true := fun value hv =>
      hflat value (List.mem_flatMap.mpr ⟨pair, hm, hv⟩)
    exact ⟨hboth _ List.mem_cons_self, hboth _ (List.mem_cons_of_mem _ List.mem_cons_self)⟩
  refine h.settle hat hfront ?_ (fun _ hr => Value.isPlain_ofPairs hplain hr) hroom
  show Snapshot.settle (Snapshot.without _ (pairs.length * 2))
    (Value.ofPairs (Run.pairUp (Snapshot.topValues _ (pairs.length * 2)))) = _
  rw [show (⟨Opcode.hash, [pairs.length * 2]⟩ : Instruction).size = 3 from rfl, ← length_flat,
    Snapshot.topValues_of_values hvalues, Snapshot.without_of_values hvalues, pairUp_flat]
  rfl

/-- A built-in function writes the same on both engines. -/
theorem callBuiltin {builtin : Builtin} {arguments : List Value}
    (h : c.Stands depth ip (operands ++ .builtin builtin :: arguments) evaluator s)
    (hat : c.site.code.Holds ip ⟨.call, [arguments.length]⟩)
    (hroom : c.start.values.length + operands.length < c.start.room) :
    c.Follows s (Eval.callBuiltin builtin arguments evaluator)
      (c.Gives depth (ip + 2) operands) := by
  obtain ⟨hfront, hback⟩ := h.plain_front
  have harguments : arePlain arguments = true :=
    arePlain_iff.mpr fun value hm => hback value (List.mem_cons_of_mem _ hm)
  have hvalues := values_append c (ip + 2) operands (.builtin builtin :: arguments) s.lastPopped
  have hstep := h.step_eq hat
  rw [execute_call, size_call, Snapshot.call_builtin (hvalues _)] at hstep
  have hsink : (c.state (ip + 2) (operands ++ .builtin builtin :: arguments) s.lastPopped
      evaluator.sink).sink = evaluator.sink := rfl
  rw [hsink] at hstep
  cases hresult : builtin.call arguments evaluator.sink with
  | mk result sink =>
    rw [Eval.callBuiltin_eq hresult]
    rw [hresult] at hstep
    cases result with
    | error error => exact .here ⟨_, _, hstep, rfl, rfl⟩
    | ok value =>
      have hheight : (c.start.values ++ operands).length ≤ c.start.room := by
        rw [List.length_append]
        exact Nat.le_of_lt hroom
      have hreshape := Snapshot.reshape_of_values (hvalues sink) hheight fun s => s.push value
      exact .step (hstep.trans (hreshape.trans (push_state hroom))) (.here (h.moved (ip + 2)
        (plain_push hfront (Builtin.isPlain_call harguments hresult)) s.lastPopped sink))

/-- No plain value but a built-in function can be called. -/
theorem call {run : Nat → Block → Eval Value} {callee : Value} {arguments : List Value}
    (h : c.Stands depth ip (operands ++ callee :: arguments) evaluator s)
    (hat : c.site.code.Holds ip ⟨.call, [arguments.length]⟩)
    (hroom : c.start.values.length + operands.length < c.start.room) :
    c.Follows s (Eval.applyWith run callee arguments evaluator)
      (c.Gives depth (ip + 2) operands) := by
  have hcallee := h.plain_front.2 callee List.mem_cons_self
  have hvalues := values_append c (ip + 2) operands (callee :: arguments) s.lastPopped
    evaluator.sink
  have hstep := h.step_eq hat
  rw [execute_call, size_call, Snapshot.call, Snapshot.callee_of_values hvalues] at hstep
  cases callee with
  | builtin builtin => exact h.callBuiltin hat hroom
  | function | closure | compiled => cases hcallee
  | null | int | bool | str | array | hash => exact .here ⟨_, _, hstep, rfl, rfl⟩

end

end Stands

end Passage

end Simian
