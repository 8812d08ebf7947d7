import Simian.Proofs.AddedNames
import Simian.Proofs.EngineValues
import Simian.Proofs.Lookups
import Simian.Proofs.Nesting
import Simian.Proofs.RunningStates

/-!
# Both engines side by side

A joint state has an evaluator and a machine that are at the same place of one program,
and a list of the functions made so far. For each of these the list keeps what the names
outside of the program level meant when it was made (`Made.env`), which is what its
closure captured. `Joint.Valid` says that nothing has happened since that a closure would
miss: what occurs free in the literal still means the same (`Joint.Supports`).

This holds because a `let` binds no name that a literal before it closed over. A look-up
that passes through the scope of the `let` starts in a function made there, or in one that
lies in such a function and has the name free too.
-/
namespace Simian

/-- A function that the evaluator has made, and what the machine has for it. -/
structure Made where
  tree : TreeFunction
  /-- The names where the literal stands. -/
  table : SymbolTable
  /-- The code of the body. -/
  site : Site
  /-- What names meant when the function was made, but for those of the program itself. -/
  env : String → Option Value

namespace Made

/-- The names that occur free in the literal. -/
def free (made : Made) : List String :=
  (freeInStmts made.tree.body.statements).filter fun name =>
    made.tree.name != some name && !made.tree.parameters.contains name

/-- What the literal has compiled to. -/
def compiled (made : Made) : CompiledFunction :=
  ⟨made.tree.name, made.site.code, made.site.locals, made.tree.parameters.length⟩

/-- A closure has the code of a function made before and captured what its names meant. -/
def making (made : List Made) : Making := fun tree body values =>
  ∃ m, made[tree.id]? = some m ∧ m.tree = tree ∧ body = m.compiled ∧
    m.site.captures.map (fun symbol => m.env symbol.name) = values.map some

theorem making_mono {made later : List Made} (h : made <+: later) {tree : TreeFunction}
    {body : CompiledFunction} {values : List Value} (hm : making made tree body values) :
    making later tree body values := by
  obtain ⟨m, hat, hrest⟩ := hm
  obtain ⟨more, rfl⟩ := h
  exact ⟨m, by rw [List.getElem?_append_left (List.getElem?_eq_some_iff.mp hat).1, hat], hrest⟩

/-- The body is laid out by the rules, in the table that the literal opens. -/
structure Laid (made : Made) (pool : Array Value) (maxDepth : Nat) : Prop where
  sound : made.table.Sound
  pool_eq : made.site.pool = pool
  inFunction : made.site.inFunction = true
  body : ∃ t', TailAt .returns made.site (made.table.opened made.tree.name made.tree.parameters) 0
    made.tree.body.statements t' made.site.code.size ∧ made.site.locals = t'.inner.slots
  settled : areSettledInBody [] made.tree.body.statements = true
  nodup : made.tree.parameters.Nodup
  distinct : areDistinctStmts made.tree.body.statements = true
  nesting : nestingOfStmts made.tree.body.statements ≤ maxDepth

end Made

/-- The numbers that the engines are bounded by. -/
structure Bounds where
  /-- Nested expressions within one call. -/
  maxDepth : Nat
  /-- Calls in progress on the evaluator. -/
  maxCalls : Nat
  /-- Frames of the machine, that of the program among them. -/
  maxFrames : Nat

/-- The engines run out of calls at different depths. -/
def Bounds.Apart (bounds : Bounds) : Prop := bounds.maxFrames ≠ bounds.maxCalls + 1

/-- What stays the same while a statement of the program runs. -/
structure Setting where
  pool : Array Value
  bounds : Bounds
  /-- The names of the program so far. -/
  names : String → Option Symbol
  /-- Names that the program does not bind anew. -/
  pinned : String → Prop

abbrev Setting.maxDepth (setting : Setting) : Nat := setting.bounds.maxDepth

abbrev Setting.Apart (setting : Setting) : Prop := setting.bounds.Apart

/-- What a function depends on is as it was when the function was made. -/
structure Made.Supported (m : Made) (setting : Setting) (made : List Made) (scopes : Scopes) :
    Prop where
  laid : m.Laid setting.pool setting.maxDepth
  scope_lt : m.tree.scope < scopes.scopes.size
  kept : ∀ name ∈ m.free, scopes.local? m.tree.scope name = m.env name
  owned : ∀ name ∈ m.free, m.env name ≠ none → SymbolScope.SomeOwns name m.table.scopes
  /-- A name of the program itself is what it was where the literal stands, and stays so. -/
  shared : ∀ name ∈ m.free, m.env name = none →
    SymbolScope.lastSymbol? name m.table.scopes = setting.names name ∧ setting.pinned name
  /-- A name that is free in the literal is bound around it, or free in the literal around it. -/
  around : ∀ name ∈ m.free, m.tree.scope ≠ 0 → ∃ bindings outer,
    scopes.scopes[m.tree.scope]? = some ⟨bindings, some outer⟩ ∧
      (bindings[name]? = none → ∃ owner ∈ made, owner.tree.scope = outer ∧ name ∈ owner.free)

/-- What the symbol of the program is on both engines. -/
inductive Symbol.Means (symbol : Symbol) (name : String) (made : List Made) (scopes : Scopes)
    (globals : Globals) : Prop where
  | slot {value other : Value} : symbol.storage = .globalSlot →
    scopes.bound? 0 name = some value → globals.get symbol.index = .ok other →
    Alike (Made.making made) value other → Means symbol name made scopes globals
  | builtin {builtin : Builtin} : symbol.storage = .builtin → scopes.bound? 0 name = none →
    Builtin.ofIndex? symbol.index = some builtin → builtin.name = name →
    Means symbol name made scopes globals

structure Joint where
  made : List Made
  evaluator : Evaluator
  machine : Snapshot

namespace Joint

abbrev scopes (j : Joint) : Scopes := j.evaluator.scopes

/-- A value of the evaluator and one of the machine, up to the functions made so far. -/
abbrev Alike (j : Joint) : Value → Value → Prop := Simian.Alike (Made.making j.made)

def bounds (j : Joint) : Bounds :=
  ⟨j.evaluator.limits.maxDepth, j.evaluator.limits.maxCalls, j.machine.callLimit⟩

/-- The engines have the same data, and every function is supported. -/
structure Valid (setting : Setting) (j : Joint) : Prop where
  nextId : j.evaluator.nextId = j.made.length
  nextId_machine : j.machine.nextId = j.made.length + 1
  sink : j.evaluator.sink.fault = none
  sink_machine : j.machine.sink.fault = none
  constants : j.machine.constants = setting.pool
  bounds : j.bounds = setting.bounds
  ordered : j.scopes.Ordered
  names : ∀ name symbol, setting.names name = some symbol →
    symbol.Means name j.made j.scopes j.machine.globals
  ids : ∀ (k : Nat) (m : Made), j.made[k]? = some m → m.tree.id = k
  supported : ∀ m ∈ j.made, m.Supported setting j.made j.scopes

theorem Valid.maxDepth {setting : Setting} {j : Joint} (h : j.Valid setting) :
    j.evaluator.limits.maxDepth = setting.maxDepth := congrArg Bounds.maxDepth h.bounds

theorem Valid.maxCalls {setting : Setting} {j : Joint} (h : j.Valid setting) :
    j.evaluator.limits.maxCalls = setting.bounds.maxCalls := congrArg Bounds.maxCalls h.bounds

theorem Valid.maxFrames {setting : Setting} {j : Joint} (h : j.Valid setting) :
    j.machine.callLimit = setting.bounds.maxFrames := congrArg Bounds.maxFrames h.bounds

end Joint

/-! ### Running calls -/

/-- A call in progress on both engines, or the program itself. -/
structure Activation where
  id : Nat
  body : CompiledFunction
  captured : List Value
  /-- The frames below. -/
  rest : List Frame
  /-- The values below the frame, with the callee on top. -/
  low : List Value
  site : Site
  code_eq : body.code = site.code
  /-- The evaluator's scope of the call. -/
  scope : Nat
  /-- The function that was called. -/
  owner : Option Made

namespace Activation

/-- Calls in progress on the evaluator: the frame of the program stands for none. -/
def calls (act : Activation) : Nat := act.rest.length

def frame (act : Activation) (ip : Nat) : Frame :=
  ⟨act.id, act.body, act.captured, ip, act.low.length⟩

end Activation

/-- The local slots and the scope of a call have the same under each name. -/
structure SameLocals (of : Making) (tree : TreeFunction)
    (bindings : Std.ExtHashMap String Value) (scope : SymbolScope) (slots : List Value) : Prop where
  slot : ∀ (name : String) (symbol : Symbol), scope.symbols[name]? = some symbol →
    symbol.storage = .localSlot → ∃ value other, bindings[name]? = some value ∧
      slots[symbol.index]? = some other ∧ Alike of value other
  self : ∀ (name : String) (symbol : Symbol), scope.symbols[name]? = some symbol →
    symbol.storage = .self → bindings[name]? = some (.function tree)
  other : ∀ name : String, ¬scope.Owns name → bindings[name]? = none

/-- Where the running call finds its names. -/
inductive Activation.Finds (act : Activation) (setting : Setting) (made : List Made)
    (scopes : Scopes) (table : SymbolTable) (slots : List Value) : Prop where
  | unit : act.owner = none → act.scope = 0 → table.outer = [] →
    (∀ name : String, table.inner.symbols[name]? = setting.names name) → slots = [] →
    Finds act setting made scopes table slots
  | call {m : Made} {bindings : Std.ExtHashMap String Value} : act.owner = some m → m ∈ made →
    act.site = m.site → act.scope ≠ 0 →
    scopes.scopes[act.scope]? = some ⟨bindings, some m.tree.scope⟩ →
    List.Forall₂ SymbolScope.Grows m.table.scopes table.outer →
    Alike (Made.making made) (.function m.tree) (.closure act.id act.body act.captured) →
    SameLocals (Made.making made) m.tree bindings table.inner slots →
    slots.length = act.site.locals → Finds act setting made scopes table slots

/-- The second state comes from the first by evaluating expressions in a scope: the older scopes
and the globals are the same, and what functions were made there take only some names from
around. -/
structure Joint.Since (scope : Nat) (closed : List String) (start j : Joint) : Prop where
  made : start.made <+: j.made
  size_le : start.scopes.scopes.size ≤ j.scopes.scopes.size
  scopes : ∀ k < start.scopes.scopes.size, j.scopes.scopes[k]? = start.scopes.scopes[k]?
  globals : j.machine.globals = start.machine.globals
  born : ∀ m ∈ j.made, m ∈ start.made ∨ start.scopes.scopes.size ≤ m.tree.scope ∨
    m.tree.scope = scope ∧ ∀ name ∈ m.free, name ∈ closed

/-- The machine with other frames and values. -/
def Snapshot.placed (s : Snapshot) (calls : List Frame) (values : List Value) : Snapshot :=
  { s with calls, values }

/-- What stays the same while expressions of one statement of a call are evaluated. -/
structure Scene where
  setting : Setting
  act : Activation
  pool_eq : act.site.pool = setting.pool
  /-- Where the statement began. -/
  start : Joint
  scope_lt : act.scope < start.scopes.scopes.size
  /-- Names that function literals of the statement may take from around. -/
  closed : List String
  /-- The local slots of the call. -/
  slots : List Value

namespace Scene

/-- The running call has come to an offset, where the operands of the expressions around are
pending: on the stack of the machine, and somewhere on the way through the tree. -/
structure Stands (c : Scene) (table : SymbolTable) (depth ip : Nat) (pending : List (Value × Value))
    (j : Joint) : Prop where
  valid : j.Valid c.setting
  finds : c.act.Finds c.setting j.made j.scopes table c.slots
  sound : table.Sound
  since : Joint.Since c.act.scope c.closed c.start j
  depth : j.evaluator.depth = depth
  calls : j.evaluator.calls = c.act.calls
  frames : j.machine.calls = c.act.frame ip :: c.act.rest
  values : j.machine.values = c.act.low ++ (c.slots ++ pending.map Prod.snd)
  alike : ∀ pair ∈ pending, j.Alike pair.1 pair.2

/-- The next step of the machine ends the call with the value. -/
structure Leaves (c : Scene) (value : Value) (j : Joint) : Prop where
  valid : j.Valid c.setting
  since : Joint.Since c.act.scope c.closed c.start j
  calls : j.evaluator.calls = c.act.calls
  step : ∃ ip extra other, j.Alike value other ∧ j.machine.step =
    (j.machine.placed (c.act.frame ip :: c.act.rest) (c.act.low ++ extra)).leave other

end Scene

/-! ### Outcomes -/

/-- The evaluator's error for a fault of the machine. -/
def Fault.Matches : Fault → EvalError → Prop
  | .operation error, .operation other => other = error.inTree
  | .notCallable kind, .notCallable other => other = kind
  | .wrongArgumentCount want got, .wrongArgumentCount want' got' => want' = want ∧ got' = got
  | _, _ => False

namespace Snapshot

/-- The machine runs out of room for values, or for frames where the evaluator may have calls
left. -/
def Overflows (s : Snapshot) (apart : Prop) : Prop :=
  ∃ t fault after, s.Reaches t ∧ t.step = .fails fault after ∧
    (fault = .stackOverflow ∨ fault = .frameOverflow ∧ apart)

/-- The machine comes to such a state, or it runs out of room before. -/
def Meets (s : Snapshot) (apart : Prop) (goal : Snapshot → Prop) : Prop :=
  s.Overflows apart ∨ ∃ t, s.Reaches t ∧ goal t

/-- The next step fails with the evaluator's error, where no call is left for either engine also
by the limit. -/
def Stops (error : EvalError) (s : Snapshot) : Prop :=
  ∃ fault after, s.step = .fails fault after ∧
    (fault.Matches error ∨ fault = .frameOverflow ∧ error = .callStackExhausted)

theorem Reaches.trans {s t u : Snapshot} (hst : s.Reaches t) (htu : t.Reaches u) : s.Reaches u := by
  induction htu with
  | refl => exact hst
  | step _ hstep ih => exact .step ih hstep

variable {s t : Snapshot} {apart : Prop} {goal next : Snapshot → Prop}

theorem Meets.here (h : goal s) : s.Meets apart goal := .inr ⟨s, .refl, h⟩

theorem Meets.of_reaches (hr : s.Reaches t) (h : t.Meets apart goal) : s.Meets apart goal := by
  rcases h with ⟨u, fault, after, hu, hrest⟩ | ⟨u, hu, hg⟩
  · exact .inl ⟨u, fault, after, hr.trans hu, hrest⟩
  · exact .inr ⟨u, hr.trans hu, hg⟩

theorem Meets.step (hs : s.step = .goes t) (h : t.Meets apart goal) : s.Meets apart goal :=
  .of_reaches (.step .refl hs) h

theorem Meets.bind (h : s.Meets apart goal) (hn : ∀ t, goal t → t.Meets apart next) :
    s.Meets apart next := by
  rcases h with hover | ⟨t, ht, hg⟩
  · exact .inl hover
  · exact .of_reaches ht (hn t hg)

theorem Meets.imp (h : s.Meets apart goal) (hn : ∀ t, goal t → next t) : s.Meets apart next :=
  h.bind fun t ht => .here (hn t ht)

/-- Something else may be the case in each state that the machine comes to. -/
theorem Meets.bind_or {other : Prop} (h : s.Meets apart goal)
    (hn : ∀ t, goal t → other ∨ t.Meets apart next) : other ∨ s.Meets apart next := by
  by_cases ho : other
  · exact .inl ho
  · exact .inr (h.bind fun t ht => (hn t ht).resolve_left ho)

/-- A step that pushes goes on, or there is no room. -/
theorem Meets.push {value : Value} (hs : s.step = t.push value)
    (h : ({ t with values := t.values ++ [value] } : Snapshot).Meets apart goal) :
    s.Meets apart goal := by
  unfold Snapshot.push at hs
  split at hs
  · exact .step hs h
  · exact .inl ⟨s, .stackOverflow, t, .refl, hs, .inl rfl⟩

end Snapshot

namespace Joint

variable {α β : Type} {apart : Prop} {j : Joint} {left : Value → Joint → Prop}

/-- Whatever comes of evaluating, the machine comes to the same: what is done then, what a return
leaves, or the same error. The evaluator may have no call left where the machine has. -/
def Agrees (apart : Prop) (left : Value → Joint → Prop) (j : Joint)
    (outcome : Except Unwind α × Evaluator) (done : α → Joint → Prop) : Prop :=
  match outcome with
  | (.ok value, evaluator) =>
    j.machine.Meets apart fun s => ∃ made, done value ⟨made, evaluator, s⟩
  | (.error (.returned value), evaluator) =>
    j.machine.Meets apart fun s => ∃ made, left value ⟨made, evaluator, s⟩
  | (.error (.failed error), _) =>
    (error = .callStackExhausted ∧ apart) ∨ j.machine.Meets apart (Snapshot.Stops error)

theorem Agrees.bind {first : Eval α} {next : α → Eval β} {mid : α → Joint → Prop}
    {done : β → Joint → Prop} (h : Agrees apart left j (first j.evaluator) mid)
    (hn : ∀ value later, mid value later →
      Agrees apart left later (next value later.evaluator) done) :
    Agrees apart left j ((first >>= next) j.evaluator) done := by
  rw [Attempt.bind_apply]
  generalize first j.evaluator = outcome at h
  obtain ⟨result, evaluator⟩ := outcome
  cases result with
  | error unwind => cases unwind <;> exact h
  | ok value =>
    dsimp only [Agrees] at h ⊢
    generalize hr : next value evaluator = rest
    have hrest : ∀ s, (∃ made, mid value ⟨made, evaluator, s⟩) →
        ∃ made, Agrees apart left ⟨made, evaluator, s⟩ rest done := by
      rintro s ⟨made, hmid⟩
      exact ⟨made, hr ▸ hn value ⟨made, evaluator, s⟩ hmid⟩
    obtain ⟨result, last⟩ := rest
    cases result with
    | ok value =>
      exact h.bind fun s hs => (hrest s hs).elim fun _ hagrees => hagrees
    | error unwind =>
      cases unwind with
      | returned value => exact h.bind fun s hs => (hrest s hs).elim fun _ hagrees => hagrees
      | failed error => exact h.bind_or fun s hs => (hrest s hs).elim fun _ hagrees => hagrees

theorem Agrees.imp {outcome : Except Unwind α × Evaluator} {done more : α → Joint → Prop}
    (h : Agrees apart left j outcome done)
    (hm : ∀ value later, done value later → more value later) :
    Agrees apart left j outcome more := by
  obtain ⟨result, evaluator⟩ := outcome
  cases result with
  | ok value => exact Snapshot.Meets.imp h fun s hs => hs.imp fun made => hm value _
  | error unwind => cases unwind <;> exact h

/-- What a return leaves may be weakened. -/
theorem Agrees.imp_left {outcome : Except Unwind α × Evaluator} {done : α → Joint → Prop}
    {other : Value → Joint → Prop} (h : Agrees apart left j outcome done)
    (hl : ∀ value later, left value later → other value later) :
    Agrees apart other j outcome done := by
  obtain ⟨result, evaluator⟩ := outcome
  cases result with
  | ok value => exact h
  | error unwind =>
    cases unwind with
    | returned value => exact Snapshot.Meets.imp h fun s hs => hs.imp fun made => hl value _
    | failed error => exact h

/-- The machine takes steps on its own. -/
theorem Agrees.of_meets {outcome : Except Unwind α × Evaluator} {done : α → Joint → Prop}
    (h : j.machine.Meets apart fun s =>
      ∃ made, Agrees apart left ⟨made, j.evaluator, s⟩ outcome done) :
    Agrees apart left j outcome done := by
  obtain ⟨result, evaluator⟩ := outcome
  cases result with
  | ok value => exact h.bind fun s hs => hs.elim fun _ hagrees => hagrees
  | error unwind =>
    cases unwind with
    | returned value => exact h.bind fun s hs => hs.elim fun _ hagrees => hagrees
    | failed error => exact h.bind_or fun s hs => hs.elim fun _ hagrees => hagrees

/-- The evaluation ends here, and the machine takes some steps more. -/
theorem Agrees.andThen {outcome : Except Unwind α × Evaluator} {mid done : α → Joint → Prop}
    (h : Agrees apart left j outcome mid) (hn : ∀ value later, mid value later →
      later.machine.Meets apart fun s => done value ⟨later.made, later.evaluator, s⟩) :
    Agrees apart left j outcome done := by
  obtain ⟨result, evaluator⟩ := outcome
  cases result with
  | ok value =>
    refine Snapshot.Meets.bind h ?_
    rintro s ⟨made, hmid⟩
    exact (hn value _ hmid).imp fun s hs => ⟨made, hs⟩
  | error unwind => cases unwind <;> exact h

end Joint

/-- Agreement where a return ends the running call. -/
abbrev Scene.Agrees {α : Type} (c : Scene) (j : Joint) (outcome : Except Unwind α × Evaluator)
    (done : α → Joint → Prop) : Prop :=
  Joint.Agrees c.setting.Apart c.Leaves j outcome done

end Simian
