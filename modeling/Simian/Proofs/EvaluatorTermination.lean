import Mathlib.Data.List.Permutation
import Simian.Proofs.CarriedFunctions
import Simian.Proofs.EvaluatorBalance

-- `Mathlib.Data.List.Permutation` has the equation by which `cbv` unfolds `Prod.snd`.

/-!
# Evaluation ends within its limits

A watched evaluator walks a tree as the evaluator does, and nothing in it but a clock bounds how
far names are looked up or functions call each other: when the clock runs out, it has no result. It
notes the counts after each step. Given time enough, it ends with what the evaluator gives, and no
count that it has noted is past its limit (`Watch.ends_of_reached`).

The clock has to last for the calls in progress and for the scopes around the deepest one that a
name is looked up in. Every call counts one up, so the first are bounded by the limit, and each
scope lies in an earlier one, since the functions that are called have been made in earlier scopes.
-/
namespace Simian

/-- What a name means, given what the scopes bind it to if they do. -/
def Eval.meaning (name : String) : Option Value → Eval Value
  | some value => pure value
  | none =>
    match Builtin.ofName? name with
    | some builtin => pure (.builtin builtin)
    | none => failWith (.undefinedIdentifier name)

/-! ### The watched evaluator -/

/-- Evaluation that notes the counts after each step, and that has no result if its clock runs
out. -/
def Watch (α : Type) : Type := Evaluator → Option ((Except Unwind α × Evaluator) × List Counters)

namespace Watch

variable {α β : Type}

protected def pure (value : α) : Watch α := fun evaluator => some ((.ok value, evaluator), [])

protected def bind (first : Watch α) (next : α → Watch β) : Watch β := fun evaluator =>
  match first evaluator with
  | none => none
  | some ((.ok value, between), marks) =>
    match next value between with
    | none => none
    | some (outcome, more) => some (outcome, marks ++ more)
  | some ((.error unwind, after), marks) => some ((.error unwind, after), marks)

instance : Monad Watch where
  pure := Watch.pure
  bind := Watch.bind

/-- A step in which no expression is evaluated and nothing is called or looked up. -/
def ofEval (step : Eval α) : Watch α := fun evaluator =>
  some (step evaluator, [(step evaluator).2.counters])

/-- Evaluates one nesting level deeper, if the limit allows. -/
def nested (body : Watch α) : Watch α := fun evaluator =>
  if evaluator.limits.maxDepth ≤ evaluator.depth then
    ofEval (Eval.failWith (.nestingTooDeep evaluator.limits.maxDepth)) evaluator
  else
    match body evaluator.deeper with
    | none => none
    | some ((result, after), marks) =>
      some ((result, after.shallower),
        evaluator.deeper.counters :: (marks ++ [after.shallower.counters]))

/-- Evaluates the body of a call, if the limit allows one more. -/
def inCall (body : Watch Value) : Watch Value := fun evaluator =>
  if evaluator.limits.maxCalls ≤ evaluator.calls then
    ofEval (Eval.failWith .callStackExhausted) evaluator
  else
    match body evaluator.called with
    | none => none
    | some ((result, after), marks) =>
      some ((Eval.callResult result, evaluator.back after),
        evaluator.called.counters :: (marks ++ [(evaluator.back after).counters]))

/-- What the name is bound to in the scope or the nearest one around it, if the clock lasts for as
many scopes as have to be searched. -/
def search (scopes : Scopes) (name : String) : (clock number : Nat) → Option (Option Value)
  | 0, _ => none
  | clock + 1, number =>
    match scopes.scopes[number]? with
    | none => some none
    | some scope =>
      match scope.bindings[name]?, scope.outer with
      | some value, _ => some (some value)
      | none, some outer => search scopes name clock outer
      | none, none => some none

def lookUp (clock scope : Nat) (name : String) : Watch Value := fun evaluator =>
  match search evaluator.scopes name clock scope with
  | none => none
  | some found => ofEval (Eval.meaning name found) evaluator

/-- Calls a value. The body of a function is evaluated by `run` in the scope of the call. -/
def applyWith (run : (scope : Nat) → Block → Watch Value) (callee : Value)
    (arguments : List Value) : Watch Value := do
  match callee with
  | .function tree =>
    if arguments.length ≠ tree.parameters.length then
      ofEval (Eval.failWith (.wrongArgumentCount tree.parameters.length arguments.length))
    else
      let scope ← ofEval (Eval.onScopes (·.enclose tree.scope (Eval.callBindings tree arguments)))
      inCall (run scope tree.body)
  | .builtin builtin => ofEval (Eval.callBuiltin builtin arguments)
  | other => ofEval (Eval.failWith (.notCallable other.kind))

mutual

/-- The value of an expression in a scope, where `call` calls a value with arguments. -/
def expr (clock : Nat) (call : Value → List Value → Watch Value) (scope : Nat) : Expr → Watch Value
  | .integer value _ => nested (pure (.int value))
  | .boolean value _ => nested (pure (.bool value))
  | .string text _ => nested (pure (.str text))
  | .ident name _ => nested (lookUp clock scope name)
  | .unary op operand _ => nested do
    ofEval (Eval.ofOperation (op.apply (← expr clock call scope operand)))
  | .binary op left right _ => nested do
    let left ← expr clock call scope left
    let right ← expr clock call scope right
    ofEval (Eval.ofOperation (op.apply left right))
  | .logical .and left right _ => nested do
    if (← expr clock call scope left).isTruthy then
      pure (.bool (← expr clock call scope right).isTruthy)
    else pure (.bool false)
  | .logical .or left right _ => nested do
    if (← expr clock call scope left).isTruthy then pure (.bool true)
    else pure (.bool (← expr clock call scope right).isTruthy)
  | .bump op operand _ => nested do
    ofEval (Eval.ofOperation (op.binary.apply (← expr clock call scope operand) (.int 1)))
  | .ifThen condition thenBlock _ => nested do
    if (← expr clock call scope condition).isTruthy then block clock call scope thenBlock
    else pure .null
  | .ifElse condition thenBlock elseBlock _ => nested do
    if (← expr clock call scope condition).isTruthy then block clock call scope thenBlock
    else block clock call scope elseBlock
  | .function name parameters body _ =>
    nested (ofEval (Eval.makeFunction scope name parameters body))
  | .array elements _ => nested do
    pure (.array (← exprs clock call scope [] elements))
  | .hash pairs _ => nested do
    ofEval (Eval.ofOperation (Value.ofPairs (← entries clock call scope [] pairs)))
  | .call callee arguments _ => nested do
    let callee ← expr clock call scope callee
    let arguments ← exprs clock call scope [] arguments
    call callee arguments
  | .index collection key _ => nested do
    let collection ← expr clock call scope collection
    let key ← expr clock call scope key
    ofEval (Eval.ofOperation (collection.index key))

/-- The values of the expressions, after values given the latest first. -/
def exprs (clock : Nat) (call : Value → List Value → Watch Value) (scope : Nat)
    (values : List Value) : List Expr → Watch (List Value)
  | [] => pure values.reverse
  | item :: rest => do
    let value ← expr clock call scope item
    exprs clock call scope (value :: values) rest

/-- The values of the keys and values, after pairs given the latest first. -/
def entries (clock : Nat) (call : Value → List Value → Watch Value) (scope : Nat)
    (pairs : List (Value × Value)) : List (Expr × Expr) → Watch (List (Value × Value))
  | [] => pure pairs.reverse
  | (key, value) :: rest => do
    let key ← expr clock call scope key
    let value ← expr clock call scope value
    entries clock call scope ((key, value) :: pairs) rest

/-- The value of a block: that of its last statement, or null. -/
def block (clock : Nat) (call : Value → List Value → Watch Value) (scope : Nat) :
    Block → Watch Value
  | .mk statements _ => stmts clock call scope .null statements

/-- The value of a statement. A binding has none. -/
def stmt (clock : Nat) (call : Value → List Value → Watch Value) (scope : Nat) :
    Stmt → Watch (Option Value)
  | .bind name value _ => do
    let value ← expr clock call scope value
    ofEval (Eval.bind scope name value)
    pure none
  | .ret value _ => do
    let value ← expr clock call scope value
    ofEval (Attempt.fail (.returned value))
  | .retNull _ => ofEval (Attempt.fail (.returned .null))
  | .expr value _ => do
    pure (some (← expr clock call scope value))

/-- The value of the last statement, after statements with the value `last`. -/
def stmts (clock : Nat) (call : Value → List Value → Watch Value) (scope : Nat) (last : Value) :
    List Stmt → Watch Value
  | [] => pure last
  | statement :: rest => do
    let value ← stmt clock call scope statement
    stmts clock call scope (value.getD .null) rest

end

/-- Calls a value, if the clock lasts for the calls that are made on the way. -/
def apply : (clock : Nat) → Value → List Value → Watch Value
  | 0 => fun _ _ _ => none
  | clock + 1 => applyWith fun scope body => block clock (apply clock) scope body

/-- The value of the last statement of a program that has one, after statements with the value
`last`. -/
def programStmts (clock : Nat) (call : Value → List Value → Watch Value) (last : Value) :
    List Stmt → Watch Value
  | [] => pure last
  | statement :: rest => do
    let value ← stmt clock call 0 statement
    programStmts clock call (value.getD last) rest

/-- Runs a program with this much time. -/
def run (clock : Nat) (evaluator : Evaluator) (tree : Program) :
    Option ((Except EvalError Value × Evaluator) × List Counters) :=
  match programStmts clock (apply clock) .null tree.statements evaluator.started with
  | none => none
  | some ((result, after), marks) =>
    some ((Eval.programResult result, after), evaluator.started.counters :: marks)

end Watch

/-! ### Evaluators within their limits -/

def Counters.Within (limits : EvaluatorLimits) (counters : Counters) : Prop :=
  counters.depth ≤ limits.maxDepth ∧ counters.calls ≤ limits.maxCalls

/-- Every function in the value was made in one of the first scopes, this many. -/
def Value.Rooted (size : Nat) (value : Value) : Prop := value.Carries (·.scope < size)

theorem Value.Rooted.mono {size more : Nat} {value : Value} (h : value.Rooted size)
    (hle : size ≤ more) : value.Rooted more :=
  Value.Carries.mono h fun _ hlt => Nat.lt_of_lt_of_le hlt hle

/-- Each scope lies in an earlier one, and the functions that are bound were made in scopes that
there are. -/
structure Scopes.Rooted (scopes : Scopes) : Prop where
  ordered : scopes.Ordered
  functions : scopes.Carries (·.scope < scopes.scopes.size)

namespace Evaluator

/-- The evaluator keeps these limits and has this many calls left. -/
structure Within (limits : EvaluatorLimits) (callsLeft : Nat) (evaluator : Evaluator) : Prop where
  limits_eq : evaluator.limits = limits
  depth_le : evaluator.depth ≤ limits.maxDepth
  calls_eq : evaluator.calls + callsLeft = limits.maxCalls
  rooted : evaluator.scopes.Rooted

variable {limits : EvaluatorLimits} {callsLeft : Nat} {evaluator : Evaluator}

theorem Within.counters (h : evaluator.Within limits callsLeft) :
    evaluator.counters.Within limits :=
  ⟨h.depth_le, Nat.le.intro h.calls_eq⟩

theorem Within.deeper (h : evaluator.Within limits callsLeft)
    (hroom : ¬evaluator.limits.maxDepth ≤ evaluator.depth) :
    evaluator.deeper.Within limits callsLeft := by
  rw [h.limits_eq] at hroom
  exact ⟨h.limits_eq, Nat.lt_of_not_le hroom, h.calls_eq, h.rooted⟩

theorem Within.shallower (h : evaluator.Within limits callsLeft) :
    evaluator.shallower.Within limits callsLeft :=
  ⟨h.limits_eq, Nat.le_trans (Nat.sub_le _ _) h.depth_le, h.calls_eq, h.rooted⟩

theorem Within.called (h : evaluator.Within limits callsLeft)
    (hroom : ¬evaluator.limits.maxCalls ≤ evaluator.calls) :
    ∃ left, callsLeft = left + 1 ∧ evaluator.called.Within limits left := by
  rw [h.limits_eq] at hroom
  have hcalls := h.calls_eq
  have hleft : evaluator.calls + 1 + (callsLeft - 1) = limits.maxCalls := by omega
  exact ⟨callsLeft - 1, by omega, h.limits_eq, Nat.zero_le _, hleft, h.rooted⟩

theorem Within.back {after : Evaluator} (h : evaluator.Within limits (callsLeft + 1))
    (ha : after.Within limits callsLeft) :
    (evaluator.back after).Within limits (callsLeft + 1) := by
  have hbefore := h.calls_eq
  have hafter := ha.calls_eq
  have hcalls : after.calls - 1 + (callsLeft + 1) = limits.maxCalls := by omega
  exact ⟨ha.limits_eq, h.depth_le, hcalls, ha.rooted⟩

end Evaluator

namespace Watch

variable {α β : Type}

/-- What a result is worth where there are so many scopes. -/
def Fine (good : Nat → α → Prop) (size : Nat) : Except Unwind α → Prop
  | .ok value => good size value
  | .error (.returned value) => value.Rooted size
  | .error (.failed _) => True

theorem Fine.callResult {size : Nat} {result : Except Unwind Value}
    (h : Fine Value.Rooted size result) : Fine Value.Rooted size (Eval.callResult result) := by
  rcases result with (value | error) | value
  · exact h
  · exact h
  · exact h

/-- The step keeps within the limits with so many calls left, from where there are at least so many
scopes, and closes none. -/
def Keeps (limits : EvaluatorLimits) (callsLeft least : Nat) (good : Nat → α → Prop)
    (step : Eval α) : Prop :=
  ∀ evaluator : Evaluator, evaluator.Within limits callsLeft →
    least ≤ evaluator.scopes.scopes.size →
    (step evaluator).2.Within limits callsLeft ∧
      evaluator.scopes.scopes.size ≤ (step evaluator).2.scopes.scopes.size ∧
      Fine good (step evaluator).2.scopes.scopes.size (step evaluator).1

/-- Given time enough, the watched step ends as the step does, and all counts on the way are within
the limits. -/
structure Tracks (limits : EvaluatorLimits) (callsLeft least : Nat) (good : Nat → α → Prop)
    (step : Eval α) (watched : Nat → Watch α) : Prop where
  keeps : Keeps limits callsLeft least good step
  ends : ∀ evaluator : Evaluator, evaluator.Within limits callsLeft →
    least ≤ evaluator.scopes.scopes.size →
    ∃ clock marks, (∀ more, clock ≤ more → watched more evaluator = some (step evaluator, marks)) ∧
      ∀ mark ∈ marks, mark.Within limits

variable {limits : EvaluatorLimits} {callsLeft least : Nat} {good : Nat → α → Prop}
  {fine : Nat → β → Prop}

/-! ### Single steps -/

namespace Keeps

theorem pure {value : α} (h : ∀ size, least ≤ size → good size value) :
    Keeps limits callsLeft least good (Pure.pure value : Eval α) :=
  fun _ hw hl => ⟨hw, Nat.le_refl _, h _ hl⟩

theorem failWith {error : EvalError} :
    Keeps limits callsLeft least good (Eval.failWith error : Eval α) :=
  fun _ hw _ => ⟨hw, Nat.le_refl _, trivial⟩

theorem returned {value : Value} (h : value.Rooted least) :
    Keeps limits callsLeft least good (Attempt.fail (.returned value) : Eval α) :=
  fun _ hw hl => ⟨hw, Nat.le_refl _, h.mono hl⟩

/-- An operation that gives good results. -/
theorem ofOperation {result : Except OperationError α}
    (h : ∀ value, result = .ok value → ∀ size, least ≤ size → good size value) :
    Keeps limits callsLeft least good (Eval.ofOperation result) := by
  cases result with
  | ok value => exact pure (h value rfl)
  | error error => exact failWith

/-- Binding a value opens no scope and closes none. -/
theorem bindName (scope : Nat) (name : String) {value : Value} (hv : value.Rooted least) :
    Keeps limits callsLeft least (fun _ _ => True) (Eval.bind scope name value) := by
  intro evaluator hw hl
  have hsize := Scopes.size_set evaluator.scopes scope name value
  refine ⟨⟨hw.limits_eq, hw.depth_le, hw.calls_eq, ⟨?_, ?_⟩⟩, Nat.le_of_eq hsize.symm, trivial⟩
  · exact hw.rooted.ordered.set scope name value
  · exact (hw.rooted.functions.set scope name (hv.mono hl)).mono
      fun _ hlt => Nat.lt_of_lt_of_eq hlt hsize.symm

/-- A scope is opened behind all others, in an earlier one. -/
theorem enclose {outer : Nat} {bindings : Std.ExtHashMap String Value} (ho : outer < least)
    (hb : CarryAll (·.scope < least) bindings) :
    Keeps limits callsLeft least (fun size scope => scope < size)
      (Eval.onScopes (·.enclose outer bindings)) := by
  intro evaluator hw hl
  have hsize : (evaluator.scopes.enclose outer bindings).2.scopes.size =
      evaluator.scopes.scopes.size + 1 := Array.size_push _
  refine ⟨⟨hw.limits_eq, hw.depth_le, hw.calls_eq, ⟨?_, ?_⟩⟩, ?_, ?_⟩
  · exact hw.rooted.ordered.enclose (Nat.lt_of_lt_of_le ho hl)
  · have hbound : CarryAll (·.scope < evaluator.scopes.scopes.size) bindings :=
      fun name value hv => (hb name value hv).mono fun _ hlt => Nat.lt_of_lt_of_le hlt hl
    exact (hw.rooted.functions.enclose outer hbound).mono
      fun _ hlt => Nat.lt_of_lt_of_eq (Nat.lt_succ_of_lt hlt) hsize.symm
  · exact Nat.le_of_lt (Nat.lt_of_lt_of_eq (Nat.lt_succ_self _) hsize.symm)
  · exact Nat.lt_of_lt_of_eq (Nat.lt_succ_self _) hsize.symm

theorem makeFunction {scope : Nat} (hs : scope < least) (name : Option String)
    (parameters : List String) (body : Block) :
    Keeps limits callsLeft least Value.Rooted (Eval.makeFunction scope name parameters body) := by
  intro evaluator hw hl
  refine ⟨⟨hw.limits_eq, hw.depth_le, hw.calls_eq, hw.rooted⟩, Nat.le_refl _, ?_⟩
  exact Value.carries_function.mpr (Nat.lt_of_lt_of_le hs hl)

theorem lookUp (scope : Nat) (name : String) :
    Keeps limits callsLeft least Value.Rooted (Eval.lookUp scope name) := by
  intro evaluator hw _
  have hmeaning : Keeps limits callsLeft evaluator.scopes.scopes.size Value.Rooted
      (Eval.meaning name (evaluator.scopes.find? scope name)) := by
    unfold Eval.meaning
    split
    next value hfind =>
      have hrooted : value.Rooted evaluator.scopes.scopes.size := hw.rooted.functions.find? hfind
      exact pure fun _ hsize => hrooted.mono hsize
    · split
      next builtin _ => exact pure fun _ _ => Value.carries_builtin builtin
      · exact failWith
  exact hmeaning evaluator hw (Nat.le_refl _)

theorem callBuiltin (builtin : Builtin) {arguments : List Value}
    (ha : ∀ item ∈ arguments, item.Rooted least) :
    Keeps limits callsLeft least Value.Rooted (Eval.callBuiltin builtin arguments) := by
  rintro ⟨scopes, sink, nextId, depth, calls, limits⟩ hw hl
  have hresult : ∀ value, (builtin.call arguments sink).1 = .ok value →
      ∀ size, least ≤ size → value.Rooted size := by
    intro value hv size hsize
    have hrooted : value.Rooted least := Builtin.carries_call ha (Prod.ext hv rfl)
    exact hrooted.mono hsize
  exact ofOperation hresult ⟨scopes, (builtin.call arguments sink).2, nextId, depth, calls, limits⟩
    ⟨hw.limits_eq, hw.depth_le, hw.calls_eq, hw.rooted⟩ hl

end Keeps

/-! ### Looking names up -/

/-- A search outward passes through earlier and earlier scopes. -/
theorem search_eq {scopes : Scopes} (ho : scopes.Ordered) (name : String) {clock number : Nat}
    (h : number < clock) : search scopes name clock number = some (scopes.find? number name) := by
  induction clock generalizing number with
  | zero => exact absurd h (Nat.not_lt_zero _)
  | succ clock ih =>
    rw [search, Scopes.find?]
    cases hscope : scopes.scopes[number]? with
    | none => rfl
    | some scope =>
      dsimp only
      cases scope.bindings[name]? with
      | some value => rfl
      | none =>
        cases houter : scope.outer with
        | none => rfl
        | some outer =>
          have hlt : outer < number := ho.outer_lt hscope houter
          dsimp only
          rw [if_pos hlt]
          exact ih (by omega)

/-! ### Steps in a row -/

namespace Tracks

variable {step first : Eval α} {watched : Nat → Watch α}

theorem ofEval (h : Keeps limits callsLeft least good step) :
    Tracks limits callsLeft least good step fun _ => ofEval step where
  keeps := h
  ends evaluator hw hl :=
    ⟨0, _, fun _ _ => rfl, List.forall_mem_singleton.mpr (h evaluator hw hl).1.counters⟩

theorem pure {value : α} (h : ∀ size, least ≤ size → good size value) :
    Tracks limits callsLeft least good (Pure.pure value) fun _ => Pure.pure value where
  keeps := .pure h
  ends _ _ _ := ⟨0, [], fun _ _ => rfl, List.forall_mem_nil _⟩

theorem failWith (error : EvalError) : Tracks limits callsLeft least good (Eval.failWith error)
    fun _ => Watch.ofEval (Eval.failWith error) :=
  ofEval .failWith

/-- More scopes to begin with do no harm. -/
theorem mono {more : Nat} (h : Tracks limits callsLeft least good step watched)
    (hle : least ≤ more) : Tracks limits callsLeft more good step watched where
  keeps evaluator hw hl := h.keeps evaluator hw (Nat.le_trans hle hl)
  ends evaluator hw hl := h.ends evaluator hw (Nat.le_trans hle hl)

/-- A step that takes a tick of the clock. -/
theorem tick (h : Tracks limits callsLeft least good step fun clock => watched (clock + 1)) :
    Tracks limits callsLeft least good step watched where
  keeps := h.keeps
  ends evaluator hw hl := by
    obtain ⟨clock, marks, hends, hmarks⟩ := h.ends evaluator hw hl
    refine ⟨clock + 1, marks, fun more hmore => ?_, hmarks⟩
    cases more with
    | zero => omega
    | succ rest => exact hends rest (by omega)

theorem bind {next : α → Eval β} {other : Nat → α → Watch β}
    (hf : Tracks limits callsLeft least good first watched)
    (hn : ∀ size, least ≤ size → ∀ value, good size value →
      Tracks limits callsLeft size fine (next value) fun clock => other clock value) :
    Tracks limits callsLeft least fine (first >>= next)
      fun clock => watched clock >>= other clock where
  keeps := by
    intro evaluator hw hl
    have hfirst := hf.keeps evaluator hw hl
    rw [Attempt.bind_apply]
    generalize first evaluator = outcome at hfirst
    obtain ⟨result, between⟩ := outcome
    obtain ⟨hbetween, hsize, hgood⟩ := hfirst
    rcases result with (value | error) | value
    · exact ⟨hbetween, hsize, hgood⟩
    · exact ⟨hbetween, hsize, trivial⟩
    · obtain ⟨hafter, hgrown, hfine⟩ :=
        (hn _ (Nat.le_trans hl hsize) value hgood).keeps between hbetween (Nat.le_refl _)
      exact ⟨hafter, Nat.le_trans hsize hgrown, hfine⟩
  ends := by
    intro evaluator hw hl
    obtain ⟨clock, marks, hends, hmarks⟩ := hf.ends evaluator hw hl
    have hfirst := hf.keeps evaluator hw hl
    rw [Attempt.bind_apply]
    generalize first evaluator = outcome at hfirst hends
    obtain ⟨result, between⟩ := outcome
    obtain ⟨hbetween, hsize, hgood⟩ := hfirst
    cases result with
    | error unwind =>
      refine ⟨clock, marks, fun more hmore => ?_, hmarks⟩
      change Watch.bind (watched more) (other more) evaluator = _
      rw [Watch.bind, hends more hmore]
    | ok value =>
      obtain ⟨later, notes, hlater, hnotes⟩ :=
        (hn _ (Nat.le_trans hl hsize) value hgood).ends between hbetween (Nat.le_refl _)
      refine ⟨max clock later, marks ++ notes, fun more hmore => ?_,
        List.forall_mem_append.mpr ⟨hmarks, hnotes⟩⟩
      change Watch.bind (watched more) (other more) evaluator = _
      rw [Watch.bind, hends more (by omega)]
      dsimp only
      rw [hlater more (by omega)]

theorem ite {condition : Prop} [Decidable condition] {second : Eval α} {other : Nat → Watch α}
    (hf : condition → Tracks limits callsLeft least good first watched)
    (hs : ¬condition → Tracks limits callsLeft least good second other) :
    Tracks limits callsLeft least good (if condition then first else second)
      fun clock => if condition then watched clock else other clock := by
  split
  next hc => exact hf hc
  next hc => exact hs hc

/-- Within a level more the depth is still in its limit, as far as the limit allows the level. -/
theorem nested {body : Eval α} (h : Tracks limits callsLeft least good body watched) :
    Tracks limits callsLeft least good (Eval.nested body) fun clock => nested (watched clock) := by
  constructor
  · intro evaluator hw hl
    rw [Eval.nested_eq]
    split
    · exact Keeps.failWith evaluator hw hl
    next hroom =>
      obtain ⟨hafter, hsize, hgood⟩ := h.keeps _ (hw.deeper hroom) hl
      exact ⟨hafter.shallower, hsize, hgood⟩
  · intro evaluator hw hl
    rw [Eval.nested_eq]
    by_cases hroom : evaluator.limits.maxDepth ≤ evaluator.depth
    · have hfails : Tracks limits callsLeft least good _ _ :=
        failWith (.nestingTooDeep evaluator.limits.maxDepth)
      simp only [Watch.nested, if_pos hroom]
      exact hfails.ends evaluator hw hl
    · have hin := hw.deeper hroom
      obtain ⟨clock, marks, hends, hmarks⟩ := h.ends _ hin hl
      have hafter := (h.keeps _ hin hl).1.shallower
      refine ⟨clock, _, fun more hmore => ?_, List.forall_mem_cons.mpr ⟨hin.counters,
        List.forall_mem_append.mpr ⟨hmarks, List.forall_mem_singleton.mpr hafter.counters⟩⟩⟩
      rw [Watch.nested, if_neg hroom, if_neg hroom, hends more hmore]

/-- In a call one call less is left, and as many as before are left behind it. -/
theorem inCall {body : Eval Value} {watched : Nat → Watch Value}
    (h : ∀ left, callsLeft = left + 1 → Tracks limits left least Value.Rooted body watched) :
    Tracks limits callsLeft least Value.Rooted (Eval.inCall body)
      fun clock => inCall (watched clock) := by
  constructor
  · intro evaluator hw hl
    rw [Eval.inCall_eq]
    split
    · exact Keeps.failWith evaluator hw hl
    next hroom =>
      obtain ⟨left, rfl, hin⟩ := hw.called hroom
      obtain ⟨hafter, hsize, hgood⟩ := (h left rfl).keeps _ hin hl
      exact ⟨hw.back hafter, hsize, hgood.callResult⟩
  · intro evaluator hw hl
    rw [Eval.inCall_eq]
    by_cases hroom : evaluator.limits.maxCalls ≤ evaluator.calls
    · have hfails : Tracks limits callsLeft least Value.Rooted _ _ := failWith .callStackExhausted
      simp only [Watch.inCall, if_pos hroom]
      exact hfails.ends evaluator hw hl
    · obtain ⟨left, rfl, hin⟩ := hw.called hroom
      obtain ⟨clock, marks, hends, hmarks⟩ := (h left rfl).ends _ hin hl
      have hafter := hw.back ((h left rfl).keeps _ hin hl).1
      refine ⟨clock, _, fun more hmore => ?_, List.forall_mem_cons.mpr ⟨hin.counters,
        List.forall_mem_append.mpr ⟨hmarks, List.forall_mem_singleton.mpr hafter.counters⟩⟩⟩
      rw [Watch.inCall, if_neg hroom, if_neg hroom, hends more hmore]

/-- The clock has to last for the scopes around, which are all earlier ones. -/
theorem lookUp (scope : Nat) (name : String) :
    Tracks limits callsLeft least Value.Rooted (Eval.lookUp scope name)
      fun clock => lookUp clock scope name where
  keeps := .lookUp scope name
  ends evaluator hw hl := by
    refine ⟨scope + 1, _, fun more hmore => ?_,
      List.forall_mem_singleton.mpr (Keeps.lookUp scope name evaluator hw hl).1.counters⟩
    rw [Watch.lookUp, search_eq hw.rooted.ordered name hmore]
    rfl

/-- A call of a value whose functions were made in scopes that there are. -/
theorem applyWith {run : Nat → Block → Eval Value} {watched : Nat → Nat → Block → Watch Value}
    (hrun : ∀ left, callsLeft = left + 1 → ∀ scope body size, scope < size →
      Tracks limits left size Value.Rooted (run scope body) fun clock => watched clock scope body)
    {callee : Value} {arguments : List Value} (hc : callee.Rooted least)
    (ha : ∀ item ∈ arguments, item.Rooted least) :
    Tracks limits callsLeft least Value.Rooted (Eval.applyWith run callee arguments)
      fun clock => applyWith (watched clock) callee arguments := by
  cases callee with
  | function tree =>
    apply ite
    · intro _
      exact failWith _
    · intro _
      apply bind (ofEval (.enclose (Value.carries_function.mp hc) (carryAll_callBindings hc ha)))
      intro size _ scope hscope
      exact inCall fun left hleft => hrun left hleft scope tree.body size hscope
  | builtin builtin => exact ofEval (.callBuiltin builtin ha)
  | _ => exact failWith _

/-! ### Trees -/

/-- Calls of values whose functions were made in scopes that there are end as they do unwatched. -/
def Calls (limits : EvaluatorLimits) (callsLeft : Nat) (call : Value → List Value → Eval Value)
    (watched : Nat → Value → List Value → Watch Value) : Prop :=
  ∀ (least : Nat) (callee : Value) (arguments : List Value), callee.Rooted least →
    (∀ item ∈ arguments, item.Rooted least) →
    Tracks limits callsLeft least Value.Rooted (call callee arguments)
      fun clock => watched clock callee arguments

section
variable {call : Value → List Value → Eval Value} {watched : Nat → Value → List Value → Watch Value}
  {scope : Nat}

theorem scalar {result : Except OperationError Value}
    (h : ∀ value, result = .ok value → value.IsScalar) :
    Tracks limits callsLeft least Value.Rooted (Eval.ofOperation result)
      fun _ => Watch.ofEval (Eval.ofOperation result) :=
  ofEval (.ofOperation fun value hv _ _ => (h value hv).carries)

mutual

theorem expr {least : Nat} (hcall : Calls limits callsLeft call watched) (hs : scope < least)
    (tree : Expr) :
    Tracks limits callsLeft least Value.Rooted (Eval.expr call scope tree)
      fun clock => Watch.expr clock (watched clock) scope tree := by
  match tree with
  | .integer _ _ | .boolean _ _ | .string _ _ =>
    simp only [Eval.expr, Watch.expr]
    exact nested (pure fun _ _ => Value.IsScalar.carries trivial)
  | .ident name _ =>
    simp only [Eval.expr, Watch.expr]
    exact nested (lookUp scope name)
  | .unary op operand _ =>
    simp only [Eval.expr, Watch.expr]
    apply nested
    apply bind (expr hcall hs operand)
    intro _ _ value _
    exact scalar fun _ => UnaryOp.isScalar_of_apply
  | .binary op left right _ =>
    simp only [Eval.expr, Watch.expr]
    apply nested
    apply bind (expr hcall hs left)
    intro _ hsize first _
    apply bind ((expr hcall hs right).mono hsize)
    intro _ _ second _
    exact scalar fun _ => BinaryOp.isScalar_of_apply
  | .logical .and left right _ =>
    simp only [Eval.expr, Watch.expr]
    apply nested
    apply bind (expr hcall hs left)
    intro _ hsize first _
    apply ite
    · intro _
      apply bind ((expr hcall hs right).mono hsize)
      intro _ _ second _
      exact pure fun _ _ => Value.IsScalar.carries trivial
    · intro _
      exact pure fun _ _ => Value.IsScalar.carries trivial
  | .logical .or left right _ =>
    simp only [Eval.expr, Watch.expr]
    apply nested
    apply bind (expr hcall hs left)
    intro _ hsize first _
    apply ite
    · intro _
      exact pure fun _ _ => Value.IsScalar.carries trivial
    · intro _
      apply bind ((expr hcall hs right).mono hsize)
      intro _ _ second _
      exact pure fun _ _ => Value.IsScalar.carries trivial
  | .bump op operand _ =>
    simp only [Eval.expr, Watch.expr]
    apply nested
    apply bind (expr hcall hs operand)
    intro _ _ value _
    exact scalar fun _ => BinaryOp.isScalar_of_apply
  | .ifThen condition thenBlock _ =>
    simp only [Eval.expr, Watch.expr]
    apply nested
    apply bind (expr hcall hs condition)
    intro _ hsize truth _
    apply ite
    · intro _
      exact (block hcall hs thenBlock).mono hsize
    · intro _
      exact pure fun _ _ => Value.carries_null
  | .ifElse condition thenBlock elseBlock _ =>
    simp only [Eval.expr, Watch.expr]
    apply nested
    apply bind (expr hcall hs condition)
    intro _ hsize truth _
    apply ite
    · intro _
      exact (block hcall hs thenBlock).mono hsize
    · intro _
      exact (block hcall hs elseBlock).mono hsize
  | .function name parameters body _ =>
    simp only [Eval.expr, Watch.expr]
    exact nested (ofEval (.makeFunction hs name parameters body))
  | .array elements _ =>
    simp only [Eval.expr, Watch.expr]
    apply nested
    apply bind (exprs hcall hs elements (List.forall_mem_nil _))
    intro _ _ values hvalues
    exact pure fun _ hsize => Value.Rooted.mono (Value.carries_array hvalues) hsize
  | .hash pairs _ =>
    simp only [Eval.expr, Watch.expr]
    apply nested
    apply bind (entries hcall hs pairs (List.forall_mem_nil _))
    intro _ _ values hvalues
    refine ofEval (.ofOperation fun value hv _ hsize => ?_)
    exact Value.Rooted.mono (Value.carries_ofPairs hvalues hv) hsize
  | .call callee arguments _ =>
    simp only [Eval.expr, Watch.expr]
    apply nested
    apply bind (expr hcall hs callee)
    intro _ hsize function hfunction
    apply bind ((exprs hcall hs arguments (List.forall_mem_nil _)).mono hsize)
    intro size hgrown values hvalues
    exact hcall size function values (hfunction.mono hgrown) hvalues
  | .index collection key _ =>
    simp only [Eval.expr, Watch.expr]
    apply nested
    apply bind (expr hcall hs collection)
    intro _ hsize first hfirst
    apply bind ((expr hcall hs key).mono hsize)
    intro _ hgrown second hsecond
    refine ofEval (.ofOperation fun value hv _ hmore => ?_)
    exact Value.Rooted.mono (Value.Carries.index (hfirst.mono hgrown) hsecond hv) hmore

theorem exprs {least : Nat} (hcall : Calls limits callsLeft call watched) (hs : scope < least)
    (items : List Expr) {values : List Value} (hv : ∀ value ∈ values, value.Rooted least) :
    Tracks limits callsLeft least (fun size values => ∀ value ∈ values, value.Rooted size)
      (Eval.exprs call scope values items)
      fun clock => Watch.exprs clock (watched clock) scope values items := by
  match items with
  | [] =>
    simp only [Eval.exprs, Watch.exprs]
    exact pure fun _ hsize value hm => (hv value (List.mem_reverse.mp hm)).mono hsize
  | item :: rest =>
    simp only [Eval.exprs, Watch.exprs]
    apply bind (expr hcall hs item)
    intro _ hsize value hvalue
    apply exprs hcall (Nat.lt_of_lt_of_le hs hsize) rest
    exact List.forall_mem_cons.mpr ⟨hvalue, fun other hm => (hv other hm).mono hsize⟩

theorem entries {least : Nat} (hcall : Calls limits callsLeft call watched) (hs : scope < least)
    (items : List (Expr × Expr)) {pairs : List (Value × Value)}
    (hp : ∀ pair ∈ pairs, pair.1.Rooted least ∧ pair.2.Rooted least) :
    Tracks limits callsLeft least
      (fun size pairs => ∀ pair ∈ pairs, pair.1.Rooted size ∧ pair.2.Rooted size)
      (Eval.entries call scope pairs items)
      fun clock => Watch.entries clock (watched clock) scope pairs items := by
  match items with
  | [] =>
    simp only [Eval.entries, Watch.entries]
    refine pure fun _ hsize pair hm => ?_
    obtain ⟨hkey, hvalue⟩ := hp pair (List.mem_reverse.mp hm)
    exact ⟨hkey.mono hsize, hvalue.mono hsize⟩
  | (key, value) :: rest =>
    simp only [Eval.entries, Watch.entries]
    apply bind (expr hcall hs key)
    intro _ hsize first hfirst
    apply bind ((expr hcall hs value).mono hsize)
    intro _ hgrown second hsecond
    have hboth := Nat.le_trans hsize hgrown
    apply entries hcall (Nat.lt_of_lt_of_le hs hboth) rest
    exact List.forall_mem_cons.mpr ⟨⟨hfirst.mono hgrown, hsecond⟩,
      fun pair hm => ⟨(hp pair hm).1.mono hboth, (hp pair hm).2.mono hboth⟩⟩

theorem block {least : Nat} (hcall : Calls limits callsLeft call watched) (hs : scope < least)
    (tree : Block) :
    Tracks limits callsLeft least Value.Rooted (Eval.block call scope tree)
      fun clock => Watch.block clock (watched clock) scope tree := by
  match tree with
  | .mk statements _ =>
    simp only [Eval.block, Watch.block]
    exact stmts hcall hs statements Value.carries_null

theorem stmt {least : Nat} (hcall : Calls limits callsLeft call watched) (hs : scope < least)
    (tree : Stmt) :
    Tracks limits callsLeft least
      (fun size result => ∀ value, result = some value → value.Rooted size)
      (Eval.stmt call scope tree)
      fun clock => Watch.stmt clock (watched clock) scope tree := by
  match tree with
  | .bind name value _ =>
    simp only [Eval.stmt, Watch.stmt]
    apply bind (expr hcall hs value)
    intro _ _ found hfound
    apply bind (ofEval (.bindName scope name hfound))
    intro _ _ _ _
    exact pure fun _ _ _ hn => nomatch hn
  | .ret value _ =>
    simp only [Eval.stmt, Watch.stmt]
    apply bind (expr hcall hs value)
    intro _ _ found hfound
    exact ofEval (.returned hfound)
  | .retNull _ =>
    simp only [Eval.stmt, Watch.stmt]
    exact ofEval (.returned Value.carries_null)
  | .expr value _ =>
    simp only [Eval.stmt, Watch.stmt]
    apply bind (expr hcall hs value)
    intro _ _ found hfound
    exact pure fun _ hsize _ hv => Option.some.inj hv ▸ hfound.mono hsize

theorem stmts {least : Nat} (hcall : Calls limits callsLeft call watched) (hs : scope < least)
    (trees : List Stmt) {last : Value} (hl : last.Rooted least) :
    Tracks limits callsLeft least Value.Rooted (Eval.stmts call scope last trees)
      fun clock => Watch.stmts clock (watched clock) scope last trees := by
  match trees with
  | [] =>
    simp only [Eval.stmts, Watch.stmts]
    exact pure fun _ hsize => hl.mono hsize
  | statement :: rest =>
    simp only [Eval.stmts, Watch.stmts]
    apply bind (stmt hcall hs statement)
    intro _ hsize result hresult
    apply stmts hcall (Nat.lt_of_lt_of_le hs hsize) rest
    cases result with
    | none => exact Value.carries_null
    | some value => exact hresult value rfl

end

/-- By induction on the calls left: a call takes a tick of the clock and leaves one call less. -/
theorem calls_apply (callsLeft : Nat) : Calls limits callsLeft (Eval.apply callsLeft) apply := by
  induction callsLeft with
  | zero =>
    intro least callee arguments hc ha
    apply tick
    exact applyWith (fun _ hleft => absurd hleft.symm (Nat.succ_ne_zero _)) hc ha
  | succ callsLeft ih =>
    intro least callee arguments hc ha
    apply tick
    refine applyWith (fun left hleft scope body size hscope => ?_) hc ha
    obtain rfl : callsLeft = left := Nat.succ.inj hleft
    exact block ih hscope body

theorem programStmts (hcall : Calls limits callsLeft call watched) (hs : 0 < least)
    (trees : List Stmt) {last : Value} (hl : last.Rooted least) :
    Tracks limits callsLeft least Value.Rooted (Eval.programStmts call last trees)
      fun clock => Watch.programStmts clock (watched clock) last trees := by
  induction trees generalizing last least with
  | nil => exact pure fun _ hsize => hl.mono hsize
  | cons statement rest ih =>
    simp only [Eval.programStmts, Watch.programStmts]
    apply bind (stmt hcall hs statement)
    intro _ hsize result hresult
    apply ih (Nat.lt_of_lt_of_le hs hsize)
    cases result with
    | none => exact hl.mono hsize
    | some value => exact hresult value rfl

end

end Tracks

end Watch

/-! ### Programs -/

namespace Evaluator

/-- The evaluators that runs of programs lead to. Between two programs other limits may be set, and
other output. -/
inductive Reached : Evaluator → Prop where
  | create (limits : EvaluatorLimits) : Reached (create limits)
  | run {evaluator : Evaluator} (h : Reached evaluator) (tree : Program) :
    Reached (evaluator.run tree).2
  | configure {evaluator : Evaluator} (h : Reached evaluator) (limits : EvaluatorLimits)
    (sink : Sink) : Reached { evaluator with limits, sink }

variable {evaluator : Evaluator}

theorem within_started (h : evaluator.scopes.Rooted) :
    evaluator.started.Within evaluator.limits evaluator.limits.maxCalls :=
  ⟨rfl, Nat.zero_le _, Nat.zero_add _, h⟩

theorem tracks_program (limits : EvaluatorLimits) (tree : Program) :
    Watch.Tracks limits limits.maxCalls 1 Value.Rooted
      (Eval.programStmts (Eval.apply limits.maxCalls) .null tree.statements)
      fun clock => Watch.programStmts clock (Watch.apply clock) .null tree.statements :=
  .programStmts (.calls_apply _) Nat.one_pos tree.statements Value.carries_null

theorem Reached.rooted (h : evaluator.Reached) : evaluator.scopes.Rooted := by
  induction h with
  | create limits => exact ⟨Scopes.ordered_create, Scopes.carries_create⟩
  | @run evaluator _ tree ih =>
    rw [run_eq]
    exact ((tracks_program _ tree).keeps _ (within_started ih) ih.ordered.size_pos).1.rooted
  | configure _ limits sink ih => exact ih

end Evaluator

namespace Watch

/-- Every program ends, in whatever evaluator earlier programs have left, failed ones too: a clock
that lasts long enough changes nothing. On the way the counts stay within the limits. Behind every
expression and every call they are what they were before, however these end, so that a program
leaves nothing counted. -/
theorem ends_of_reached {before : Evaluator} (h : before.Reached) (tree : Program) :
    (∃ clock marks, (∀ more, clock ≤ more → run more before tree = some (before.run tree, marks)) ∧
      ∀ mark ∈ marks, mark.Within before.limits) ∧
    ((before.run tree).2.counters = ⟨0, 0⟩ ∧ (before.run tree).2.limits = before.limits) ∧
    (∀ callsLeft scope expr, Eval.Balanced (Eval.expr (Eval.apply callsLeft) scope expr)) ∧
    ∀ callsLeft callee arguments, Eval.Balanced (Eval.apply callsLeft callee arguments) := by
  refine ⟨?_, before.counters_run tree, fun callsLeft => .expr (.apply callsLeft), .apply⟩
  have hw := Evaluator.within_started h.rooted
  obtain ⟨clock, marks, hends, hmarks⟩ :=
    (Evaluator.tracks_program before.limits tree).ends _ hw h.rooted.ordered.size_pos
  refine ⟨clock, _, fun more hmore => ?_, List.forall_mem_cons.mpr ⟨hw.counters, hmarks⟩⟩
  rw [run, hends more hmore, Evaluator.run_eq]

/-- A function that calls itself without end, `let f = fn() { f() }; f()`, and the program
`let g = fn(n) { n }; g(g(3))` after it, where four calls are allowed. -/
theorem ends_of_reached_endless : ∃ (before : Evaluator) (endless tree : Program),
    before.Reached ∧ (before.run endless).1 = .error .callStackExhausted ∧
    ((before.run endless).2.run tree).1 = .ok (.int 3) ∧
    (∃ clock marks, (∀ more, clock ≤ more → run more (before.run endless).2 tree =
        some ((before.run endless).2.run tree, marks)) ∧
      ∀ mark ∈ marks, mark.Within (before.run endless).2.limits) ∧
    ((before.run endless).2.run tree).2.counters = ⟨0, 0⟩ := by
  have hfresh : (Evaluator.create ⟨8, 4⟩).Reached := .create ⟨8, 4⟩
  let endless : Program :=
    ⟨[.bind "f" (.function (some "f") []
        (.mk [.expr (.call (.ident "f" .zero) [] .zero) .zero] .zero) .zero) .zero,
      .expr (.call (.ident "f" .zero) [] .zero) .zero]⟩
  let tree : Program :=
    ⟨[.bind "g" (.function (some "g") ["n"]
        (.mk [.expr (.ident "n" .zero) .zero] .zero) .zero) .zero,
      .expr (.call (.ident "g" .zero) [.call (.ident "g" .zero) [.integer 3 .zero] .zero] .zero)
        .zero]⟩
  have hends := ends_of_reached (hfresh.run endless) tree
  have hfails : ((Evaluator.create ⟨8, 4⟩).run endless).1 = .error .callStackExhausted := by cbv
  have hgives : (((Evaluator.create ⟨8, 4⟩).run endless).2.run tree).1 = .ok (.int 3) := by cbv
  exact ⟨.create ⟨8, 4⟩, endless, tree, hfresh, hfails, hgives, hends.1, hends.2.1.1⟩

end Watch

end Simian
