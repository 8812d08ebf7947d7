import Simian.Evaluator

/-!
# The counts of the evaluator balance

Evaluation counts the nesting of expressions within a call and the calls in progress. Each is
counted back where it was counted up, whether an expression gives a value, is left by a `return`
or fails (`Eval.Balanced`). So every evaluation of an expression and every call leaves both counts
as it found them, and a program that failed takes nothing from the limits of the next one.
-/
namespace Simian

/-- The two counts that evaluation is bounded by. -/
structure Counters where
  depth : Nat
  calls : Nat
  deriving Repr, DecidableEq, Inhabited

namespace Evaluator

def counters (evaluator : Evaluator) : Counters := ⟨evaluator.depth, evaluator.calls⟩

/-- One nesting level deeper. -/
def deeper (evaluator : Evaluator) : Evaluator := { evaluator with depth := evaluator.depth + 1 }

/-- Back from a nesting level. -/
def shallower (evaluator : Evaluator) : Evaluator := { evaluator with depth := evaluator.depth - 1 }

/-- With one call more in progress, in which nesting starts anew. -/
def called (evaluator : Evaluator) : Evaluator :=
  { evaluator with depth := 0, calls := evaluator.calls + 1 }

/-- Back from a call in which the evaluator has become `after`. -/
def back (evaluator after : Evaluator) : Evaluator :=
  { after with depth := evaluator.depth, calls := after.calls - 1 }

/-- Where a program begins. -/
def started (evaluator : Evaluator) : Evaluator := { evaluator with depth := 0, calls := 0 }

end Evaluator

namespace Eval

variable {α β : Type}

theorem nested_eq (body : Eval α) (evaluator : Evaluator) :
    Eval.nested body evaluator =
      if evaluator.limits.maxDepth ≤ evaluator.depth then
        failWith (.nestingTooDeep evaluator.limits.maxDepth) evaluator
      else ((body evaluator.deeper).1, (body evaluator.deeper).2.shallower) := rfl

/-- What a call gives when its body comes to this. -/
def callResult : Except Unwind Value → Except Unwind Value
  | .error (.returned value) => .ok value
  | other => other

theorem inCall_eq (body : Eval Value) (evaluator : Evaluator) :
    Eval.inCall body evaluator =
      if evaluator.limits.maxCalls ≤ evaluator.calls then failWith .callStackExhausted evaluator
      else (callResult (body evaluator.called).1,
        evaluator.back (body evaluator.called).2) := rfl

/-- However it ends, the step leaves the counts and the limits as it found them. -/
def Balanced (step : Eval α) : Prop :=
  ∀ evaluator, (step evaluator).2.counters = evaluator.counters ∧
    (step evaluator).2.limits = evaluator.limits

namespace Balanced

theorem pure {value : α} : Balanced (Pure.pure value : Eval α) := fun _ => ⟨rfl, rfl⟩

theorem fail {unwind : Unwind} : Balanced (Attempt.fail unwind : Eval α) := fun _ => ⟨rfl, rfl⟩

theorem bind {first : Eval α} {next : α → Eval β} (hf : Balanced first)
    (hn : ∀ value, Balanced (next value)) : Balanced (first >>= next) := by
  intro evaluator
  have hfirst := hf evaluator
  rw [Attempt.bind_apply]
  generalize first evaluator = outcome at hfirst
  obtain ⟨result, between⟩ := outcome
  cases result with
  | error => exact hfirst
  | ok value =>
    have hnext := hn value between
    exact ⟨hnext.1.trans hfirst.1, hnext.2.trans hfirst.2⟩

theorem ofOperation {result : Except OperationError α} : Balanced (Eval.ofOperation result) := by
  cases result with
  | ok => exact pure
  | error => exact fail

theorem onScopes {work : Scopes → α × Scopes} : Balanced (Eval.onScopes work) :=
  fun _ => ⟨rfl, rfl⟩

theorem ite {condition : Prop} [Decidable condition] {first second : Eval α}
    (hf : Balanced first) (hs : Balanced second) :
    Balanced (if condition then first else second) := by
  split
  · exact hf
  · exact hs

/-- Nesting is counted back behind the expression. -/
theorem nested {body : Eval α} (h : Balanced body) : Balanced (Eval.nested body) := by
  intro evaluator
  rw [nested_eq]
  split
  · exact fail evaluator
  · obtain ⟨hcounters, hlimits⟩ := h evaluator.deeper
    obtain ⟨hdepth, hcalls⟩ := Counters.mk.inj hcounters
    have hback : (body evaluator.deeper).2.depth - 1 = evaluator.depth :=
      (congrArg (· - 1) hdepth).trans (Nat.add_sub_cancel evaluator.depth 1)
    have hboth : Counters.mk ((body evaluator.deeper).2.depth - 1) (body evaluator.deeper).2.calls =
        ⟨evaluator.depth, evaluator.calls⟩ := congr (congrArg Counters.mk hback) hcalls
    exact ⟨hboth, hlimits⟩

/-- The call is counted back behind its body, and the nesting is the caller's again. -/
theorem inCall {body : Eval Value} (h : Balanced body) : Balanced (Eval.inCall body) := by
  intro evaluator
  rw [inCall_eq]
  split
  · exact fail evaluator
  · obtain ⟨hcounters, hlimits⟩ := h evaluator.called
    obtain ⟨-, hcalls⟩ := Counters.mk.inj hcounters
    have hback : (body evaluator.called).2.calls - 1 = evaluator.calls :=
      (congrArg (· - 1) hcalls).trans (Nat.add_sub_cancel evaluator.calls 1)
    exact ⟨congrArg (Counters.mk evaluator.depth) hback, hlimits⟩

theorem lookUp (scope : Nat) (name : String) : Balanced (Eval.lookUp scope name) := by
  refine bind onScopes fun found => ?_
  cases found with
  | some => exact pure
  | none =>
    cases Builtin.ofName? name with
    | some => exact pure
    | none => exact fail

theorem makeFunction (scope : Nat) (name : Option String) (parameters : List String)
    (body : Block) : Balanced (Eval.makeFunction scope name parameters body) :=
  fun _ => ⟨rfl, rfl⟩

theorem callBuiltin (builtin : Builtin) (arguments : List Value) :
    Balanced (Eval.callBuiltin builtin arguments) := by
  rintro ⟨scopes, sink, nextId, depth, calls, limits⟩
  exact ofOperation ⟨scopes, (builtin.call arguments sink).2, nextId, depth, calls, limits⟩

theorem applyWith {run : Nat → Block → Eval Value} (hrun : ∀ scope body, Balanced (run scope body))
    (callee : Value) (arguments : List Value) : Balanced (Eval.applyWith run callee arguments) := by
  cases callee with
  | function tree => exact ite fail (bind onScopes fun scope => inCall (hrun scope tree.body))
  | builtin builtin => exact callBuiltin builtin arguments
  | _ => exact fail

/-! ### Trees -/

/-- Every call leaves the counts as it found them. -/
def Calls (call : Value → List Value → Eval Value) : Prop :=
  ∀ callee arguments, Balanced (call callee arguments)

section
variable {call : Value → List Value → Eval Value}

mutual

theorem expr (hcall : Calls call) (scope : Nat) (tree : Expr) :
    Balanced (Eval.expr call scope tree) := by
  match tree with
  | .integer _ _ | .boolean _ _ | .string _ _ =>
    rw [Eval.expr]
    exact nested pure
  | .ident name _ =>
    rw [Eval.expr]
    exact nested (lookUp scope name)
  | .unary op operand _ =>
    rw [Eval.expr]
    exact nested (bind (expr hcall scope operand) fun _ => ofOperation)
  | .binary op left right _ =>
    rw [Eval.expr]
    exact nested (bind (expr hcall scope left) fun _ =>
      bind (expr hcall scope right) fun _ => ofOperation)
  | .logical .and left right _ =>
    rw [Eval.expr]
    exact nested (bind (expr hcall scope left) fun _ =>
      ite (bind (expr hcall scope right) fun _ => pure) pure)
  | .logical .or left right _ =>
    rw [Eval.expr]
    exact nested (bind (expr hcall scope left) fun _ =>
      ite pure (bind (expr hcall scope right) fun _ => pure))
  | .bump op operand _ =>
    rw [Eval.expr]
    exact nested (bind (expr hcall scope operand) fun _ => ofOperation)
  | .ifThen condition thenBlock _ =>
    rw [Eval.expr]
    exact nested (bind (expr hcall scope condition) fun _ => ite (block hcall scope thenBlock) pure)
  | .ifElse condition thenBlock elseBlock _ =>
    rw [Eval.expr]
    exact nested (bind (expr hcall scope condition) fun _ =>
      ite (block hcall scope thenBlock) (block hcall scope elseBlock))
  | .function name parameters body _ =>
    rw [Eval.expr]
    exact nested (makeFunction scope name parameters body)
  | .array elements _ =>
    rw [Eval.expr]
    exact nested (bind (exprs hcall scope [] elements) fun _ => pure)
  | .hash pairs _ =>
    rw [Eval.expr]
    exact nested (bind (entries hcall scope [] pairs) fun _ => ofOperation)
  | .call callee arguments _ =>
    rw [Eval.expr]
    exact nested (bind (expr hcall scope callee) fun _ =>
      bind (exprs hcall scope [] arguments) fun _ => hcall _ _)
  | .index collection key _ =>
    rw [Eval.expr]
    exact nested (bind (expr hcall scope collection) fun _ =>
      bind (expr hcall scope key) fun _ => ofOperation)

theorem exprs (hcall : Calls call) (scope : Nat) (values : List Value) (items : List Expr) :
    Balanced (Eval.exprs call scope values items) := by
  match items with
  | [] =>
    rw [Eval.exprs]
    exact pure
  | item :: rest =>
    rw [Eval.exprs]
    exact bind (expr hcall scope item) fun _ => exprs hcall scope _ rest

theorem entries (hcall : Calls call) (scope : Nat) (pairs : List (Value × Value))
    (items : List (Expr × Expr)) : Balanced (Eval.entries call scope pairs items) := by
  match items with
  | [] =>
    rw [Eval.entries]
    exact pure
  | (key, value) :: rest =>
    rw [Eval.entries]
    exact bind (expr hcall scope key) fun _ =>
      bind (expr hcall scope value) fun _ => entries hcall scope _ rest

theorem block (hcall : Calls call) (scope : Nat) (tree : Block) :
    Balanced (Eval.block call scope tree) := by
  match tree with
  | .mk statements _ =>
    rw [Eval.block]
    exact stmts hcall scope .null statements

theorem stmt (hcall : Calls call) (scope : Nat) (tree : Stmt) :
    Balanced (Eval.stmt call scope tree) := by
  match tree with
  | .bind name value _ =>
    rw [Eval.stmt]
    exact bind (expr hcall scope value) fun _ => bind onScopes fun _ => pure
  | .ret value _ =>
    rw [Eval.stmt]
    exact bind (expr hcall scope value) fun _ => fail
  | .retNull _ =>
    rw [Eval.stmt]
    exact fail
  | .expr value _ =>
    rw [Eval.stmt]
    exact bind (expr hcall scope value) fun _ => pure

theorem stmts (hcall : Calls call) (scope : Nat) (last : Value) (trees : List Stmt) :
    Balanced (Eval.stmts call scope last trees) := by
  match trees with
  | [] =>
    rw [Eval.stmts]
    exact pure
  | statement :: rest =>
    rw [Eval.stmts]
    exact bind (stmt hcall scope statement) fun _ => stmts hcall scope _ rest

end

theorem programStmts (hcall : Calls call) (last : Value) (trees : List Stmt) :
    Balanced (Eval.programStmts call last trees) := by
  induction trees generalizing last with
  | nil => exact pure
  | cons statement rest ih => exact bind (stmt hcall 0 statement) fun _ => ih _

end

/-- However many calls are left, a call leaves the counts as it found them. -/
theorem apply (callsLeft : Nat) (callee : Value) (arguments : List Value) :
    Balanced (Eval.apply callsLeft callee arguments) := by
  induction callsLeft generalizing callee arguments with
  | zero => exact applyWith (fun _ _ => fail) callee arguments
  | succ callsLeft ih => exact applyWith (fun scope body => block ih scope body) callee arguments

end Balanced

/-- What a program gives when its statements come to this. -/
def programResult : Except Unwind Value → Except EvalError Value
  | .ok value => .ok value
  | .error (.returned value) => .ok value
  | .error (.failed error) => .error error

end Eval

namespace Evaluator

theorem run_eq (evaluator : Evaluator) (tree : Program) :
    evaluator.run tree =
      let outcome := Eval.programStmts (Eval.apply evaluator.limits.maxCalls) .null tree.statements
        evaluator.started
      (Eval.programResult outcome.1, outcome.2) := by
  unfold run
  dsimp only [started]
  generalize Eval.programStmts _ _ _ _ = outcome
  obtain ⟨result, after⟩ := outcome
  rcases result with (value | error) | value <;> rfl

/-- A program leaves nothing counted and the limits as they are, also when it fails. -/
theorem counters_run (evaluator : Evaluator) (tree : Program) :
    (evaluator.run tree).2.counters = ⟨0, 0⟩ ∧
      (evaluator.run tree).2.limits = evaluator.limits := by
  rw [run_eq]
  exact Eval.Balanced.programStmts (Eval.Balanced.apply _) .null tree.statements evaluator.started

end Evaluator

end Simian
