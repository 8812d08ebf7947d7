import Simian.Attempt
import Simian.Scopes
import Simian.Value.Builtin

/-!
# Evaluating trees

The evaluator walks the tree. A `return` leaves the expressions it stands in like an
error does, up to the call or the program around it.

Two counts are bounded apart from each other: the nesting of expressions, which starts
anew in every call, and the calls in progress. Evaluation is a recursion on the tree
inside a call and on the calls left between calls, so it always ends.
-/
namespace Simian

/-- Why a program has no value. -/
inductive EvalError where
  | undefinedIdentifier (name : String)
  | notCallable (kind : Value.Kind)
  | wrongArgumentCount (want got : Nat)
  | nestingTooDeep (limit : Nat)
  | callStackExhausted
  | operation (error : OperationError)
  deriving Repr, DecidableEq, Inhabited

def EvalError.message : EvalError → String
  | undefinedIdentifier name => s!"identifier not found: {name}"
  | notCallable kind => s!"calling non-function and non-builtin: {kind.name}"
  | wrongArgumentCount want got => s!"wrong number of arguments: want={want}, got={got}"
  | nestingTooDeep limit => s!"nesting too deep (limit {limit})"
  | callStackExhausted => "call stack exhausted"
  | operation error => error.message

/-- How an expression is left without a value of its own. -/
inductive Unwind where
  | returned (value : Value)
  | failed (error : EvalError)
  deriving Inhabited

/-- The numbers that evaluation is bounded by. -/
structure EvaluatorLimits where
  /-- Nested expressions within one call. -/
  maxDepth : Nat
  /-- Calls in progress at one time. -/
  maxCalls : Nat
  deriving Repr, DecidableEq, Inhabited

structure Evaluator where
  scopes : Scopes
  sink : Sink
  /-- The identity of the next function. -/
  nextId : Nat
  /-- Nested expressions in progress within the running call. -/
  depth : Nat
  /-- Calls in progress. -/
  calls : Nat
  limits : EvaluatorLimits
  deriving Inhabited

/-- A step of evaluation. -/
abbrev Eval (α : Type) : Type := Attempt Unwind Evaluator α

namespace Eval

def failWith {α : Type} (error : EvalError) : Eval α := Attempt.fail (.failed error)

/-- The result of an operator, or its error as a failure. -/
def ofOperation {α : Type} (result : Except OperationError α) : Eval α :=
  match result with
  | .ok value => pure value
  | .error error => failWith (.operation error)

/-- Works on the scopes. -/
@[inline] def onScopes {α : Type} (work : Scopes → α × Scopes) : Eval α := fun evaluator =>
  match evaluator with
  | ⟨scopes, sink, nextId, depth, calls, limits⟩ =>
    match work scopes with
    | (value, scopes) => (.ok value, ⟨scopes, sink, nextId, depth, calls, limits⟩)

/-- Evaluates one nesting level deeper, if the limit allows. -/
def nested {α : Type} (body : Eval α) : Eval α := fun evaluator =>
  match evaluator with
  | ⟨scopes, sink, nextId, depth, calls, limits⟩ =>
    if limits.maxDepth ≤ depth then
      failWith (.nestingTooDeep limits.maxDepth) ⟨scopes, sink, nextId, depth, calls, limits⟩
    else
      match body ⟨scopes, sink, nextId, depth + 1, calls, limits⟩ with
      | (result, ⟨scopes, sink, nextId, depth, calls, limits⟩) =>
        (result, ⟨scopes, sink, nextId, depth - 1, calls, limits⟩)

/-- Evaluates the body of a call, if the limit allows one more. The nesting of expressions starts
anew, and a `return` inside gives the value of the call. -/
def inCall (body : Eval Value) : Eval Value := fun evaluator =>
  match evaluator with
  | ⟨scopes, sink, nextId, depth, calls, limits⟩ =>
    if limits.maxCalls ≤ calls then
      failWith .callStackExhausted ⟨scopes, sink, nextId, depth, calls, limits⟩
    else
      match body ⟨scopes, sink, nextId, 0, calls + 1, limits⟩ with
      | (result, ⟨scopes, sink, nextId, _, calls, limits⟩) =>
        let result := match result with
          | .error (.returned value) => .ok value
          | other => other
        (result, ⟨scopes, sink, nextId, depth, calls - 1, limits⟩)

/-- The value of a name: what the scopes bind it to, or the built-in function of that name. -/
def lookUp (scope : Nat) (name : String) : Eval Value := do
  match ← onScopes fun scopes => (scopes.find? scope name, scopes) with
  | some value => pure value
  | none =>
    match Builtin.ofName? name with
    | some builtin => pure (.builtin builtin)
    | none => failWith (.undefinedIdentifier name)

def bind (scope : Nat) (name : String) (value : Value) : Eval Unit :=
  onScopes fun scopes => ((), scopes.set scope name value)

/-- A new function with the scope it is made in. -/
def makeFunction (scope : Nat) (name : Option String) (parameters : List String) (body : Block) :
    Eval Value := fun evaluator =>
  (.ok (.function ⟨evaluator.nextId, name, parameters, body, scope⟩),
    { evaluator with nextId := evaluator.nextId + 1 })

/-- What a call of the function binds: its own name, and its parameters over that. -/
def callBindings (tree : TreeFunction) (arguments : List Value) :
    Std.ExtHashMap String Value :=
  let named : Std.ExtHashMap String Value := match tree.name with
    | some name => Std.ExtHashMap.insert ∅ name (.function tree)
    | none => ∅
  (tree.parameters.zip arguments).foldl
    (fun bindings (parameter, argument) => bindings.insert parameter argument) named

def callBuiltin (builtin : Builtin) (arguments : List Value) : Eval Value := fun evaluator =>
  match evaluator with
  | ⟨scopes, sink, nextId, depth, calls, limits⟩ =>
    match builtin.call arguments sink with
    | (result, sink) => ofOperation result ⟨scopes, sink, nextId, depth, calls, limits⟩

/-- Calls a value. The body of a function is evaluated by `run` in the scope of the call. -/
def applyWith (run : (scope : Nat) → Block → Eval Value) (callee : Value)
    (arguments : List Value) : Eval Value := do
  match callee with
  | .function tree =>
    if arguments.length ≠ tree.parameters.length then
      failWith (.wrongArgumentCount tree.parameters.length arguments.length)
    else
      let scope ← onScopes (·.enclose tree.scope (callBindings tree arguments))
      inCall (run scope tree.body)
  | .builtin builtin => callBuiltin builtin arguments
  | other => failWith (.notCallable other.kind)

mutual

/-- The value of an expression in a scope, where `call` calls a value with arguments. -/
def expr (call : Value → List Value → Eval Value) (scope : Nat) : Expr → Eval Value
  | .integer value _ => nested (pure (.int value))
  | .boolean value _ => nested (pure (.bool value))
  | .string text _ => nested (pure (.str text))
  | .ident name _ => nested (lookUp scope name)
  | .unary op operand _ => nested do
    ofOperation (op.apply (← expr call scope operand))
  | .binary op left right _ => nested do
    let left ← expr call scope left
    let right ← expr call scope right
    ofOperation (op.apply left right)
  | .logical .and left right _ => nested do
    if (← expr call scope left).isTruthy then
      pure (.bool (← expr call scope right).isTruthy)
    else pure (.bool false)
  | .logical .or left right _ => nested do
    if (← expr call scope left).isTruthy then pure (.bool true)
    else pure (.bool (← expr call scope right).isTruthy)
  | .bump op operand _ => nested do
    ofOperation (op.binary.apply (← expr call scope operand) (.int 1))
  | .ifThen condition thenBlock _ => nested do
    if (← expr call scope condition).isTruthy then block call scope thenBlock else pure .null
  | .ifElse condition thenBlock elseBlock _ => nested do
    if (← expr call scope condition).isTruthy then block call scope thenBlock
    else block call scope elseBlock
  | .function name parameters body _ => nested (makeFunction scope name parameters body)
  | .array elements _ => nested do
    pure (.array (← exprs call scope [] elements))
  | .hash pairs _ => nested do
    ofOperation (Value.ofPairs (← entries call scope [] pairs))
  | .call callee arguments _ => nested do
    let callee ← expr call scope callee
    let arguments ← exprs call scope [] arguments
    call callee arguments
  | .index collection key _ => nested do
    let collection ← expr call scope collection
    let key ← expr call scope key
    ofOperation (collection.index key)

/-- The values of the expressions, after values given the latest first. -/
def exprs (call : Value → List Value → Eval Value) (scope : Nat) (values : List Value) :
    List Expr → Eval (List Value)
  | [] => pure values.reverse
  | item :: rest => do
    let value ← expr call scope item
    exprs call scope (value :: values) rest

/-- The values of the keys and values, after pairs given the latest first. -/
def entries (call : Value → List Value → Eval Value) (scope : Nat) (pairs : List (Value × Value)) :
    List (Expr × Expr) → Eval (List (Value × Value))
  | [] => pure pairs.reverse
  | (key, value) :: rest => do
    let key ← expr call scope key
    let value ← expr call scope value
    entries call scope ((key, value) :: pairs) rest

/-- The value of a block: that of its last statement, or null. -/
def block (call : Value → List Value → Eval Value) (scope : Nat) : Block → Eval Value
  | .mk statements _ => stmts call scope .null statements

/-- The value of a statement. A binding has none. -/
def stmt (call : Value → List Value → Eval Value) (scope : Nat) : Stmt → Eval (Option Value)
  | .bind name value _ => do
    let value ← expr call scope value
    bind scope name value
    pure none
  | .ret value _ => do
    let value ← expr call scope value
    Attempt.fail (.returned value)
  | .retNull _ => Attempt.fail (.returned .null)
  | .expr value _ => do
    pure (some (← expr call scope value))

/-- The value of the last statement, after statements with the value `last`. -/
def stmts (call : Value → List Value → Eval Value) (scope : Nat) (last : Value) :
    List Stmt → Eval Value
  | [] => pure last
  | statement :: rest => do
    let value ← stmt call scope statement
    stmts call scope (value.getD .null) rest

end

/-- Calls a value with this many calls left. -/
def apply : (callsLeft : Nat) → Value → List Value → Eval Value
  | 0 => applyWith fun _ _ => failWith .callStackExhausted
  | callsLeft + 1 => applyWith fun scope body => block (apply callsLeft) scope body

/-- The value of the last statement of a program that has one, after statements with the value
`last`. -/
def programStmts (call : Value → List Value → Eval Value) (last : Value) :
    List Stmt → Eval Value
  | [] => pure last
  | statement :: rest => do
    let value ← stmt call 0 statement
    programStmts call (value.getD last) rest

end Eval

namespace Evaluator

/-- An evaluator that has bound nothing. -/
def create (limits : EvaluatorLimits) : Evaluator where
  scopes := .create
  sink := .empty
  nextId := 0
  depth := 0
  calls := 0
  limits

/-- The value of a program: that of its last statement with a value, or of a `return` at top
level. What the program binds stays bound. -/
def run (evaluator : Evaluator) (tree : Program) : Except EvalError Value × Evaluator :=
  let call := Eval.apply evaluator.limits.maxCalls
  match Eval.programStmts call .null tree.statements { evaluator with depth := 0, calls := 0 } with
  | (.ok value, evaluator) => (.ok value, evaluator)
  | (.error (.returned value), evaluator) => (.ok value, evaluator)
  | (.error (.failed error), evaluator) => (.error error, evaluator)

end Evaluator

end Simian
