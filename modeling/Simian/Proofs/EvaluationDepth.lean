import Mathlib.Data.List.Permutation
import Simian.Proofs.CarriedFunctions
import Simian.Proofs.Nesting
import Simian.Proofs.TreeEquality

-- `Mathlib.Data.List.Permutation` has the equation by which `cbv` unfolds `Prod.snd`.

/-!
# Evaluation stays above the limit of nesting

The evaluator counts the nesting of expressions anew in every call, and a function may be
called far from its literal. What it meets there is bounded all the same: in a program that
nests no deeper than the limit, every function literal has a body that does not, and so
has every function that is bound, kept in an array or a hash, passed or returned. So each
body is evaluated from level zero with room for all of it.
-/
namespace Simian

/-! ### Values whose functions are shallow -/

/-- The body of the function nests no deeper than this many levels. -/
def shallow (levels : Nat) : Making := fun tree _ _ => nestingOfStmts tree.body.statements ≤ levels

namespace Value

/-- Every function inside is shallow. -/
def Shallow (levels : Nat) (value : Value) : Prop := ∃ other, Alike (shallow levels) value other

variable {levels : Nat}

theorem IsScalar.shallow {value : Value} (h : value.IsScalar) : value.Shallow levels := h.carries

theorem shallow_null : Value.null.Shallow levels := carries_null

theorem shallow_function {tree : TreeFunction} :
    (Value.function tree).Shallow levels ↔ nestingOfStmts tree.body.statements ≤ levels :=
  carries_function

end Value

/-! ### Scopes -/

namespace Scopes

/-- Every function that is bound somewhere is shallow. -/
def Shallow (levels : Nat) (scopes : Scopes) : Prop :=
  ∀ (number : Nat) (scope : Scope), scopes.scopes[number]? = some scope →
    ∀ (name : String) (value : Value), scope.bindings[name]? = some value → value.Shallow levels

end Scopes

/-! ### Evaluating within the levels -/

/-- The evaluator has this limit, and every function that it has bound is shallow. -/
structure Evaluator.Shallow (levels : Nat) (evaluator : Evaluator) : Prop where
  limit : evaluator.limits.maxDepth = levels
  scopes : evaluator.scopes.Shallow levels

/-- How work that began at this depth may end: with a good result or by returning a shallow value,
back at that depth, or in a failure other than for lack of levels. -/
def EndsWithin {α : Type} (levels depth : Nat) (good : α → Prop) :
    Except Unwind α × Evaluator → Prop
  | (.ok value, after) => good value ∧ after.Shallow levels ∧ after.depth = depth
  | (.error (.returned value), after) =>
    value.Shallow levels ∧ after.Shallow levels ∧ after.depth = depth
  | (.error (.failed error), _) => ∀ limit, error ≠ .nestingTooDeep limit

/-- Work that this many levels are enough for. -/
def Stays {α : Type} (levels needed : Nat) (good : α → Prop) (work : Eval α) : Prop :=
  ∀ evaluator : Evaluator, evaluator.Shallow levels → evaluator.depth + needed ≤ levels →
    EndsWithin levels evaluator.depth good (work evaluator)

namespace Stays

variable {α β : Type} {levels needed : Nat} {good : α → Prop} {fine : β → Prop}

theorem mono {fewer : Nat} {work : Eval α} (h : Stays levels fewer good work)
    (hn : fewer ≤ needed) : Stays levels needed good work :=
  fun evaluator hs hl => h evaluator hs (by omega)

theorem pure {value : α} (h : good value) : Stays levels needed good (Pure.pure value : Eval α) :=
  fun _ hs _ => ⟨h, hs, rfl⟩

theorem returned {value : Value} (h : value.Shallow levels) :
    Stays levels needed good (Attempt.fail (.returned value)) :=
  fun _ hs _ => ⟨h, hs, rfl⟩

theorem failWith {error : EvalError} (h : ∀ limit, error ≠ .nestingTooDeep limit) :
    Stays levels needed good (Eval.failWith error) :=
  fun _ _ _ => h

theorem bind {first : Eval α} {next : α → Eval β} (hf : Stays levels needed good first)
    (hn : ∀ value, good value → Stays levels needed fine (next value)) :
    Stays levels needed fine (first >>= next) := by
  intro evaluator hs hl
  have hfirst := hf evaluator hs hl
  rw [Attempt.bind_apply]
  generalize first evaluator = outcome at hfirst
  obtain ⟨result, between⟩ := outcome
  cases result with
  | error unwind => cases unwind <;> exact hfirst
  | ok value =>
    obtain ⟨hgood, hbetween, hdepth⟩ := hfirst
    have hnext := hn value hgood between hbetween (by omega)
    dsimp only
    rw [hdepth] at hnext
    exact hnext

/-- An operation that gives good results. -/
theorem ofOperation {result : Except OperationError α}
    (h : ∀ value, result = .ok value → good value) :
    Stays levels needed good (Eval.ofOperation result) := by
  cases result with
  | ok value => exact pure (h value rfl)
  | error error => exact failWith (by simp)

theorem nested {work : Eval α} (h : Stays levels needed good work) :
    Stays levels (needed + 1) good (Eval.nested work) := by
  intro evaluator hs hl
  obtain ⟨scopes, sink, nextId, depth, calls, limits⟩ := evaluator
  have hlimit : limits.maxDepth = levels := hs.limit
  have hroom : depth + (needed + 1) ≤ levels := hl
  have hwork := h ⟨scopes, sink, nextId, depth + 1, calls, limits⟩ ⟨hs.limit, hs.scopes⟩
    (show depth + 1 + needed ≤ levels by omega)
  unfold Eval.nested
  dsimp only
  rw [if_neg (by omega)]
  generalize work _ = outcome at hwork
  obtain ⟨result, ⟨scopes', sink', nextId', depth', calls', limits'⟩⟩ := outcome
  rcases result with (value | error) | value
  · obtain ⟨hv, ⟨hlimit', hscopes⟩, hdepth⟩ := hwork
    exact ⟨hv, ⟨hlimit', hscopes⟩, (congrArg (· - 1) hdepth).trans (Nat.add_sub_cancel depth 1)⟩
  · exact hwork
  · obtain ⟨hv, ⟨hlimit', hscopes⟩, hdepth⟩ := hwork
    exact ⟨hv, ⟨hlimit', hscopes⟩, (congrArg (· - 1) hdepth).trans (Nat.add_sub_cancel depth 1)⟩

/-- In a call the levels are counted anew, and a `return` in it gives its value. -/
theorem inCall {work : Eval Value} (h : Stays levels levels (Value.Shallow levels) work) :
    Stays levels needed (Value.Shallow levels) (Eval.inCall work) := by
  intro evaluator hs hl
  obtain ⟨scopes, sink, nextId, depth, calls, limits⟩ := evaluator
  have hwork := h ⟨scopes, sink, nextId, 0, calls + 1, limits⟩ ⟨hs.limit, hs.scopes⟩
    (Nat.le_of_eq (Nat.zero_add levels))
  unfold Eval.inCall
  dsimp only
  by_cases hcalls : limits.maxCalls ≤ calls
  · rw [if_pos hcalls]
    have hexhausted : Stays levels needed (Value.Shallow levels)
        (Eval.failWith .callStackExhausted) := failWith (by simp)
    exact hexhausted _ hs hl
  · rw [if_neg hcalls]
    generalize work _ = outcome at hwork
    obtain ⟨result, ⟨scopes', sink', nextId', depth', calls', limits'⟩⟩ := outcome
    rcases result with (value | error) | value
    · exact ⟨hwork.1, ⟨hwork.2.1.limit, hwork.2.1.scopes⟩, rfl⟩
    · exact hwork
    · exact ⟨hwork.1, ⟨hwork.2.1.limit, hwork.2.1.scopes⟩, rfl⟩

theorem onScopes {work : Scopes → α × Scopes} (h : ∀ scopes : Scopes, scopes.Shallow levels →
    good (work scopes).1 ∧ (work scopes).2.Shallow levels) :
    Stays levels needed good (Eval.onScopes work) := by
  intro evaluator hs hl
  obtain ⟨hgood, hscopes⟩ := h evaluator.scopes hs.scopes
  exact ⟨hgood, ⟨hs.limit, hscopes⟩, rfl⟩

theorem lookUp (scope : Nat) (name : String) :
    Stays levels needed (Value.Shallow levels) (Eval.lookUp scope name) := by
  have hfind : Stays levels needed (fun found => ∀ value, found = some value → value.Shallow levels)
      (Eval.onScopes fun scopes => (scopes.find? scope name, scopes)) :=
    onScopes fun scopes hs => ⟨fun value hf => Scopes.Carries.find? hs hf, hs⟩
  apply bind hfind
  intro found hfound
  cases found with
  | some value => exact pure (hfound value rfl)
  | none =>
    cases Builtin.ofName? name with
    | some builtin => exact pure (Value.carries_builtin builtin)
    | none => exact failWith (by simp)

theorem bindName (scope : Nat) (name : String) {value : Value} (hv : value.Shallow levels) :
    Stays levels needed (fun _ => True) (Eval.bind scope name value) :=
  onScopes fun _ hs => ⟨trivial, Scopes.Carries.set hs scope name hv⟩

/-- A literal in an expression that there are levels for has a shallow body. -/
theorem makeFunction (scope : Nat) (name : Option String) (parameters : List String)
    (body : Block) : Stays levels (nestingOfStmts body.statements) (Value.Shallow levels)
      (Eval.makeFunction scope name parameters body) := by
  intro evaluator hs hl
  have hbody : nestingOfStmts body.statements ≤ levels := by omega
  exact ⟨Value.shallow_function.mpr hbody, ⟨hs.limit, hs.scopes⟩, rfl⟩

theorem callBuiltin (builtin : Builtin) {arguments : List Value}
    (ha : ∀ item ∈ arguments, item.Shallow levels) :
    Stays levels needed (Value.Shallow levels) (Eval.callBuiltin builtin arguments) := by
  intro evaluator hs hl
  obtain ⟨scopes, sink, nextId, depth, calls, limits⟩ := evaluator
  unfold Eval.callBuiltin
  dsimp only
  cases hcall : builtin.call arguments sink with
  | mk result sink' =>
    have hresult : ∀ value, result = .ok value → value.Shallow levels := by
      rintro value rfl
      exact Builtin.carries_call ha hcall
    exact ofOperation hresult ⟨scopes, sink', nextId, depth, calls, limits⟩ ⟨hs.limit, hs.scopes⟩ hl

theorem applyWith {run : Nat → Block → Eval Value}
    (hrun : ∀ scope body, nestingOfStmts body.statements ≤ levels →
      Stays levels levels (Value.Shallow levels) (run scope body))
    {callee : Value} {arguments : List Value} (hc : callee.Shallow levels)
    (ha : ∀ item ∈ arguments, item.Shallow levels) :
    Stays levels needed (Value.Shallow levels) (Eval.applyWith run callee arguments) := by
  cases callee with
  | function tree =>
    have hbody := Value.shallow_function.mp hc
    unfold Eval.applyWith
    dsimp only
    split
    · exact failWith (by simp)
    · have hscope : Stays levels needed (fun _ => True)
          (Eval.onScopes (·.enclose tree.scope (Eval.callBindings tree arguments))) :=
        onScopes fun scopes hs =>
          ⟨trivial, Scopes.Carries.enclose hs tree.scope (carryAll_callBindings hc ha)⟩
      apply bind hscope
      intro scope _
      exact inCall (hrun scope tree.body hbody)
  | builtin builtin => exact callBuiltin builtin ha
  | _ => exact failWith (by simp)

/-! ### Trees -/

/-- Calls of shallow values with shallow arguments need no levels of the caller. -/
def Calls (levels : Nat) (call : Value → List Value → Eval Value) : Prop :=
  ∀ (callee : Value) (arguments : List Value) (needed : Nat), callee.Shallow levels →
    (∀ item ∈ arguments, item.Shallow levels) →
    Stays levels needed (Value.Shallow levels) (call callee arguments)

section
variable {call : Value → List Value → Eval Value}

theorem binary {op : BinaryOp} {left right : Value} :
    Stays levels needed (Value.Shallow levels) (Eval.ofOperation (op.apply left right)) :=
  ofOperation fun _ h => (BinaryOp.isScalar_of_apply h).shallow

mutual

theorem expr (hcall : Calls levels call) (scope : Nat) (tree : Expr) :
    Stays levels tree.nesting (Value.Shallow levels) (Eval.expr call scope tree) := by
  match tree with
  | .integer word span =>
    rw [Eval.expr]
    exact nested (pure (Value.IsScalar.shallow trivial))
  | .boolean truth span =>
    rw [Eval.expr]
    exact nested (pure (Value.IsScalar.shallow trivial))
  | .string text span =>
    rw [Eval.expr]
    exact nested (pure (Value.IsScalar.shallow trivial))
  | .ident name span =>
    rw [Eval.expr]
    exact nested (lookUp scope name)
  | .unary op operand span =>
    rw [Eval.expr]
    apply nested
    apply bind (expr hcall scope operand)
    intro value _
    exact ofOperation fun _ h => (UnaryOp.isScalar_of_apply h).shallow
  | .binary op left right span =>
    rw [Eval.expr]
    apply nested
    apply bind ((expr hcall scope left).mono (Nat.le_max_left ..))
    intro first _
    apply bind ((expr hcall scope right).mono (Nat.le_max_right ..))
    intro second _
    exact binary
  | .logical .and left right span =>
    rw [Eval.expr]
    apply nested
    apply bind ((expr hcall scope left).mono (Nat.le_max_left ..))
    intro first _
    split
    · apply bind ((expr hcall scope right).mono (Nat.le_max_right ..))
      intro second _
      exact pure (Value.IsScalar.shallow trivial)
    · exact pure (Value.IsScalar.shallow trivial)
  | .logical .or left right span =>
    rw [Eval.expr]
    apply nested
    apply bind ((expr hcall scope left).mono (Nat.le_max_left ..))
    intro first _
    split
    · exact pure (Value.IsScalar.shallow trivial)
    · apply bind ((expr hcall scope right).mono (Nat.le_max_right ..))
      intro second _
      exact pure (Value.IsScalar.shallow trivial)
  | .bump op operand span =>
    rw [Eval.expr]
    apply nested
    apply bind (expr hcall scope operand)
    intro value _
    exact binary
  | .ifThen condition (.mk statements blockSpan) span =>
    rw [Eval.expr]
    apply nested
    apply bind ((expr hcall scope condition).mono (Nat.le_max_left ..))
    intro truth _
    split
    · rw [Eval.block]
      exact (stmts hcall scope statements Value.shallow_null).mono
        (Nat.le_max_right ..)
    · exact pure (Value.IsScalar.shallow trivial)
  | .ifElse condition (.mk first firstSpan) (.mk second secondSpan) span =>
    rw [Eval.expr]
    apply nested
    apply bind ((expr hcall scope condition).mono (Nat.le_max_left ..))
    intro truth _
    split
    · rw [Eval.block]
      apply (stmts hcall scope first Value.shallow_null).mono
      omega
    · rw [Eval.block]
      apply (stmts hcall scope second Value.shallow_null).mono
      omega
  | .function name parameters (.mk body bodySpan) span =>
    rw [Eval.expr]
    exact nested (makeFunction scope name parameters (.mk body bodySpan))
  | .array elements span =>
    rw [Eval.expr]
    apply nested
    apply bind (exprs hcall scope elements (by simp))
    intro values hvalues
    exact pure (Value.carries_array hvalues)
  | .hash pairs span =>
    rw [Eval.expr]
    apply nested
    apply bind (entries hcall scope pairs (by simp))
    intro values hvalues
    exact ofOperation fun _ h => Value.carries_ofPairs hvalues h
  | .call callee arguments span =>
    rw [Eval.expr]
    apply nested
    apply bind ((expr hcall scope callee).mono (Nat.le_max_left ..))
    intro function hfunction
    apply bind ((exprs hcall scope arguments (by simp)).mono (Nat.le_max_right ..))
    intro values hvalues
    exact hcall function values _ hfunction hvalues
  | .index collection key span =>
    rw [Eval.expr]
    apply nested
    apply bind ((expr hcall scope collection).mono (Nat.le_max_left ..))
    intro first hfirst
    apply bind ((expr hcall scope key).mono (Nat.le_max_right ..))
    intro second hsecond
    exact ofOperation fun _ h => Value.Carries.index hfirst hsecond h

theorem exprs (hcall : Calls levels call) (scope : Nat) (items : List Expr) {values : List Value}
    (hv : ∀ value ∈ values, value.Shallow levels) :
    Stays levels (nestingOfExprs items) (fun values => ∀ value ∈ values, value.Shallow levels)
      (Eval.exprs call scope values items) := by
  match items with
  | [] =>
    rw [Eval.exprs]
    exact pure fun value hm => hv value (List.mem_reverse.mp hm)
  | item :: rest =>
    rw [Eval.exprs]
    apply bind ((expr hcall scope item).mono (Nat.le_max_left ..))
    intro value hvalue
    apply (exprs hcall scope rest _).mono (Nat.le_max_right ..)
    exact List.forall_mem_cons.mpr ⟨hvalue, hv⟩

theorem entries (hcall : Calls levels call) (scope : Nat) (items : List (Expr × Expr))
    {pairs : List (Value × Value)}
    (hp : ∀ pair ∈ pairs, pair.1.Shallow levels ∧ pair.2.Shallow levels) :
    Stays levels (nestingOfEntries items)
      (fun pairs => ∀ pair ∈ pairs, pair.1.Shallow levels ∧ pair.2.Shallow levels)
      (Eval.entries call scope pairs items) := by
  match items with
  | [] =>
    rw [Eval.entries]
    exact pure fun pair hm => hp pair (List.mem_reverse.mp hm)
  | (key, value) :: rest =>
    rw [Eval.entries]
    apply bind ((expr hcall scope key).mono (by rw [nestingOfEntries]; omega))
    intro first hfirst
    apply bind ((expr hcall scope value).mono (by rw [nestingOfEntries]; omega))
    intro second hsecond
    apply (entries hcall scope rest _).mono (by rw [nestingOfEntries]; omega)
    exact List.forall_mem_cons.mpr ⟨⟨hfirst, hsecond⟩, hp⟩

theorem stmt (hcall : Calls levels call) (scope : Nat) (tree : Stmt) :
    Stays levels tree.nesting (fun result => ∀ value, result = some value → value.Shallow levels)
      (Eval.stmt call scope tree) := by
  match tree with
  | .bind name value span =>
    rw [Eval.stmt]
    apply bind (expr hcall scope value)
    intro found hfound
    apply bind (bindName scope name hfound)
    intro _ _
    exact pure (by simp)
  | .ret value span =>
    rw [Eval.stmt]
    apply bind (expr hcall scope value)
    intro found hfound
    exact returned hfound
  | .retNull span =>
    rw [Eval.stmt]
    exact returned Value.shallow_null
  | .expr value span =>
    rw [Eval.stmt]
    apply bind (expr hcall scope value)
    intro found hfound
    exact pure fun _ h => Option.some.inj h ▸ hfound

theorem stmts (hcall : Calls levels call) (scope : Nat) (trees : List Stmt) {last : Value}
    (hl : last.Shallow levels) : Stays levels (nestingOfStmts trees) (Value.Shallow levels)
      (Eval.stmts call scope last trees) := by
  match trees with
  | [] =>
    rw [Eval.stmts]
    exact pure hl
  | statement :: rest =>
    rw [Eval.stmts]
    apply bind ((stmt hcall scope statement).mono (Nat.le_max_left ..))
    intro result hresult
    apply (stmts hcall scope rest _).mono (Nat.le_max_right ..)
    cases result with
    | none => exact Value.shallow_null
    | some value => exact hresult value rfl

end

/-- However many calls are left, a function that is called has levels for all of its body. -/
theorem calls_apply (callsLeft : Nat) : Calls levels (Eval.apply callsLeft) := by
  induction callsLeft with
  | zero =>
    intro callee arguments needed hc ha
    rw [Eval.apply]
    exact applyWith (fun _ _ _ => failWith (by simp)) hc ha
  | succ callsLeft ih =>
    intro callee arguments needed hc ha
    rw [Eval.apply]
    refine applyWith (fun scope body hbody => ?_) hc ha
    obtain ⟨statements, span⟩ := body
    rw [Eval.block]
    exact (stmts ih scope statements Value.shallow_null).mono hbody

theorem programStmts (hcall : Calls levels call) (trees : List Stmt) {last : Value}
    (hl : last.Shallow levels) : Stays levels (nestingOfStmts trees) (Value.Shallow levels)
      (Eval.programStmts call last trees) := by
  induction trees generalizing last with
  | nil =>
    rw [Eval.programStmts]
    exact pure hl
  | cons statement rest ih =>
    rw [Eval.programStmts]
    apply bind ((stmt hcall 0 statement).mono (Nat.le_max_left ..))
    intro result hresult
    apply (ih _).mono (Nat.le_max_right ..)
    cases result with
    | none => exact hl
    | some value => exact hresult value rfl

end

end Stays

/-! ### Programs -/

/-- A program that nests no deeper than the limit never fails for its nesting. -/
theorem Evaluator.run_of_nesting_le {maxDepth maxCalls : Nat} {tree : Program}
    (h : nestingOfStmts tree.statements ≤ maxDepth) (limit : Nat) :
    ((create ⟨maxDepth, maxCalls⟩).run tree).1 ≠ .error (.nestingTooDeep limit) := by
  have hends := Stays.programStmts (Stays.calls_apply maxCalls) tree.statements
    Value.shallow_null { create ⟨maxDepth, maxCalls⟩ with depth := 0, calls := 0 }
    ⟨rfl, Scopes.carries_create⟩ (le_of_eq_of_le (Nat.zero_add _) h)
  have hlimits : (create ⟨maxDepth, maxCalls⟩).limits.maxCalls = maxCalls := rfl
  unfold run
  dsimp only at hends ⊢
  rw [hlimits]
  generalize Eval.programStmts (Eval.apply maxCalls) _ _ _ = outcome at hends ⊢
  obtain ⟨result, after⟩ := outcome
  rcases result with (value | error) | value
  · simp
  · intro he
    exact hends limit (Except.error.inj he)
  · simp

namespace Compiler

/-- The evaluator never meets too deep an expression in a program that the compiler takes with the
same limit, however deep its functions call each other. -/
theorem run_ne_nestingTooDeep_of_compile {maxDepth maxCalls : Nat} {tree : Program}
    {unit : Bytecode} (h : ((create maxDepth).compile tree).1 = .ok unit) (limit : Nat) :
    ((Evaluator.create ⟨maxDepth, maxCalls⟩).run tree).1 ≠ .error (.nestingTooDeep limit) :=
  Evaluator.run_of_nesting_le (nesting_le_of_compile h) limit

/-- A function that calls itself without end is within three levels:
`let f = fn(g) { g(g) }; f(f)`. -/
theorem endless_calls_shallow : ∃ (tree : Program) (unit : Bytecode),
    tree = ⟨[.bind "f" (.function (some "f") ["g"] (.mk [.expr (.call (.ident "g" .zero)
        [.ident "g" .zero] .zero) .zero] .zero) .zero) .zero,
      .expr (.call (.ident "f" .zero) [.ident "f" .zero] .zero) .zero]⟩ ∧
    ((create 3).compile tree).1 = .ok unit ∧
    ∀ limit, ((Evaluator.create ⟨3, 16⟩).run tree).1 ≠ .error (.nestingTooDeep limit) := by
  refine ⟨_, ⟨#[33, 0, 0, 0, 21, 0, 0, 20, 0, 0, 20, 0, 0, 30, 1, 1],
    #[.compiled 0 ⟨some "f", #[22, 0, 22, 0, 30, 1, 31], 1, 1⟩]⟩, rfl, ?hcompile,
    run_ne_nestingTooDeep_of_compile ?hcompile⟩
  cbv

/-- A name that is not bound stops the compiler before an expression that is too deep, which the
evaluator still comes to: the name is in a function that is not called. -/
theorem nestingTooDeep_behind_undefined : ∃ tree : Program,
    (Program.parse "fn() \x7b x \x7d; 1 + 1 + 1 + 1 + 1" 4 (.opened .off)).1 = .ok tree ∧
    ((create 4).compile tree).1 = .error ⟨.undefinedVariable "x", ⟨7, 8⟩⟩ ∧
    ((Evaluator.create ⟨4, 16⟩).run tree).1 = .error (.nestingTooDeep 4) := by
  refine ⟨⟨[.expr (.function none [] (.mk [.expr (.ident "x" ⟨7, 8⟩) ⟨7, 8⟩] ⟨5, 10⟩) ⟨0, 10⟩)
      ⟨0, 10⟩,
    .expr (.binary .add (.binary .add (.binary .add (.binary .add
      (.integer 1 ⟨12, 13⟩) (.integer 1 ⟨16, 17⟩) ⟨12, 17⟩) (.integer 1 ⟨20, 21⟩) ⟨12, 21⟩)
      (.integer 1 ⟨24, 25⟩) ⟨12, 25⟩) (.integer 1 ⟨28, 29⟩) ⟨12, 29⟩) ⟨12, 29⟩]⟩,
    ?parse, ?compile, ?run⟩
  case parse => decide +kernel
  all_goals cbv

end Compiler

end Simian
