import Simian.Proofs.CompiledUnits

/-!
# How deep expressions nest

The compiler refuses a program whose expressions nest deeper than its limit, through the
bodies of function literals. So the evaluator, which counts anew in every call, never
meets an expression that is too deep for the same limit.
-/
namespace Simian

mutual

/-- The most expressions that stand inside one another, this one included. -/
def Expr.nesting : Expr → Nat
  | .ident .. | .integer .. | .boolean .. | .string .. => 1
  | .unary _ operand _ | .bump _ operand _ => operand.nesting + 1
  | .binary _ left right _ | .logical _ left right _ => max left.nesting right.nesting + 1
  | .ifThen condition (.mk statements _) _ => max condition.nesting (nestingOfStmts statements) + 1
  | .ifElse condition (.mk first _) (.mk second _) _ =>
    max condition.nesting (max (nestingOfStmts first) (nestingOfStmts second)) + 1
  | .function _ _ (.mk body _) _ => nestingOfStmts body + 1
  | .array elements _ => nestingOfExprs elements + 1
  | .hash pairs _ => nestingOfEntries pairs + 1
  | .call callee arguments _ => max callee.nesting (nestingOfExprs arguments) + 1
  | .index collection key _ => max collection.nesting key.nesting + 1

def nestingOfExprs : List Expr → Nat
  | [] => 0
  | item :: rest => max item.nesting (nestingOfExprs rest)

def nestingOfEntries : List (Expr × Expr) → Nat
  | [] => 0
  | (key, value) :: rest => max key.nesting (max value.nesting (nestingOfEntries rest))

def Stmt.nesting : Stmt → Nat
  | .bind _ value _ | .ret value _ | .expr value _ => value.nesting
  | .retNull _ => 0

def nestingOfStmts : List Stmt → Nat
  | [] => 0
  | statement :: rest => max statement.nesting (nestingOfStmts rest)

end

/-- Work that succeeds only where this many levels are left, and ends at the level it began at. -/
def Deepens {α : Type} (levels : Nat) (work : Compile α) : Prop :=
  ∀ compiler result later, work compiler = (.ok result, later) →
    compiler.depth ≤ compiler.maxDepth → later.depth = compiler.depth ∧
      later.maxDepth = compiler.maxDepth ∧ compiler.depth + levels ≤ compiler.maxDepth

namespace Deepens

open Compile

variable {α β : Type}

theorem of_same {work : Compile α} (hd : ∀ compiler, (work compiler).2.depth = compiler.depth)
    (hm : ∀ compiler, (work compiler).2.maxDepth = compiler.maxDepth) : Deepens 0 work := by
  intro compiler result later h hle
  have hd := hd compiler
  have hm := hm compiler
  rw [h] at hd hm
  exact ⟨hd, hm, hle⟩

theorem pure (value : α) : Deepens 0 (Pure.pure value : Compile α) :=
  of_same (fun _ => rfl) fun _ => rfl

theorem bind {first : Compile α} {next : α → Compile β} {m n : Nat} (hf : Deepens m first)
    (hn : ∀ value, Deepens n (next value)) : Deepens (max m n) (first >>= next) := by
  intro compiler result later h hle
  obtain ⟨value, between, hfirst, hnext⟩ := Attempt.bind_eq_ok h
  obtain ⟨hd, hm, hlevels⟩ := hf _ _ _ hfirst hle
  obtain ⟨hd', hm', hlevels'⟩ := hn value _ _ _ hnext (by rw [hd, hm]; exact hle)
  refine ⟨hd'.trans hd, hm'.trans hm, ?_⟩
  rw [hd, hm] at hlevels'
  omega

/-- Work before which and behind which no levels are needed. -/
theorem before {first : Compile α} {next : α → Compile β} {n : Nat} (hf : Deepens 0 first)
    (hn : ∀ value, Deepens n (next value)) : Deepens n (first >>= next) := by
  have h := bind hf hn
  rwa [Nat.zero_max] at h

theorem andThen {first : Compile α} {next : α → Compile β} {n : Nat} (hf : Deepens n first)
    (hn : ∀ value, Deepens 0 (next value)) : Deepens n (first >>= next) := by
  have h := bind hf hn
  rwa [Nat.max_zero] at h

theorem nested {span : Span} {body : Compile Unit} {n : Nat} (h : Deepens n body) :
    Deepens (n + 1) (Compile.nested span body) := by
  intro compiler result later hn hle
  unfold Compile.nested at hn
  split at hn
  · cases hn
  next hroom =>
    cases hb : body { compiler with depth := compiler.depth + 1, span } with
    | mk outcome between =>
      rw [hb] at hn
      cases hn
      obtain ⟨hd, hm, hlevels⟩ := h _ _ _ hb (by dsimp only; omega)
      dsimp only at hd hm hlevels ⊢
      exact ⟨by omega, hm, by omega⟩

theorem failHere (cause : CompileError.Cause) : Deepens 0 (Compile.failHere cause : Compile α) := by
  intro compiler result later h
  cases h

theorem addConstant (value : Value) : Deepens 0 (Compile.addConstant value) := by
  refine of_same (fun compiler => ?_) fun compiler => ?_ <;>
  · unfold Compile.addConstant pushConstant
    obtain ⟨constants, places, symbols, builder, enclosing, depth, span, maxDepth⟩ := compiler
    split
    · rfl
    · dsimp only
      split <;> rfl

/-- Work without nesting needs no levels. -/
theorem flat {work : Compile α} (h : Flat work) : Deepens 0 work := by
  induction h with
  | pure | get | setSpan => exact of_same (fun _ => rfl) fun _ => rfl
  | fail cause => exact failHere cause
  | bind _ _ hf hn => exact before hf hn
  | onBuilder => exact of_same (fun _ => by rw [onBuilder_apply]) fun _ => by rw [onBuilder_apply]
  | onSymbols => exact of_same (fun _ => by rw [onSymbols_apply]) fun _ => by rw [onSymbols_apply]
  | addConstant value => exact addConstant value
  | addFunction body =>
    exact fun compiler => addConstant (.compiled compiler.constants.size body) compiler
  | openFunction =>
    exact of_same (fun _ => by rw [openFunction_apply]) fun _ => by rw [openFunction_apply]
  | leaveBuilder =>
    refine of_same (fun compiler => ?_) fun compiler => ?_ <;>
    · unfold Compile.leaveBuilder
      obtain ⟨constants, places, symbols, builder, enclosing, depth, span, maxDepth⟩ := compiler
      cases enclosing <;> dsimp only <;> split <;> rfl

mutual

theorem expr (tree : Expr) : Deepens tree.nesting (Compile.expr tree) := by
  match tree with
  | .integer value span | .string value span =>
    rw [Compile.expr]
    exact nested (before (flat (.addConstant _)) fun _ => flat (.emit _ _))
  | .boolean value span =>
    rw [Compile.expr]
    exact nested (flat (.emit _ _))
  | .ident name span =>
    rw [Compile.expr]
    exact nested (flat (.loadName name))
  | .unary op operand span =>
    rw [Compile.expr]
    exact nested (andThen (expr operand) fun _ => flat (.emit _ _))
  | .binary op left right span =>
    rw [Compile.expr]
    exact nested (bind (expr left) fun _ => andThen (expr right) fun _ => flat (.emit _ _))
  | .logical .and left right span =>
    rw [Compile.expr]
    exact nested (before (flat (.onBuilder _)) fun _ => before (flat (.onBuilder _)) fun _ =>
      bind (expr left) fun _ => before (flat (.onBuilder _)) fun _ => andThen (expr right) fun _ =>
      flat (.bind (.onBuilder _) fun _ => .bind (.emit _ _) fun _ => .bind (.onBuilder _) fun _ =>
        .bind (.onBuilder _) fun _ => .bind (.emit _ _) fun _ => .onBuilder _))
  | .logical .or left right span =>
    rw [Compile.expr]
    exact nested (before (flat (.onBuilder _)) fun _ => before (flat (.onBuilder _)) fun _ =>
      bind (expr left) fun _ => before (flat (.onBuilder _)) fun _ =>
      before (flat (.onBuilder _)) fun _ => before (flat (.emit _ _)) fun _ =>
      before (flat (.onBuilder _)) fun _ => before (flat (.onBuilder _)) fun _ =>
      andThen (expr right) fun _ =>
      flat (.bind (.onBuilder _) fun _ => .bind (.emit _ _) fun _ => .bind (.onBuilder _) fun _ =>
        .bind (.onBuilder _) fun _ => .bind (.emit _ _) fun _ => .onBuilder _))
  | .bump op operand span =>
    rw [Compile.expr]
    exact nested (andThen (expr operand) fun _ =>
      flat (.bind (.addConstant _) fun _ => .bind (.emit _ _) fun _ => .emit _ _))
  | .ifThen condition thenBlock span =>
    obtain ⟨statements, blockSpan⟩ := thenBlock
    rw [Compile.expr]
    exact nested (bind (expr condition) fun _ => before (flat (.onBuilder _)) fun _ =>
      before (flat (.onBuilder _)) fun _ => before (flat (.onBuilder _)) fun _ =>
      andThen (block statements blockSpan) fun _ =>
      flat (.bind (.onBuilder _) fun _ => .bind (.onBuilder _) fun _ => .bind (.emit _ _) fun _ =>
        .onBuilder _))
  | .ifElse condition thenBlock elseBlock span =>
    obtain ⟨first, firstSpan⟩ := thenBlock
    obtain ⟨second, secondSpan⟩ := elseBlock
    rw [Compile.expr]
    exact nested (bind (expr condition) fun _ => before (flat (.onBuilder _)) fun _ =>
      before (flat (.onBuilder _)) fun _ => before (flat (.onBuilder _)) fun _ =>
      bind (block first firstSpan) fun _ => before (flat (.onBuilder _)) fun _ =>
      before (flat (.onBuilder _)) fun _ => andThen (block second secondSpan) fun _ =>
      flat (.onBuilder _))
  | .function name parameters (.mk body _) span =>
    rw [Compile.expr]
    exact nested (before (flat (.checkLimit _ _ _)) fun _ =>
      before (flat (.openFunction name parameters)) fun _ =>
      andThen (stmts body) fun _ => flat (.closeFunction name parameters span))
  | .array elements span =>
    rw [Compile.expr]
    exact nested (before (flat (.checkLimit _ _ _)) fun _ =>
      andThen (exprs elements) fun _ => flat (.emit _ _))
  | .hash pairs span =>
    rw [Compile.expr]
    exact nested (before (flat (.checkLimit _ _ _)) fun _ =>
      andThen (entries pairs) fun _ => flat (.emit _ _))
  | .call callee arguments span =>
    rw [Compile.expr]
    exact nested (before (flat (.checkLimit _ _ _)) fun _ => bind (expr callee) fun _ =>
      andThen (exprs arguments) fun _ => flat (.emit _ _))
  | .index collection key span =>
    rw [Compile.expr]
    exact nested (bind (expr collection) fun _ => andThen (expr key) fun _ => flat (.emit _ _))

theorem exprs (items : List Expr) : Deepens (nestingOfExprs items) (Compile.exprs items) := by
  match items with
  | [] => exact pure ()
  | item :: rest =>
    rw [Compile.exprs]
    exact bind (expr item) fun _ => exprs rest

theorem entries (pairs : List (Expr × Expr)) :
    Deepens (nestingOfEntries pairs) (Compile.entries pairs) := by
  match pairs with
  | [] => exact pure ()
  | (key, value) :: rest =>
    rw [Compile.entries]
    exact bind (expr key) fun _ => bind (expr value) fun _ => entries rest

theorem block (statements : List Stmt) (span : Span) :
    Deepens (nestingOfStmts statements) (Compile.block (.mk statements span)) := by
  rw [Compile.block]
  exact andThen (stmts statements) fun _ => flat .endBlock

theorem stmt (tree : Stmt) : Deepens tree.nesting (Compile.stmt tree) := by
  match tree with
  | .bind name value span =>
    rw [Compile.stmt]
    exact before (flat (.setSpan span)) fun _ => andThen (expr value) fun _ =>
      flat (.bind (.setSpan span) fun _ => .bind (.onSymbols _) fun _ => .storeSymbol _)
  | .ret value span | .expr value span =>
    rw [Compile.stmt]
    exact before (flat (.setSpan span)) fun _ => andThen (expr value) fun _ => flat (.emit _ _)
  | .retNull span =>
    rw [Compile.stmt]
    exact before (flat (.setSpan span)) fun _ => flat (.emit _ _)

theorem stmts (trees : List Stmt) : Deepens (nestingOfStmts trees) (Compile.stmts trees) := by
  match trees with
  | [] => exact pure ()
  | statement :: rest =>
    rw [Compile.stmts]
    exact bind (stmt statement) fun _ => stmts rest

end

end Deepens

/-- A program that a fresh compiler takes nests no deeper than its limit. -/
theorem nesting_le_of_compile {maxDepth : Nat} {tree : Program} {unit : Bytecode}
    (h : ((Compiler.create maxDepth).compile tree).1 = .ok unit) :
    nestingOfStmts tree.statements ≤ maxDepth := by
  unfold Compiler.compile at h
  dsimp only at h
  cases hp : Compile.program tree (Compiler.create maxDepth) with
  | mk result later =>
    rw [hp] at h
    cases result with
    | error error => cases h
    | ok bytecode =>
      obtain ⟨_, _, hreset, hrest⟩ := Attempt.bind_eq_ok hp
      cases hreset
      obtain ⟨_, _, hstmts, _⟩ := Attempt.bind_eq_ok hrest
      have hlevels := (Deepens.stmts tree.statements _ _ _ hstmts (Nat.zero_le _)).2.2
      exact le_of_eq_of_le (Nat.zero_add _).symm hlevels

end Simian
