import Simian.Bytecode.Compiler

/-!
# What compiling is made of

Compiling a tree is made of few kinds of steps: changes to one part of the compiler, one after the
other (`Flat`), and what is compiled one level further in (`Built.nested`). What these steps keep is
so kept by the compiling of every tree.
-/
namespace Simian

/-! ### Steps without nesting -/

/-- Steps that are made of changes to the parts of a compiler, one after the other. -/
inductive Flat : {α : Type} → Compile α → Prop where
  | pure {α : Type} (value : α) : Flat (Pure.pure value)
  | get : Flat Attempt.get
  | fail {α : Type} (cause : CompileError.Cause) : Flat (Compile.failHere cause : Compile α)
  | bind {α β : Type} {first : Compile α} {next : α → Compile β} :
    Flat first → (∀ value, Flat (next value)) → Flat (first >>= next)
  | onBuilder {α : Type} (change : CodeBuilder → α × CodeBuilder) : Flat (Compile.onBuilder change)
  | onSymbols {α : Type} (change : SymbolTable → α × SymbolTable) : Flat (Compile.onSymbols change)
  | setSpan (span : Span) : Flat (Compile.setSpan span)
  | addConstant (value : Value) : Flat (Compile.addConstant value)
  | addFunction (body : CompiledFunction) : Flat (Compile.addFunction body)
  | openFunction (name : Option String) (parameters : List String) :
    Flat (Compile.openFunction name parameters)
  | leaveBuilder : Flat Compile.leaveBuilder

namespace Flat

theorem emit (opcode : Opcode) (operands : List Nat) : Flat (Compile.emit opcode operands) :=
  onBuilder _

theorem checkLimit (count limit : Nat) (cause : Nat → CompileError.Cause) :
    Flat (Compile.checkLimit count limit cause) := by
  unfold Compile.checkLimit
  split
  · exact fail _
  · exact pure ()

theorem loadSymbol (symbol : Symbol) : Flat (Compile.loadSymbol symbol) := by
  unfold Compile.loadSymbol
  split <;> exact emit _ _

theorem storeSymbol (symbol : Symbol) : Flat (Compile.storeSymbol symbol) := by
  unfold Compile.storeSymbol
  split
  · split
    · exact emit _ _
    · exact fail _
  · split
    · exact emit _ _
    · exact fail _
  · exact fail _

theorem loadName (name : String) : Flat (Compile.loadName name) := by
  refine bind (onSymbols _) fun found => ?_
  cases found with
  | some symbol => exact loadSymbol symbol
  | none => exact fail _

theorem loadAll (symbols : List Symbol) : Flat (symbols.forM Compile.loadSymbol) := by
  induction symbols with
  | nil => exact pure ()
  | cons symbol rest ih => exact bind (loadSymbol symbol) fun _ => ih

theorem endsInReturn : Flat Compile.endsInReturn := by
  have hlast : ∀ opcode, Flat (Compile.lastIs opcode) := fun opcode =>
    onBuilder fun builder => (builder.lastIs opcode, builder)
  refine bind (hlast .returnValue) fun last => ?_
  cases last with
  | true => exact pure true
  | false => exact hlast .returnNull

theorem endBlock : Flat Compile.endBlock := by
  refine bind (onBuilder _) fun removed => ?_
  cases removed with
  | true => exact pure ()
  | false =>
    refine bind endsInReturn fun returned => ?_
    cases returned with
    | true => exact pure ()
    | false => exact emit _ _

theorem endFunction : Flat Compile.endFunction := by
  refine bind (onBuilder _) fun replaced => ?_
  cases replaced with
  | true => exact pure ()
  | false =>
    refine bind endsInReturn fun returned => ?_
    cases returned with
    | true => exact pure ()
    | false => exact emit _ _

theorem closeFunction (name : Option String) (parameters : List String) (span : Span) :
    Flat (Compile.closeFunction name parameters span) := by
  refine bind endFunction fun _ => bind get fun compiler => ?_
  refine bind (bind (onSymbols _) fun _ => leaveBuilder) fun code => bind (setSpan span) fun _ => ?_
  split
  · exact fail _
  · exact bind (checkLimit _ _ _) fun _ => bind (loadAll _) fun _ =>
      bind (addFunction _) fun _ => emit _ _

end Flat

/-! ### Steps that nest -/

/-- Steps that are made of flat ones and of nested ones, one after the other. -/
inductive Built : {α : Type} → Compile α → Prop where
  | flat {α : Type} {step : Compile α} : Flat step → Built step
  | bind {α β : Type} {first : Compile α} {next : α → Compile β} :
    Built first → (∀ value, Built (next value)) → Built (first >>= next)
  | nested {span : Span} {body : Compile Unit} : Built body → Built (Compile.nested span body)

namespace Built

theorem after {α β : Type} {first : Compile α} {next : α → Compile β} (h : Flat first)
    (hnext : ∀ value, Built (next value)) : Built (first >>= next) :=
  bind (flat h) hnext

mutual

theorem expr (tree : Expr) : Built (Compile.expr tree) := by
  match tree with
  | .integer value span =>
    rw [Compile.expr]
    exact nested (after (.addConstant _) fun _ => flat (.emit _ _))
  | .string text span =>
    rw [Compile.expr]
    exact nested (after (.addConstant _) fun _ => flat (.emit _ _))
  | .boolean value span =>
    rw [Compile.expr]
    exact nested (flat (.emit _ _))
  | .ident name span =>
    rw [Compile.expr]
    exact nested (flat (.loadName name))
  | .unary op operand span =>
    rw [Compile.expr]
    exact nested (bind (expr operand) fun _ => flat (.emit _ _))
  | .binary op left right span =>
    rw [Compile.expr]
    exact nested (bind (expr left) fun _ => bind (expr right) fun _ => flat (.emit _ _))
  | .logical .and left right span =>
    rw [Compile.expr]
    exact nested (after (.onBuilder _) fun _ => after (.onBuilder _) fun _ =>
      bind (expr left) fun _ => after (.onBuilder _) fun _ => bind (expr right) fun _ =>
      after (.onBuilder _) fun _ => after (.emit _ _) fun _ => after (.onBuilder _) fun _ =>
      after (.onBuilder _) fun _ => after (.emit _ _) fun _ => flat (.onBuilder _))
  | .logical .or left right span =>
    rw [Compile.expr]
    exact nested (after (.onBuilder _) fun _ => after (.onBuilder _) fun _ =>
      bind (expr left) fun _ => after (.onBuilder _) fun _ => after (.onBuilder _) fun _ =>
      after (.emit _ _) fun _ => after (.onBuilder _) fun _ => after (.onBuilder _) fun _ =>
      bind (expr right) fun _ => after (.onBuilder _) fun _ => after (.emit _ _) fun _ =>
      after (.onBuilder _) fun _ => after (.onBuilder _) fun _ => after (.emit _ _) fun _ =>
      flat (.onBuilder _))
  | .bump op operand span =>
    rw [Compile.expr]
    exact nested (bind (expr operand) fun _ => after (.addConstant _) fun _ =>
      after (.emit _ _) fun _ => flat (.emit _ _))
  | .ifThen condition thenBlock span =>
    rw [Compile.expr]
    exact nested (bind (expr condition) fun _ => after (.onBuilder _) fun _ =>
      after (.onBuilder _) fun _ => after (.onBuilder _) fun _ => bind (block thenBlock) fun _ =>
      after (.onBuilder _) fun _ => after (.onBuilder _) fun _ => after (.emit _ _) fun _ =>
      flat (.onBuilder _))
  | .ifElse condition thenBlock elseBlock span =>
    rw [Compile.expr]
    exact nested (bind (expr condition) fun _ => after (.onBuilder _) fun _ =>
      after (.onBuilder _) fun _ => after (.onBuilder _) fun _ => bind (block thenBlock) fun _ =>
      after (.onBuilder _) fun _ => after (.onBuilder _) fun _ => bind (block elseBlock) fun _ =>
      flat (.onBuilder _))
  | .function name parameters (.mk body _) span =>
    rw [Compile.expr]
    exact nested (after (.checkLimit _ _ _) fun _ => after (.openFunction name parameters) fun _ =>
      bind (stmts body) fun _ => flat (.closeFunction name parameters span))
  | .array elements span =>
    rw [Compile.expr]
    exact nested (after (.checkLimit _ _ _) fun _ => bind (exprs elements) fun _ =>
      flat (.emit _ _))
  | .hash pairs span =>
    rw [Compile.expr]
    exact nested (after (.checkLimit _ _ _) fun _ => bind (entries pairs) fun _ => flat (.emit _ _))
  | .call callee arguments span =>
    rw [Compile.expr]
    exact nested (after (.checkLimit _ _ _) fun _ => bind (expr callee) fun _ =>
      bind (exprs arguments) fun _ => flat (.emit _ _))
  | .index collection key span =>
    rw [Compile.expr]
    exact nested (bind (expr collection) fun _ => bind (expr key) fun _ => flat (.emit _ _))

theorem exprs (items : List Expr) : Built (Compile.exprs items) := by
  match items with
  | [] => exact flat (.pure ())
  | item :: rest =>
    rw [Compile.exprs]
    exact bind (expr item) fun _ => exprs rest

theorem entries (pairs : List (Expr × Expr)) : Built (Compile.entries pairs) := by
  match pairs with
  | [] => exact flat (.pure ())
  | (key, value) :: rest =>
    rw [Compile.entries]
    exact bind (expr key) fun _ => bind (expr value) fun _ => entries rest

theorem block (tree : Block) : Built (Compile.block tree) := by
  match tree with
  | .mk statements _ =>
    rw [Compile.block]
    exact bind (stmts statements) fun _ => flat .endBlock

theorem stmt (tree : Stmt) : Built (Compile.stmt tree) := by
  match tree with
  | .bind name value span =>
    rw [Compile.stmt]
    exact after (.setSpan span) fun _ => bind (expr value) fun _ => after (.setSpan span) fun _ =>
      after (.onSymbols _) fun _ => flat (.storeSymbol _)
  | .ret value span =>
    rw [Compile.stmt]
    exact after (.setSpan span) fun _ => bind (expr value) fun _ => flat (.emit _ _)
  | .retNull span =>
    rw [Compile.stmt]
    exact after (.setSpan span) fun _ => flat (.emit _ _)
  | .expr value span =>
    rw [Compile.stmt]
    exact after (.setSpan span) fun _ => bind (expr value) fun _ => flat (.emit _ _)

theorem stmts (trees : List Stmt) : Built (Compile.stmts trees) := by
  match trees with
  | [] => exact flat (.pure ())
  | statement :: rest =>
    rw [Compile.stmts]
    exact bind (stmt statement) fun _ => stmts rest

end

end Built

end Simian
