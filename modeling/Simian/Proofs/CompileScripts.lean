import Simian.Proofs.CompiledUnits
import Simian.Proofs.DraftCode

/-!
# Scripts of compiling

A script says of which steps a part of the compilation is made: which instructions it
emits, which limits it checks before and where it opens and leaves functions. The
computation is an index of the script, so that a script is always one of the compiler's
own code, and there is one for every tree. A step is quiet if it has no part in the
code that is written.
-/
namespace Simian

/-- Whether the cause is a number beyond what an operand or the pool has room for. -/
def CompileError.Cause.isLimit : CompileError.Cause → Bool
  | .tooManyConstants | .tooManyGlobals | .tooManyLocals | .tooManyArguments _
  | .tooManyCaptures _ | .tooManyElements _ | .jumpOutOfRange _ => true
  | .undefinedVariable _ | .nestingTooDeep _ => false

namespace Compile

open Attempt (get)

/-- The instruction that pushes what the symbol stands for. -/
def loadOf (symbol : Symbol) : Instruction :=
  match symbol.storage with
  | .globalSlot => ⟨.getGlobal, [symbol.index]⟩
  | .localSlot => ⟨.getLocal, [symbol.index]⟩
  | .builtin => ⟨.getBuiltin, [symbol.index]⟩
  | .captured => ⟨.getFree, [symbol.index]⟩
  | .self => ⟨.currentClosure, []⟩

theorem loadSymbol_eq (symbol : Symbol) :
    loadSymbol symbol = emit (loadOf symbol).opcode (loadOf symbol).operands := by
  unfold loadSymbol loadOf
  cases symbol.storage <;> rfl

/-- The instruction that pops a value into the slot of the symbol. -/
def storeOf (symbol : Symbol) : Instruction :=
  match symbol.storage with
  | .globalSlot => ⟨.setGlobal, [symbol.index]⟩
  | _ => ⟨.setLocal, [symbol.index]⟩

/-- The symbol that the name is resolved to. -/
def findName (name : String) : Compile (Option Symbol) := onSymbols fun symbols =>
  match symbols.resolve name with
  | some (symbol, symbols) => (some symbol, symbols)
  | none => (none, symbols)

/-- What closing a function does when the code of its body has an end. -/
def packFunction (name : Option String) (parameters : List String) (span : Span) :
    Compile Unit := do
  let scope := (← get).symbols.inner
  let code ← leaveScope
  setSpan span
  if maxLocals < scope.slots then failHere .tooManyLocals
  else
    checkLimit scope.captures.size maxCaptures .tooManyCaptures
    scope.captures.toList.forM loadSymbol
    let index ← addFunction ⟨name, code, scope.slots, parameters.length⟩
    emit .closure [index, scope.captures.size]

/-- The step succeeds and changes at most the place for errors and the offsets of labels. -/
def Quiet {α : Type} (work : Compile α) : Prop := ∀ compiler : Compiler,
  ∃ value span labels, work compiler =
    (.ok value, { compiler with span, builder := { compiler.builder with labels } })

theorem quiet_pure {α : Type} (value : α) : Quiet (pure value) :=
  fun compiler => ⟨value, compiler.span, compiler.builder.labels, rfl⟩

theorem quiet_setSpan (span : Span) : Quiet (setSpan span) :=
  fun compiler => ⟨(), span, compiler.builder.labels, rfl⟩

theorem quiet_createLabel : Quiet createLabel := fun compiler => by
  obtain ⟨_, _, _, ⟨_, _, _, labels, _⟩, _, _, span, _⟩ := compiler
  exact ⟨⟨labels.size⟩, span, labels.push none, rfl⟩

theorem quiet_bindLabel (label : Label) : Quiet (bindLabel label) := fun compiler => by
  obtain ⟨_, _, _, ⟨code, _, _, labels, _⟩, _, _, span, _⟩ := compiler
  exact ⟨(), span, labels.setIfInBounds label.index (some code.size), rfl⟩

theorem quiet_endsInReturn : Quiet endsInReturn := fun compiler =>
  ⟨_, compiler.span, compiler.builder.labels, endsInReturn_apply⟩

end Compile

open Compile

/-- The steps that a part of the compilation is made of. -/
inductive Script : {α : Type} → Compile α → Type 1 where
  | quiet {α : Type} {work : Compile α} (h : Quiet work) : Script work
  | bind {α β : Type} {first : Compile α} {next : α → Compile β} :
    Script first → (∀ value, Script (next value)) → Script (first >>= next)
  | nested (span : Span) {body : Compile Unit} : Script body → Script (Compile.nested span body)
  /-- A number is checked before the instructions that have it as an operand are emitted. -/
  | limited {next : Compile Unit} (count limit : Nat) (cause : Nat → CompileError.Cause)
    (wanted : List Instruction) (hcause : (cause count).isLimit = true) :
    (count ≤ limit → Script next) → Script (checkLimit count limit cause >>= fun _ => next)
  | emit (opcode : Opcode) (operands : List Nat) (h : Instruction.Fits operands opcode.widths) :
    Script (Compile.emit opcode operands)
  | jump (opcode : Opcode) (label : Label) (h : opcode.widths = [2]) :
    Script (emitJump opcode label)
  | constant {next : Compile Unit} (key : Key) : Script next →
    Script (addConstant key.toValue >>= fun index =>
      Compile.emit .constant [index] >>= fun _ => next)
  | load (name : String) : Script (loadName name)
  | bindName (name : String) : Script (onSymbols (·.define name) >>= storeSymbol)
  | dropPop : Script (onBuilder CodeBuilder.removeLastPop)
  | returnPop : Script (onBuilder CodeBuilder.replaceLastPop)
  | openFunction (name : Option String) (parameters : List String) :
    Script (Compile.openFunction name parameters)
  | packFunction (name : Option String) (parameters : List String) (span : Span) :
    Script (Compile.packFunction name parameters span)

namespace Script

/-- A constant behind which nothing comes. -/
def lastConstant (key : Key) :
    Script (addConstant key.toValue >>= fun index => Compile.emit .constant [index]) :=
  constant key (quiet (quiet_pure ()))

def endBlock : Script Compile.endBlock :=
  bind dropPop fun
    | true => quiet (quiet_pure ())
    | false => bind (quiet quiet_endsInReturn) fun
      | true => quiet (quiet_pure ())
      | false => emit .pushNull [] trivial

def endFunction : Script Compile.endFunction :=
  bind returnPop fun
    | true => quiet (quiet_pure ())
    | false => bind (quiet quiet_endsInReturn) fun
      | true => quiet (quiet_pure ())
      | false => emit .returnNull [] trivial

def closeFunction (name : Option String) (parameters : List String) (span : Span) :
    Script (Compile.closeFunction name parameters span) :=
  bind endFunction fun _ => packFunction name parameters span

/-- A label is created. -/
def label : Script createLabel := quiet quiet_createLabel

/-- A label is bound. -/
def mark (label : Label) : Script (bindLabel label) := quiet (quiet_bindLabel label)

def span (span : Span) : Script (setSpan span) := quiet (quiet_setSpan span)

mutual

def expr : (tree : Expr) → Script (Compile.expr tree)
  | .integer value _ => nested _ (lastConstant (.int value))
  | .string text _ => nested _ (lastConstant (.str text))
  | .boolean value _ => nested _ (emit _ [] (by cases value <;> trivial))
  | .ident name _ => nested _ (load name)
  | .unary op operand _ => nested _ (bind (expr operand) fun _ =>
    emit _ [] (fits_nil (widths_opcodeOfUnary op)))
  | .binary op left right _ => nested _ (bind (expr left) fun _ => bind (expr right) fun _ =>
    emit _ [] (fits_nil (widths_opcodeOfBinary op)))
  | .logical .and left right _ => nested _ (bind label fun falseLabel => bind label fun endLabel =>
    bind (expr left) fun _ => bind (jump _ falseLabel rfl) fun _ =>
    bind (expr right) fun _ => bind (jump _ falseLabel rfl) fun _ =>
    bind (emit _ [] trivial) fun _ => bind (jump _ endLabel rfl) fun _ =>
    bind (mark falseLabel) fun _ => bind (emit _ [] trivial) fun _ => mark endLabel)
  | .logical .or left right _ => nested _ (bind label fun falseLabel => bind label fun endLabel =>
    bind (expr left) fun _ => bind label fun rightLabel =>
    bind (jump _ rightLabel rfl) fun _ => bind (emit _ [] trivial) fun _ =>
    bind (jump _ endLabel rfl) fun _ => bind (mark rightLabel) fun _ =>
    bind (expr right) fun _ => bind (jump _ falseLabel rfl) fun _ =>
    bind (emit _ [] trivial) fun _ => bind (jump _ endLabel rfl) fun _ =>
    bind (mark falseLabel) fun _ => bind (emit _ [] trivial) fun _ => mark endLabel)
  | .bump op operand _ => nested _ (bind (expr operand) fun _ =>
    constant (.int 1) (emit _ [] (fits_nil (widths_opcodeOfBinary op.binary))))
  | .ifThen condition thenBlock _ => nested _ (bind (expr condition) fun _ =>
    bind label fun elseLabel => bind label fun endLabel =>
    bind (jump _ elseLabel rfl) fun _ => bind (block thenBlock) fun _ =>
    bind (jump _ endLabel rfl) fun _ => bind (mark elseLabel) fun _ =>
    bind (emit _ [] trivial) fun _ => mark endLabel)
  | .ifElse condition thenBlock elseBlock _ => nested _ (bind (expr condition) fun _ =>
    bind label fun elseLabel => bind label fun endLabel =>
    bind (jump _ elseLabel rfl) fun _ => bind (block thenBlock) fun _ =>
    bind (jump _ endLabel rfl) fun _ => bind (mark elseLabel) fun _ =>
    bind (block elseBlock) fun _ => mark endLabel)
  | .function name parameters (.mk body _) span => nested _ (limited _ _ _ [] rfl fun _ =>
    bind (openFunction name parameters) fun _ => bind (stmts body) fun _ =>
    closeFunction name parameters span)
  | .array elements _ => nested _ (limited _ _ _ [⟨.array, [elements.length]⟩] rfl fun h =>
    bind (exprs elements) fun _ => emit _ _ ⟨Nat.lt_succ_of_le h, trivial⟩)
  | .hash pairs _ => nested _ (limited _ _ _ [⟨.hash, [pairs.length * 2]⟩] rfl fun h =>
    bind (entries pairs) fun _ => emit _ _ ⟨Nat.lt_succ_of_le h, trivial⟩)
  | .call callee arguments _ => nested _ (limited _ _ _ [⟨.call, [arguments.length]⟩] rfl fun h =>
    bind (expr callee) fun _ => bind (exprs arguments) fun _ =>
    emit _ _ ⟨Nat.lt_succ_of_le h, trivial⟩)
  | .index collection key _ => nested _ (bind (expr collection) fun _ => bind (expr key) fun _ =>
    emit _ [] trivial)

def exprs : (items : List Expr) → Script (Compile.exprs items)
  | [] => quiet (quiet_pure ())
  | item :: rest => bind (expr item) fun _ => exprs rest

def entries : (pairs : List (Expr × Expr)) → Script (Compile.entries pairs)
  | [] => quiet (quiet_pure ())
  | (key, value) :: rest => bind (expr key) fun _ => bind (expr value) fun _ => entries rest

def block : (tree : Block) → Script (Compile.block tree)
  | .mk statements _ => bind (stmts statements) fun _ => endBlock

def stmt : (tree : Stmt) → Script (Compile.stmt tree)
  | .bind name value place => bind (span place) fun _ => bind (expr value) fun _ =>
    bind (span place) fun _ => bindName name
  | .ret value place => bind (span place) fun _ => bind (expr value) fun _ =>
    emit _ [] trivial
  | .retNull place => bind (span place) fun _ => emit _ [] trivial
  | .expr value place => bind (span place) fun _ => bind (expr value) fun _ =>
    emit _ [] trivial

def stmts : (trees : List Stmt) → Script (Compile.stmts trees)
  | [] => quiet (quiet_pure ())
  | statement :: rest => bind (stmt statement) fun _ => stmts rest

end

end Script

end Simian
