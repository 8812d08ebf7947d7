import Simian.Attempt
import Simian.Bytecode
import Simian.Bytecode.Builder
import Simian.Symbol
import Std.Data.ExtHashMap

/-!
# From trees to code

Every expression becomes code that leaves one value on the stack, and every statement
that is an expression drops it again. A function literal becomes code of its own among
the constants, and a closure made of it and of the values that it captures.

A compiler keeps its names and constants from unit to unit. A unit that fails takes
back what it added: the names are those from before, the constants are cut to their old
number, and the places of those cut off are forgotten.
-/
namespace Simian

/-! ### Limits of the operands -/

def maxConstants : Nat := 65536
def maxGlobals : Nat := 65536
def maxLocals : Nat := 256
def maxArguments : Nat := 255
def maxCaptures : Nat := 255
def maxElements : Nat := 65535

inductive CompileError.Cause where
  | undefinedVariable (name : String)
  | tooManyConstants
  | tooManyGlobals
  | tooManyLocals
  | tooManyArguments (count : Nat)
  | tooManyCaptures (count : Nat)
  | tooManyElements (count : Nat)
  | jumpOutOfRange (target : Nat)
  | nestingTooDeep (limit : Nat)
  deriving Repr, DecidableEq, Inhabited

structure CompileError where
  cause : CompileError.Cause
  /-- The place of the construct that does not compile. -/
  span : Span
  deriving Repr, DecidableEq, Inhabited

def CompileError.Cause.message : CompileError.Cause → String
  | undefinedVariable name => s!"undefined variable {name}"
  | tooManyConstants => s!"too many constants (limit {maxConstants})"
  | tooManyGlobals => s!"too many global bindings (limit {maxGlobals})"
  | tooManyLocals => s!"too many local bindings in function (limit {maxLocals})"
  | tooManyArguments count => s!"too many arguments (limit {maxArguments}, got {count})"
  | tooManyCaptures count => s!"too many free variables (limit {maxCaptures}, got {count})"
  | tooManyElements count => s!"too many elements in literal (limit {maxElements}, got {count})"
  | jumpOutOfRange target => s!"jump target {target} out of range"
  | nestingTooDeep limit => s!"nesting too deep (limit {limit})"

def CompileError.message (error : CompileError) : String := error.cause.message

structure Compiler where
  constants : Array Value
  /-- Places of the integers and texts among the constants. -/
  places : Std.ExtHashMap Key Nat
  symbols : SymbolTable
  /-- The code of the function being compiled. -/
  builder : CodeBuilder
  /-- The code of the functions around it, the nearest first. -/
  enclosing : List CodeBuilder
  /-- Nested expressions being compiled. -/
  depth : Nat
  /-- Place of the construct being compiled. -/
  span : Span
  maxDepth : Nat

/-- A step of compiling. It keeps the compiler where it stopped, also when it fails. -/
abbrev Compile (α : Type) : Type := Attempt CompileError Compiler α

namespace Compile

open Attempt (get modify modifyGet)

/-- Fails at the construct being compiled. -/
def failHere {α : Type} (cause : CompileError.Cause) : Compile α := fun compiler =>
  (.error ⟨cause, compiler.span⟩, compiler)

def checkLimit (count limit : Nat) (cause : Nat → CompileError.Cause) : Compile Unit :=
  if limit < count then failHere (cause count) else pure ()

def setSpan (span : Span) : Compile Unit := modify fun compiler => { compiler with span }

/-- Works on the code of the function being compiled. -/
@[inline] def onBuilder {α : Type} (change : CodeBuilder → α × CodeBuilder) : Compile α :=
  fun compiler =>
    match compiler with
    | ⟨constants, places, symbols, builder, enclosing, depth, span, maxDepth⟩ =>
      match change builder with
      | (value, builder) =>
        (.ok value, ⟨constants, places, symbols, builder, enclosing, depth, span, maxDepth⟩)

def emit (opcode : Opcode) (operands : List Nat) : Compile Unit :=
  onBuilder fun builder => ((), builder.emit opcode operands)

def emitJump (opcode : Opcode) (label : Label) : Compile Unit :=
  onBuilder fun builder => ((), builder.emitJump opcode label)

def createLabel : Compile Label := onBuilder CodeBuilder.createLabel

def bindLabel (label : Label) : Compile Unit :=
  onBuilder fun builder => ((), builder.bindLabel label)

def lastIs (opcode : Opcode) : Compile Bool :=
  onBuilder fun builder => (builder.lastIs opcode, builder)

/-- Works on the names. -/
@[inline] def onSymbols {α : Type} (change : SymbolTable → α × SymbolTable) : Compile α :=
  fun compiler =>
    match compiler with
    | ⟨constants, places, symbols, builder, enclosing, depth, span, maxDepth⟩ =>
      match change symbols with
      | (value, symbols) =>
        (.ok value, ⟨constants, places, symbols, builder, enclosing, depth, span, maxDepth⟩)

/-- Pushes the value that the symbol stands for. -/
def loadSymbol (symbol : Symbol) : Compile Unit :=
  match symbol.storage with
  | .globalSlot => emit .getGlobal [symbol.index]
  | .localSlot => emit .getLocal [symbol.index]
  | .builtin => emit .getBuiltin [symbol.index]
  | .captured => emit .getFree [symbol.index]
  | .self => emit .currentClosure []

/-- Pops a value into the slot of the symbol. -/
def storeSymbol (symbol : Symbol) : Compile Unit :=
  match symbol.storage with
  | .globalSlot =>
    if symbol.index < maxGlobals then emit .setGlobal [symbol.index]
    else failHere .tooManyGlobals
  | .localSlot =>
    if symbol.index < maxLocals then emit .setLocal [symbol.index]
    else failHere .tooManyLocals
  | _ => failHere .tooManyLocals

/-- The key under which a constant is shared. Functions never are. -/
def constantKey? : Value → Option Key
  | .int value => some (.int value)
  | .str text => some (.str text)
  | _ => none

/-- Adds a constant at the end. -/
def pushConstant (value : Value) : Compile Nat := fun compiler =>
  match compiler with
  | ⟨constants, places, symbols, builder, enclosing, depth, span, maxDepth⟩ =>
    let index := constants.size
    if maxConstants ≤ index then
      (.error ⟨.tooManyConstants, span⟩,
        ⟨constants, places, symbols, builder, enclosing, depth, span, maxDepth⟩)
    else
      let places := match constantKey? value with
        | some key => places.insert key index
        | none => places
      (.ok index,
        ⟨constants.push value, places, symbols, builder, enclosing, depth, span, maxDepth⟩)

/-- The place of a constant, which is added unless it can be shared. -/
def addConstant (value : Value) : Compile Nat := fun compiler =>
  match (constantKey? value).bind (compiler.places[·]?) with
  | some index => (.ok index, compiler)
  | none => pushConstant value compiler

/-- Adds the function to the constants. Its place serves as its identity. -/
def addFunction (body : CompiledFunction) : Compile Nat := fun compiler =>
  addConstant (.compiled compiler.constants.size body) compiler

def enterScope : Compile Unit := modify fun compiler =>
  { compiler with
    builder := .empty
    enclosing := compiler.builder :: compiler.enclosing
    symbols := compiler.symbols.enter }

/-- Finishes the code of the innermost function and goes back to the one around it. -/
def leaveBuilder : Compile Code := fun compiler =>
  let builder := compiler.builder
  let compiler := match compiler.enclosing with
    | [] => { compiler with builder := .empty }
    | outer :: rest => { compiler with builder := outer, enclosing := rest }
  match builder.finish with
  | .ok code => (.ok code, compiler)
  | .error target => (.error ⟨.jumpOutOfRange target, compiler.span⟩, compiler)

def leaveScope : Compile Code := do
  onSymbols fun symbols => ((), symbols.leave?.getD symbols)
  leaveBuilder

/-- Compiles one nesting level deeper, if the limit allows, at the place of the expression. -/
def nested (span : Span) (body : Compile Unit) : Compile Unit := fun compiler =>
  if compiler.maxDepth ≤ compiler.depth then
    (.error ⟨.nestingTooDeep compiler.maxDepth, span⟩, compiler)
  else
    match body { compiler with depth := compiler.depth + 1, span } with
    | (result, compiler) => (result, { compiler with depth := compiler.depth - 1 })

/-- Resolves the name and pushes its value. -/
def loadName (name : String) : Compile Unit := do
  let found ← onSymbols fun symbols =>
    match symbols.resolve name with
    | some (symbol, symbols) => (some symbol, symbols)
    | none => (none, symbols)
  match found with
  | some symbol => loadSymbol symbol
  | none => failHere (.undefinedVariable name)

/-- Whether control never passes the end of the code so far. -/
def endsInReturn : Compile Bool := do
  if ← lastIs .returnValue then pure true else lastIs .returnNull

/-- Makes the statements of a block leave a value: that of a final expression, or null. -/
def endBlock : Compile Unit := do
  if ← onBuilder CodeBuilder.removeLastPop then pure ()
  else if ← endsInReturn then pure ()
  else emit .pushNull []

/-- Makes the statements of a function return: the value of a final expression, or null. -/
def endFunction : Compile Unit := do
  if ← onBuilder CodeBuilder.replaceLastPop then pure ()
  else if ← endsInReturn then pure ()
  else emit .returnNull []

def opcodeOfBinary : BinaryOp → Opcode
  | .add => .add
  | .sub => .sub
  | .mul => .mul
  | .div => .div
  | .mod => .mod
  | .eq => .equal
  | .notEq => .notEqual
  | .lt => .lessThan
  | .ltEq => .lessEqual
  | .gt => .greaterThan
  | .gtEq => .greaterEqual

def opcodeOfUnary : UnaryOp → Opcode
  | .negate => .minus
  | .invert => .bang

/-- Opens the scope of a function and names it and its parameters. -/
def openFunction (name : Option String) (parameters : List String) : Compile Unit := do
  enterScope
  match name with
  | some name => onSymbols fun symbols => ((), (symbols.defineSelf name).2)
  | none => pure ()
  onSymbols fun symbols =>
    ((), parameters.foldl (fun symbols parameter => (symbols.define parameter).2) symbols)

/-- Closes the scope of a function whose body is compiled, and pushes a closure of it. -/
def closeFunction (name : Option String) (parameters : List String) (span : Span) :
    Compile Unit := do
  endFunction
  let scope := (← get).symbols.inner
  let code ← leaveScope
  setSpan span
  if maxLocals < scope.slots then failHere .tooManyLocals
  else
    checkLimit scope.captures.size maxCaptures .tooManyCaptures
    scope.captures.toList.forM loadSymbol
    let index ← addFunction ⟨name, code, scope.slots, parameters.length⟩
    emit .closure [index, scope.captures.size]

mutual

def expr : Expr → Compile Unit
  | .integer value span => nested span do
    let index ← addConstant (.int value)
    emit .constant [index]
  | .string text span => nested span do
    let index ← addConstant (.str text)
    emit .constant [index]
  | .boolean value span => nested span (emit (if value then .pushTrue else .pushFalse) [])
  | .ident name span => nested span (loadName name)
  | .unary op operand span => nested span do
    expr operand
    emit (opcodeOfUnary op) []
  | .binary op left right span => nested span do
    expr left
    expr right
    emit (opcodeOfBinary op) []
  | .logical .and left right span => nested span do
    let falseLabel ← createLabel
    let endLabel ← createLabel
    expr left
    emitJump .jumpNotTruthy falseLabel
    expr right
    emitJump .jumpNotTruthy falseLabel
    emit .pushTrue []
    emitJump .jump endLabel
    bindLabel falseLabel
    emit .pushFalse []
    bindLabel endLabel
  | .logical .or left right span => nested span do
    let falseLabel ← createLabel
    let endLabel ← createLabel
    expr left
    let rightLabel ← createLabel
    emitJump .jumpNotTruthy rightLabel
    emit .pushTrue []
    emitJump .jump endLabel
    bindLabel rightLabel
    expr right
    emitJump .jumpNotTruthy falseLabel
    emit .pushTrue []
    emitJump .jump endLabel
    bindLabel falseLabel
    emit .pushFalse []
    bindLabel endLabel
  | .bump op operand span => nested span do
    expr operand
    let one ← addConstant (.int 1)
    emit .constant [one]
    emit (opcodeOfBinary op.binary) []
  | .ifThen condition thenBlock span => nested span do
    expr condition
    let elseLabel ← createLabel
    let endLabel ← createLabel
    emitJump .jumpNotTruthy elseLabel
    block thenBlock
    emitJump .jump endLabel
    bindLabel elseLabel
    emit .pushNull []
    bindLabel endLabel
  | .ifElse condition thenBlock elseBlock span => nested span do
    expr condition
    let elseLabel ← createLabel
    let endLabel ← createLabel
    emitJump .jumpNotTruthy elseLabel
    block thenBlock
    emitJump .jump endLabel
    bindLabel elseLabel
    block elseBlock
    bindLabel endLabel
  | .function name parameters (.mk body _) span => nested span do
    checkLimit parameters.length maxArguments .tooManyArguments
    openFunction name parameters
    stmts body
    closeFunction name parameters span
  | .array elements span => nested span do
    checkLimit elements.length maxElements .tooManyElements
    exprs elements
    emit .array [elements.length]
  | .hash pairs span => nested span do
    checkLimit (pairs.length * 2) maxElements .tooManyElements
    entries pairs
    emit .hash [pairs.length * 2]
  | .call callee arguments span => nested span do
    checkLimit arguments.length maxArguments .tooManyArguments
    expr callee
    exprs arguments
    emit .call [arguments.length]
  | .index collection key span => nested span do
    expr collection
    expr key
    emit .index []

/-- Compiles the expressions in turn. -/
def exprs : List Expr → Compile Unit
  | [] => pure ()
  | item :: rest => do
    expr item
    exprs rest

/-- Compiles keys and values in turn. -/
def entries : List (Expr × Expr) → Compile Unit
  | [] => pure ()
  | (key, value) :: rest => do
    expr key
    expr value
    entries rest

/-- Compiles a block so that it leaves its value. -/
def block : Block → Compile Unit
  | .mk statements _ => do
    stmts statements
    endBlock

def stmt : Stmt → Compile Unit
  | .bind name value span => do
    setSpan span
    expr value
    setSpan span
    let symbol ← onSymbols (·.define name)
    storeSymbol symbol
  | .ret value span => do
    setSpan span
    expr value
    emit .returnValue []
  | .retNull span => do
    setSpan span
    emit .returnNull []
  | .expr value span => do
    setSpan span
    expr value
    emit .pop []

/-- Compiles the statements in turn. -/
def stmts : List Stmt → Compile Unit
  | [] => pure ()
  | statement :: rest => do
    stmt statement
    stmts rest

end

/-- Compiles a program to the code of a unit. -/
def program (tree : Program) : Compile Bytecode := do
  modify fun compiler => { compiler with builder := .empty, enclosing := [] }
  stmts tree.statements
  let code ← leaveBuilder
  return ⟨code, (← get).constants⟩

end Compile

namespace Compiler

/-- A compiler that knows the built-in functions only. -/
def create (maxDepth : Nat) : Compiler where
  constants := #[]
  places := ∅
  symbols := Builtin.all.zipIdx.foldl
    (fun symbols (builtin, index) => (symbols.defineBuiltin index builtin.name).2) .empty
  builder := .empty
  enclosing := []
  depth := 0
  span := .zero
  maxDepth

/-- Compiles a unit. If that fails, the unit leaves no name and no constant behind. -/
def compile (compiler : Compiler) (tree : Program) : Except CompileError Bytecode × Compiler :=
  let symbols := compiler.symbols
  let count := compiler.constants.size
  match Compile.program tree compiler with
  | (.ok bytecode, compiler) => (.ok bytecode, compiler)
  | (.error error, compiler) =>
    (.error error,
      { compiler with
        symbols
        constants := compiler.constants.shrink count
        places := compiler.places.filter fun _ place => place < count
        depth := 0 })

end Compiler

end Simian
