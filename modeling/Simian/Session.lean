import Simian.Bytecode.Compiler
import Simian.Evaluator
import Simian.Machine.Step
import Simian.Tree.Parser

/-!
# Sessions

A session runs one unit of source after another on one of the two engines. On the
machine the names and constants of the compiler and the global slots carry over from
unit to unit, and on the evaluator its outermost scope does. A unit that fails leaves
the session usable.
-/
namespace Simian

inductive EngineKind where
  | vm | eval
  deriving Repr, DecidableEq, Inhabited

namespace EngineKind

def name : EngineKind → String
  | vm => "vm"
  | eval => "eval"

def ofName? : String → Option EngineKind
  | "vm" => some vm
  | "eval" => some eval
  | _ => none

end EngineKind

/-- What a session runs on, and its limits. -/
structure SessionLimits where
  engine : EngineKind
  /-- Nested expressions, for parser, compiler and evaluator. -/
  maxDepth : Nat
  stackSize : Nat
  /-- Calls in progress, the unit included on the machine. -/
  maxFrames : Nat
  deriving Repr, DecidableEq, Inhabited

def SessionLimits.default : SessionLimits :=
  ⟨.vm, defaultMaxDepth, MachineLimits.default.stackSize, MachineLimits.default.maxFrames⟩

/-- Why a unit gives no value. -/
inductive ProgramError where
  | parse (error : ParseError)
  | compile (error : CompileError)
  | run (fault : Fault)
  | eval (error : EvalError)
  /-- The machine took all the steps it may take. -/
  | unfinished
  deriving Repr, DecidableEq, Inhabited

namespace ProgramError

/-- The line that the prompt shows. -/
def message : ProgramError → String
  | parse error => s!"parse program failed: {error.render}"
  | compile error => s!"compile program failed: {error.message}"
  | run fault => s!"vm run program failed: {fault.message}"
  | eval error => s!"evaluate program failed: {error.message}"
  | unfinished => "vm run program failed: out of steps"

end ProgramError

inductive Engine where
  | vm (compiler : Compiler) (machine : Machine)
  | eval (evaluator : Evaluator)

structure Session where
  engine : Engine
  maxDepth : Nat
  journal : Journal

namespace Session

def create (limits : SessionLimits) (journal : Journal) : Session where
  engine := match limits.engine with
    | .vm => .vm (.create limits.maxDepth)
        (.create ⟨limits.stackSize, limits.maxFrames, Globals.defaultCapacity⟩ journal)
    | .eval => .eval (.create ⟨limits.maxDepth, limits.maxFrames⟩)
  maxDepth := limits.maxDepth
  journal

def engineKind (session : Session) : EngineKind :=
  match session.engine with
  | .vm .. => .vm
  | .eval _ => .eval

/-- Whether the value of the program is shown: not after a binding, and not without a
statement. -/
def showsValue (tree : Program) : Bool :=
  match tree.statements.getLast? with
  | some (.bind ..) | none => false
  | _ => true

/-- Compiles and runs a program on the machine. -/
def runCompiled (compiler : Compiler) (machine : Machine) (journal : Journal) (tree : Program) :
    Except ProgramError Value × Engine × Journal :=
  match compiler.compile tree with
  | (.error error, compiler) => (.error (.compile error), .vm compiler machine, journal)
  | (.ok unit, compiler) =>
    let journal := journal.note .debug fun _ =>
      s!"compiled {tree.statements.length} statements into {unit.code.size} bytes, " ++
        s!"{unit.constants.size} constants"
    match { machine with journal }.run unit with
    | (.finished, machine) => (.ok machine.lastPopped, .vm compiler machine, machine.journal)
    | (.faulted fault, machine) => (.error (.run fault), .vm compiler machine, machine.journal)
    | (.unfinished, machine) => (.error .unfinished, .vm compiler machine, machine.journal)

/-- Evaluates a program. -/
def runEvaluated (evaluator : Evaluator) (journal : Journal) (tree : Program) :
    Except ProgramError Value × Engine × Journal :=
  match evaluator.run tree with
  | (.ok value, evaluator) => (.ok value, .eval evaluator, journal)
  | (.error error, evaluator) =>
    (.error (.eval error), .eval evaluator,
      journal.note .debug fun _ => s!"evaluation failed: {error.message}")

/-- Runs one unit of source. The result is the value to show, if there is one. -/
def run (session : Session) (source : String) : Except ProgramError (Option Value) × Session :=
  match session with
  | ⟨engine, maxDepth, journal⟩ =>
    match Program.parse source maxDepth journal with
    | (.error error, parser) => (.error (.parse error), ⟨engine, maxDepth, parser.journal⟩)
    | (.ok tree, parser) =>
      let (result, engine, journal) := match engine with
        | .vm compiler machine => runCompiled compiler machine parser.journal tree
        | .eval evaluator => runEvaluated evaluator parser.journal tree
      match result with
      | .error error => (.error error, ⟨engine, maxDepth, journal⟩)
      | .ok value =>
        let session : Session := ⟨engine, maxDepth, journal⟩
        let journal := journal.note .debug fun _ =>
          s!"unit finished on {session.engineKind.name} engine"
        (.ok (if showsValue tree then some value else none), { session with journal })

/-- What `puts` has written since it was last taken. -/
def takeOutput (session : Session) : String × Session :=
  match session.engine with
  | .vm compiler machine =>
    (machine.sink.written,
      { session with engine := .vm compiler { machine with sink := .empty } })
  | .eval evaluator =>
    (evaluator.sink.written, { session with engine := .eval { evaluator with sink := .empty } })

/-- The engine and the nesting limit. -/
def summary (session : Session) : String :=
  let engine := match session.engineKind with
    | .vm => "Vm"
    | .eval => "Eval"
  "Session \x7b engine: " ++ engine ++ ", parser: ParserConfig \x7b max_depth: " ++
    toString session.maxDepth ++ " \x7d, .. \x7d"

end Session

/-- The listing of a source compiled on its own. -/
def Bytecode.listingOf (source : String) (maxDepth : Nat) : Except ProgramError String :=
  match (Program.parse source maxDepth (.opened .off)).1 with
  | .error error => .error (.parse error)
  | .ok tree =>
    match ((Compiler.create maxDepth).compile tree).1 with
    | .error error => .error (.compile error)
    | .ok unit => .ok unit.listing

end Simian
