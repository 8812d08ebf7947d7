import Simian.Proofs.CompileScripts

/-!
# A record of what the compiler asks for

A recorder is a compiler with a draft for every function that is being compiled, the
drafts of those that are finished and a list of all instructions that were asked for.
Recording a script does the compilation that the script is of and writes down beside it
each instruction with the operands as they were given, before they become bytes.
Forgetting the record gives the compilation itself (`Script.erases_record`).
-/
namespace Simian

structure Recorder where
  compiler : Compiler
  /-- What the code of the function being compiled is to be. -/
  draft : Draft
  /-- What the code of the functions around it is to be, the nearest first. -/
  enclosing : List Draft
  /-- Finished code, and the instructions that were to be in it. -/
  finished : List (Code × List Instruction)
  /-- All instructions asked for, also those that a limit then refused. -/
  asked : List Instruction

namespace Recorder

/-- Writes down that instructions are asked for. -/
def asking (recorder : Recorder) (instructions : List Instruction) : Recorder :=
  { recorder with asked := instructions ++ recorder.asked }

/-- Writes down an instruction that is asked for and emitted. -/
def noting (recorder : Recorder) (instruction : Instruction) : Recorder :=
  { recorder with
    draft := .plain instruction :: recorder.draft
    asked := instruction :: recorder.asked }

/-- The instructions of the draft as they are when its code is finished. -/
def instructions (recorder : Recorder) : List Instruction :=
  recorder.draft.instructions (Draft.targets recorder.compiler.builder)

end Recorder

/-- A step of compiling that keeps a record. -/
abbrev Record (α : Type) : Type := Attempt CompileError Recorder α

namespace Record

open Attempt (get modify)

variable {α β : Type}

/-- A step that asks for nothing. -/
def lift (work : Compile α) : Record α := fun recorder =>
  match work recorder.compiler with
  | (result, compiler) => (result, { recorder with compiler })

/-- A step that can be refused. The instructions were asked for in vain then. -/
def refusable (instructions : List Instruction) (work : Compile α) : Record α := fun recorder =>
  match work recorder.compiler with
  | (.ok value, compiler) => (.ok value, { recorder with compiler })
  | (.error error, compiler) =>
    (.error error, ({ recorder with compiler } : Recorder).asking instructions)

def emit (opcode : Opcode) (operands : List Nat) : Record Unit := do
  lift (Compile.emit opcode operands)
  modify (·.noting ⟨opcode, operands⟩)

/-- A jump is asked for without its operand, which depends on where the label gets bound. -/
def emitJump (opcode : Opcode) (label : Label) : Record Unit := do
  lift (Compile.emitJump opcode label)
  modify fun recorder => { recorder with draft := .jump opcode label :: recorder.draft }

def constant (key : Key) (rest : Record Unit) : Record Unit := do
  let place := (← get).compiler.constants.size
  let index ← refusable [⟨.constant, [place]⟩] (Compile.addConstant key.toValue)
  emit .constant [index]
  rest

def loadSymbol (symbol : Symbol) : Record Unit :=
  emit (Compile.loadOf symbol).opcode (Compile.loadOf symbol).operands

def loadName (name : String) : Record Unit := do
  match ← lift (Compile.findName name) with
  | some symbol => loadSymbol symbol
  | none => lift (Compile.failHere (.undefinedVariable name))

def bindName (name : String) : Record Unit := do
  let symbol ← lift (Compile.onSymbols (·.define name))
  refusable [Compile.storeOf symbol] (Compile.storeSymbol symbol)
  modify (·.noting (Compile.storeOf symbol))

def removeLastPop : Record Bool := do
  let removed ← lift (Compile.onBuilder CodeBuilder.removeLastPop)
  modify fun recorder =>
    { recorder with draft := if removed then recorder.draft.tail else recorder.draft }
  return removed

def replaceLastPop : Record Bool := do
  let replaced ← lift (Compile.onBuilder CodeBuilder.replaceLastPop)
  modify fun recorder =>
    { recorder with draft := if replaced then recorder.draft.returning else recorder.draft }
  return replaced

def openFunction (name : Option String) (parameters : List String) : Record Unit := do
  lift (Compile.openFunction name parameters)
  modify fun recorder =>
    { recorder with draft := [], enclosing := recorder.draft :: recorder.enclosing }

/-- Finishes code by the step. Now the targets of its jumps are known and asked for. -/
def leave (work : Compile Code) : Record Code := do
  let recorder ← get
  modify (·.asking recorder.instructions)
  let code ← lift work
  modify fun left =>
    { left with
      draft := left.enclosing.headD []
      enclosing := left.enclosing.tail
      finished := (code, recorder.instructions) :: left.finished }
  return code

def packFunction (name : Option String) (parameters : List String) (span : Span) :
    Record Unit := do
  let scope := (← get).compiler.symbols.inner
  let code ← leave Compile.leaveScope
  lift (Compile.setSpan span)
  let place := (← get).compiler.constants.size
  let closure := ⟨.closure, [place, scope.captures.size]⟩
  if maxLocals < scope.slots then lift (Compile.failHere .tooManyLocals)
  else
    refusable [closure]
      (Compile.checkLimit scope.captures.size maxCaptures .tooManyCaptures)
    scope.captures.toList.forM loadSymbol
    let index ← refusable [closure]
      (Compile.addFunction ⟨name, code, scope.slots, parameters.length⟩)
    emit .closure [index, scope.captures.size]

/-- Records one nesting level deeper, if the limit allows. -/
def nested (span : Span) (body : Record Unit) : Record Unit := fun recorder =>
  if recorder.compiler.maxDepth ≤ recorder.compiler.depth then
    (.error ⟨.nestingTooDeep recorder.compiler.maxDepth, span⟩, recorder)
  else
    match body { recorder with
      compiler := { recorder.compiler with depth := recorder.compiler.depth + 1, span } } with
    | (result, recorder) =>
      (result, { recorder with
        compiler := { recorder.compiler with depth := recorder.compiler.depth - 1 } })

end Record

/-! ### What the steps do -/

namespace Record

variable {α : Type} {work : Compile α} {recorder : Recorder} {compiler : Compiler}

theorem lift_eq (recorder : Recorder) {result : Except CompileError α}
    (h : work recorder.compiler = (result, compiler)) :
    lift work recorder = (result, { recorder with compiler }) := by
  rw [lift, h]

theorem refusable_of_ok {instructions : List Instruction} {value : α}
    (h : work recorder.compiler = (.ok value, compiler)) :
    refusable instructions work recorder = (.ok value, { recorder with compiler }) := by
  rw [refusable, h]

theorem refusable_of_error {instructions : List Instruction} {error : CompileError}
    (h : work recorder.compiler = (.error error, compiler)) :
    refusable instructions work recorder =
      (.error error, Recorder.asking { recorder with compiler } instructions) := by
  rw [refusable, h]

theorem emit_apply (opcode : Opcode) (operands : List Nat) (recorder : Recorder) :
    emit opcode operands recorder = (.ok (), Recorder.noting { recorder with compiler :=
      { recorder.compiler with builder := recorder.compiler.builder.emit opcode operands } }
      ⟨opcode, operands⟩) := rfl

theorem setSpan_apply (span : Span) (recorder : Recorder) :
    lift (Compile.setSpan span) recorder =
      (.ok (), { recorder with compiler := { recorder.compiler with span } }) := rfl

theorem loadName_of_resolve {name : String} {symbol : Symbol} {symbols : SymbolTable}
    (h : recorder.compiler.symbols.resolve name = some (symbol, symbols)) :
    loadName name recorder =
      loadSymbol symbol { recorder with compiler := { recorder.compiler with symbols } } := by
  have hfind : Compile.findName name recorder.compiler =
      (.ok (some symbol), { recorder.compiler with symbols }) := by
    rw [Compile.findName, Compile.onSymbols_apply, h]
  unfold loadName
  rw [Attempt.bind_of_ok (lift_eq recorder hfind)]

theorem loadName_of_none {name : String} (h : recorder.compiler.symbols.resolve name = none) :
    loadName name recorder =
      (.error ⟨.undefinedVariable name, recorder.compiler.span⟩, recorder) := by
  have hfind : Compile.findName name recorder.compiler = (.ok none, recorder.compiler) := by
    rw [Compile.findName, Compile.onSymbols_apply, h]
  unfold loadName
  rw [Attempt.bind_of_ok (lift_eq recorder hfind)]
  rfl

theorem nested_of_lt (recorder : Recorder) (span : Span) {body : Record Unit} {after : Recorder}
    {result : Except CompileError Unit}
    (hd : recorder.compiler.depth < recorder.compiler.maxDepth)
    (h : body { recorder with
      compiler := { recorder.compiler with depth := recorder.compiler.depth + 1, span } } =
        (result, after)) :
    nested span body recorder = (result, { after with
      compiler := { after.compiler with depth := after.compiler.depth - 1 } }) := by
  rw [nested, if_neg (Nat.not_le_of_lt hd), h]

end Record

/-- Compiles by the script and keeps a record. -/
def Script.record : {α : Type} → {work : Compile α} → Script work → Record α
  | _, work, .quiet _ => Record.lift work
  | _, _, .bind first next => first.record >>= fun value => (next value).record
  | _, _, .nested span body => Record.nested span body.record
  | _, _, .limited count limit cause wanted _ rest =>
    if h : count ≤ limit then (rest h).record
    else Record.refusable wanted (Compile.failHere (cause count))
  | _, _, .emit opcode operands _ => Record.emit opcode operands
  | _, _, .jump opcode label _ => Record.emitJump opcode label
  | _, _, .constant key rest => Record.constant key rest.record
  | _, _, .load name => Record.loadName name
  | _, _, .bindName name => Record.bindName name
  | _, _, .dropPop => Record.removeLastPop
  | _, _, .returnPop => Record.replaceLastPop
  | _, _, .openFunction name parameters => Record.openFunction name parameters
  | _, _, .packFunction name parameters span => Record.packFunction name parameters span

/-! ### Forgetting the record -/

/-- Without its record the step is the compilation. -/
def Record.Erases {α : Type} (step : Record α) (work : Compile α) : Prop :=
  ∀ recorder : Recorder, ((step recorder).1, (step recorder).2.compiler) = work recorder.compiler

namespace Record.Erases

open Attempt (get modify)

variable {α β : Type} {step : Record α} {work : Compile α}

theorem lift (work : Compile α) : Erases (Record.lift work) work := fun _ => rfl

theorem bind {step' : α → Record β} {work' : α → Compile β} (h : Erases step work)
    (hn : ∀ value, Erases (step' value) (work' value)) :
    Erases (step >>= step') (work >>= work') := by
  intro recorder
  rw [Attempt.bind_apply, Attempt.bind_apply, ← h recorder]
  cases step recorder with
  | mk result after =>
    cases result with
    | ok value => exact hn value after
    | error error => rfl

/-- What is written down before a step does not matter. -/
theorem after (change : Recorder → Recorder) (hc : ∀ r, (change r).compiler = r.compiler)
    (h : Erases step work) : Erases (modify change >>= fun _ => step) work := by
  intro recorder
  rw [← hc recorder]
  exact h (change recorder)

/-- What is written down behind a step does not matter. -/
theorem before (change : α → Recorder → Recorder)
    (hc : ∀ value r, (change value r).compiler = r.compiler) (h : Erases step work) :
    Erases (step >>= fun value => modify (change value) >>= fun _ => pure value) work := by
  intro recorder
  rw [Attempt.bind_apply, ← h recorder]
  cases step recorder with
  | mk result after =>
    cases result with
    | ok value => exact congrArg (Except.ok value, ·) (hc value after)
    | error error => rfl

theorem refusable (instructions : List Instruction) (work : Compile α) :
    Erases (Record.refusable instructions work) work := by
  intro recorder
  unfold Record.refusable
  split <;> rename_i h <;> rw [h]
  rfl

theorem emit (opcode : Opcode) (operands : List Nat) :
    Erases (Record.emit opcode operands) (Compile.emit opcode operands) :=
  before _ (fun _ _ => rfl) (lift _)

theorem loadSymbol (symbol : Symbol) :
    Erases (Record.loadSymbol symbol) (Compile.loadSymbol symbol) := by
  rw [Compile.loadSymbol_eq]
  exact emit _ _

theorem loadAll (symbols : List Symbol) :
    Erases (symbols.forM Record.loadSymbol) (symbols.forM Compile.loadSymbol) := by
  induction symbols with
  | nil => exact fun _ => rfl
  | cons symbol rest ih => exact bind (loadSymbol symbol) fun _ => ih

theorem constant (key : Key) {rest : Record Unit} {next : Compile Unit} (h : Erases rest next) :
    Erases (Record.constant key rest) (Compile.addConstant key.toValue >>= fun index =>
      Compile.emit .constant [index] >>= fun _ => next) := fun recorder =>
  bind (refusable _ _) (fun _ => bind (emit _ _) fun _ => h) recorder

theorem loadName (name : String) : Erases (Record.loadName name) (Compile.loadName name) := by
  refine bind (lift (Compile.findName name)) fun found => ?_
  cases found with
  | some symbol => exact loadSymbol symbol
  | none => exact lift _

theorem bindName (name : String) : Erases (Record.bindName name)
    (Compile.onSymbols (·.define name) >>= Compile.storeSymbol) :=
  bind (lift _) fun _ => before _ (fun _ _ => rfl) (refusable _ _)

theorem leave (work : Compile Code) : Erases (Record.leave work) work := fun recorder =>
  after (·.asking recorder.instructions) (fun _ => rfl)
    (before (fun code left =>
      { left with
        draft := left.enclosing.headD []
        enclosing := left.enclosing.tail
        finished := (code, recorder.instructions) :: left.finished })
      (fun _ _ => rfl) (lift work)) recorder

theorem packFunction (name : Option String) (parameters : List String) (span : Span) :
    Erases (Record.packFunction name parameters span)
      (Compile.packFunction name parameters span) := by
  intro recorder
  refine bind (leave Compile.leaveScope) (fun code => ?_) recorder
  refine bind (lift _) fun _ => fun recorder => ?_
  dsimp only
  split
  · exact lift _ recorder
  · exact bind (refusable _ _) (fun _ => bind (loadAll _) fun _ =>
      bind (refusable _ _) fun _ => emit _ _) recorder

theorem nested {span : Span} {body : Record Unit} {work : Compile Unit} (h : Erases body work) :
    Erases (Record.nested span body) (Compile.nested span work) := by
  intro recorder
  unfold Record.nested Compile.nested
  split
  · rfl
  · rw [← h { recorder with
      compiler := { recorder.compiler with depth := recorder.compiler.depth + 1, span } }]

end Record.Erases

namespace Script

open Record (Erases)

/-- Recording a script is the compilation that the script is of, with a record beside it. -/
theorem erases_record {α : Type} {work : Compile α} (script : Script work) :
    Erases script.record work := by
  induction script with
  | quiet => exact .lift _
  | bind _ _ hfirst hnext => exact .bind hfirst hnext
  | nested _ _ hbody => exact .nested hbody
  | limited count limit cause wanted hcause rest hrest =>
    rw [record, Compile.checkLimit]
    by_cases h : count ≤ limit
    · rw [dif_pos h, if_neg (Nat.not_lt_of_le h)]
      exact hrest h
    · rw [dif_neg h, if_pos (Nat.lt_of_not_le h)]
      exact .refusable _ _
  | emit => exact .emit _ _
  | jump opcode label h => exact .before _ (fun _ _ => rfl) (.lift _)
  | constant key _ hrest => exact .constant key hrest
  | load name => exact .loadName name
  | bindName name => exact .bindName name
  | dropPop => exact .before _ (fun _ _ => rfl) (.lift _)
  | returnPop => exact .before _ (fun _ _ => rfl) (.lift _)
  | openFunction name parameters => exact .before _ (fun _ _ => rfl) (.lift _)
  | packFunction name parameters span => exact .packFunction name parameters span

end Script

/-! ### Whole units -/

/-- Compiles a program and keeps a record. -/
def Record.program (tree : Program) : Record Bytecode := do
  lift (Attempt.modify fun compiler => { compiler with builder := .empty, enclosing := [] })
  (Script.stmts tree.statements).record
  let code ← leave Compile.leaveBuilder
  return ⟨code, (← Attempt.get).compiler.constants⟩

theorem Record.Erases.program (tree : Program) :
    Record.Erases (Record.program tree) (Compile.program tree) :=
  bind (lift _) fun _ => bind (Script.erases_record _) fun _ => bind (leave _) fun _ => fun _ => rfl

/-- A recorder that has not written anything down. -/
def Recorder.start (compiler : Compiler) : Recorder := ⟨compiler, [], [], [], []⟩

/-- The record of a unit, up to its end or to the error that it fails with. -/
def Compiler.record (compiler : Compiler) (tree : Program) : Recorder :=
  (Record.program tree (.start compiler)).2

end Simian
