import Simian.Proofs.HashLaws

/-!
# Operators on both engines

An operator that works on the values of two operands takes three ways through the program: the
compiler chooses an instruction for it, the machine chooses a handler for the instruction, with a
shortcut for integers, and the evaluator applies it to what the operands come to. All of them end
in the same value or in the same error, for operands of all kinds (`BinaryOp.same_on_both`).
-/
namespace Simian

/-- The operands compile, one level deeper. -/
structure Compiler.Compiles (compiler : Compiler) (left right : Expr) (span : Span)
    (after : Compiler) : Prop where
  depth : compiler.depth < compiler.maxDepth
  operands : ∃ between,
    Compile.expr left { compiler with depth := compiler.depth + 1, span } = (.ok (), between) ∧
      Compile.expr right between = (.ok (), after)

/-- An instruction is read back where it was emitted. -/
theorem CodeBuilder.holds_emit (builder : CodeBuilder) {opcode : Opcode} {operands : List Nat}
    (hf : Instruction.Fits operands opcode.widths) :
    (builder.emit opcode operands).code.Holds builder.code.size ⟨opcode, operands⟩ := by
  refine Code.holds_of_spells (fun i byte hb => ?_) hf
  show (builder.code ++ Instruction.encode ⟨opcode, operands⟩)[builder.code.size + i]? = _
  rw [← Array.getElem?_toList, Array.toList_appendList, ← Array.length_toList,
    List.getElem?_append_right (Nat.le_add_right _ _), Nat.add_sub_cancel_left, hb]

theorem Compiler.Compiles.binary {compiler after : Compiler} {left right : Expr} {span : Span}
    (h : compiler.Compiles left right span after) (op : BinaryOp) :
    Compile.expr (.binary op left right span) compiler =
      (.ok (), { after with
        builder := after.builder.emit (Compile.opcodeOfBinary op) []
        depth := after.depth - 1 }) := by
  obtain ⟨between, hleft, hright⟩ := h.operands
  rw [Compile.expr, Compile.nested, if_neg (Nat.not_le_of_lt h.depth),
    Attempt.bind_of_ok hleft, Attempt.bind_of_ok hright, Compile.emit, Compile.onBuilder_apply]

/-- The evaluator, one level deeper, has these values for the operands. -/
structure Evaluator.Operands (evaluator : Evaluator) (call : Value → List Value → Eval Value)
    (scope : Nat) (left right : Expr) (a b : Value) (after : Evaluator) : Prop where
  depth : evaluator.depth < evaluator.limits.maxDepth
  values : ∃ between,
    Eval.expr call scope left { evaluator with depth := evaluator.depth + 1 } =
      (.ok a, between) ∧ Eval.expr call scope right between = (.ok b, after)

theorem Evaluator.Operands.binary {evaluator after : Evaluator}
    {call : Value → List Value → Eval Value} {scope : Nat} {left right : Expr} {a b : Value}
    (h : evaluator.Operands call scope left right a b after) (op : BinaryOp) (span : Span) :
    Eval.expr call scope (.binary op left right span) evaluator =
      (Eval.outcome (op.apply a b), { after with depth := after.depth - 1 }) := by
  obtain ⟨between, hleft, hright⟩ := h.values
  rw [Eval.expr, Scene.nested_apply h.depth, Attempt.bind_of_ok hleft, Attempt.bind_of_ok hright]
  cases op.apply a b <;> rfl

/-- The result of an operator takes the place of its operands. -/
theorem Snapshot.binary_of_values {s : Snapshot} {front : List Value} {left right : Value}
    (h : s.values = front ++ [left, right]) (op : BinaryOp) :
    s.binary op = (s.placed s.calls front).settle (op.apply left right) := by
  have hvalues : s.values = front ++ [left] ++ [right] := by rw [h, List.append_assoc]; rfl
  have hdropped := dropped_of_values hvalues
  have hvalues' : s.dropped.values = front ++ [left] := by rw [hdropped]; rfl
  rw [binary, top_of_values hvalues, top_of_values hvalues', dropped_of_values hvalues', hdropped]
  rfl

namespace Machine

/-- The running frame has the instruction of the operator next, and the operands are on top of the
stack, the right one above the left one. -/
structure AtOperator (machine : Machine) (op : BinaryOp) (frame : Frame) (rest : List Frame)
    (front : List Value) (left right : Value) : Prop where
  calls : machine.frames.frames = frame :: rest
  instruction : frame.body.code.Holds frame.ip ⟨Compile.opcodeOfBinary op, []⟩
  stack : machine.stack.toList = front ++ [left, right]

/-- A step of the machine puts the result of an operation on top of these values, or faults with
its error above them. Only the frame has gone on to its next instruction. -/
inductive Settles (machine : Machine) (frame : Frame) (rest : List Frame) (front : List Value) :
    Except OperationError Value → Prop
  | leaves {value : Value} {after : Machine} (stepped : Run.step machine = (.ok .running, after))
    (view : after.view =
      machine.view.placed ({ frame with ip := frame.ip + 1 } :: rest) (front ++ [value])) :
    Settles machine frame rest front (.ok value)
  | raises {error : OperationError} {after : Machine}
    (stepped : Run.step machine = (.error (.operation error), after))
    (view : after.view = machine.view.placed ({ frame with ip := frame.ip + 1 } :: rest) front) :
    Settles machine frame rest front (.error error)

variable {machine : Machine} {op : BinaryOp} {frame : Frame} {rest : List Frame}
  {front : List Value} {left right : Value}

theorem AtOperator.step_eq_settle (h : machine.AtOperator op frame rest front left right) :
    machine.view.step =
      (machine.view.placed ({ frame with ip := frame.ip + 1 } :: rest) front).settle
        (op.apply left right) := by
  have hcalls : machine.view.calls = frame :: rest := h.calls
  rw [Snapshot.step, hcalls]
  dsimp only
  rw [show frame.body.code.decode? frame.ip = some (.ok _) from h.instruction]
  dsimp only
  rw [Snapshot.execute_binary, Snapshot.size_opcodeOfBinary]
  exact Snapshot.binary_of_values h.stack op

/-- The two operands that are taken from the stack leave room for the result. -/
theorem AtOperator.settles (h : machine.AtOperator op frame rest front left right) :
    machine.Settles frame rest front (op.apply left right) := by
  have hstep := h.step_eq_settle
  cases hresult : op.apply left right with
  | ok value =>
    have hroom : front.length < machine.stack.capacity := by
      have hlength := congrArg List.length h.stack
      have hle := machine.stack.size_le_capacity
      rw [ValueStack.length_toList, List.length_append, List.length_cons,
        List.length_singleton] at hlength
      omega
    rw [hresult, Snapshot.settle, Snapshot.push, if_pos (by exact hroom)] at hstep
    obtain ⟨after, hafter, hview⟩ := running_of_goes hstep
    exact .leaves hafter hview
  | error error =>
    rw [hresult] at hstep
    obtain ⟨after, hafter, hview⟩ := error_of_fails hstep
    exact .raises hafter hview

end Machine

/-- For each operator and all operands, the instruction that the compiler puts behind the operands
makes the machine leave the value, or raise the error, that the operator gives for the operands in
this order, and the evaluator comes to the same. -/
theorem BinaryOp.same_on_both (op : BinaryOp) (left right : Value) :
    (∀ (compiler after : Compiler) (a b : Expr) (span : Span), compiler.Compiles a b span after →
      ∃ later, Compile.expr (.binary op a b span) compiler = (.ok (), later) ∧
        later.builder.code.Holds after.builder.code.size ⟨Compile.opcodeOfBinary op, []⟩) ∧
    (∀ (machine : Machine) (frame : Frame) (rest : List Frame) (front : List Value),
      machine.AtOperator op frame rest front left right →
        machine.Settles frame rest front (op.apply left right)) ∧
    ∀ (evaluator after : Evaluator) (call : Value → List Value → Eval Value) (scope : Nat)
      (a b : Expr) (span : Span), evaluator.Operands call scope a b left right after →
        Eval.expr call scope (.binary op a b span) evaluator =
          (Eval.outcome (op.apply left right), { after with depth := after.depth - 1 }) :=
  ⟨fun _ after _ _ _ h => ⟨_, h.binary op, after.builder.holds_emit
      (by rw [Compile.widths_opcodeOfBinary]; trivial)⟩,
    fun _ _ _ _ h => h.settles, fun _ _ _ _ _ _ span h => h.binary op span⟩

/-- The least integer has no remainder by minus one, on both engines. -/
theorem BinaryOp.same_on_both_overflow :
    let left : Expr := .integer Int64.minValue .zero
    let right : Expr := .integer (-1) .zero
    let code : Code := (CodeBuilder.empty.emit (Compile.opcodeOfBinary .mod) []).code
    let frame := Machine.mainFrame 0 code
    let machine : Machine :=
      { Machine.create ⟨8, 1, 1⟩ default with
        stack := .ofList [.int Int64.minValue, .int (-1)] 8
        frames := ⟨[frame], 1, 1, rfl, Nat.le_refl 1⟩ }
    let evaluator := Evaluator.create ⟨2, 1⟩
    (∃ later, Compile.expr (.binary .mod (.boolean true .zero) (.boolean false .zero) .zero)
        (Compiler.create 2) = (.ok (), later) ∧ later.builder.code.Holds 2 ⟨.mod, []⟩) ∧
    machine.Settles frame [] [] (.error (.integerOverflow "%")) ∧
    Eval.expr (Eval.apply 1) 0 (.binary .mod left right .zero) evaluator =
      (Eval.outcome (.error (.integerOverflow "%")), evaluator) := by
  intro left right code frame machine evaluator
  obtain ⟨hcompiler, hmachine, hevaluator⟩ :=
    BinaryOp.same_on_both .mod (.int Int64.minValue) (.int (-1))
  refine ⟨?_, ?_, ?_⟩
  · have hoperands : (Compiler.create 2).Compiles (.boolean true .zero) (.boolean false .zero) .zero
        (Compile.expr (.boolean false .zero) (Compile.expr (.boolean true .zero)
          { Compiler.create 2 with depth := 1 }).2).2 := ⟨by decide, _, rfl, rfl⟩
    exact hcompiler _ _ _ _ _ hoperands
  · exact hmachine machine frame [] [] ⟨rfl, rfl, rfl⟩
  · exact hevaluator evaluator { evaluator with depth := 1 } (Eval.apply 1) 0 left right .zero
      ⟨by decide, _, rfl, rfl⟩

end Simian
