import Simian.Proofs.EngineAgreement
import Simian.Proofs.TreeEquality

/-!
# How programs fail on both engines

A fault of the machine and the error of the evaluator have the same text but for the types
of functions: what is a closure on the machine is a function on the evaluator. The frame of
the program counts against the limit of the machine as a call does. So both engines run out
of calls in the same call if the machine has one frame more than the evaluator has calls,
and with the same number for both the machine stops one call before.
-/
namespace Simian

/-! ### Texts of faults -/

/-- The types of operands that the text names. -/
def OperationError.kinds : OperationError → List Value.Kind
  | .unsupportedBinary _ left right => [left, right]
  | .unsupportedUnary _ operand => [operand]
  | .notIndexable collection key => [collection, key]
  | .unhashable key => [key]
  | .builtinArgument _ got => [got]
  | .divisionByZero | .integerOverflow _ | .builtinArity _ _ _ | .output _ => []

theorem OperationError.inTree_of_not_mem {error : OperationError} (h : .closure ∉ error.kinds) :
    error.inTree = error := by
  have hkind : ∀ kind ∈ error.kinds, kind.inTree = kind := by
    intro kind hk
    cases kind with
    | closure => exact absurd hk h
    | _ => rfl
  cases error with
  | unsupportedBinary op left right =>
    rw [inTree, hkind left List.mem_cons_self,
      hkind right (List.mem_cons_of_mem _ List.mem_cons_self)]
  | unsupportedUnary op operand => rw [inTree, hkind operand List.mem_cons_self]
  | notIndexable collection key =>
    rw [inTree, hkind collection List.mem_cons_self,
      hkind key (List.mem_cons_of_mem _ List.mem_cons_self)]
  | unhashable key => rw [inTree, hkind key List.mem_cons_self]
  | builtinArgument builtin got => rw [inTree, hkind got List.mem_cons_self]
  | _ => rfl

namespace Fault

/-- The fault with the evaluator's types. -/
def inTree : Fault → Fault
  | .operation error => .operation error.inTree
  | other => other

/-- The types of operands that the text names. -/
def kinds : Fault → List Value.Kind
  | .operation error => error.kinds
  | _ => []

theorem inTree_of_not_mem {fault : Fault} (h : .closure ∉ fault.kinds) : fault.inTree = fault := by
  cases fault with
  | operation error => exact congrArg operation (OperationError.inTree_of_not_mem h)
  | _ => rfl

/-- Errors that match are told in the same words, with the evaluator's types. -/
theorem Matches.message_eq {fault : Fault} {error : EvalError} (h : fault.Matches error) :
    error.message = fault.inTree.message := by
  cases fault <;> cases error <;> first | exact h.elim | skip
  case wrongArgumentCount want got want' got' =>
    obtain ⟨rfl, rfl⟩ := h
    rfl
  case notCallable =>
    cases h
    rfl
  case operation =>
    cases h
    rfl

end Fault

/-! ### Failing together -/

/-- A machine that has ended has stopped with a fault where the evaluator has stopped with an error,
in the same words but for the types of functions. It may have run out of values, or also of frames
where the engines run out of calls at different depths. -/
def FailsAlike (apart : Prop) (result : Except EvalError Value) : Ending → Prop
  | .unfinished => False
  | .finished => ∃ value, result = .ok value
  | .faulted fault => fault = .stackOverflow ∨ fault = .frameOverflow ∧ apart ∨
    ∃ error, result = .error error ∧ error.message = fault.inTree.message ∧
      (.closure ∉ fault.kinds → error.message = fault.message)

theorem EndsBeside.failsAlike {of : Making} {shown : Bool} {apart : Prop}
    {result : Except EvalError Value} {ended : Ending × Machine}
    (h : EndsBeside of shown apart result ended) (hended : ended.1 ≠ .unfinished) :
    FailsAlike apart result ended.1 := by
  obtain ⟨ending, after⟩ := ended
  cases ending with
  | unfinished => exact hended rfl
  | finished => exact h.imp fun value hvalue => hvalue.1
  | faulted fault =>
    refine h.imp_right (Or.imp_right ?_)
    rintro ⟨error, herror, hmatch⟩
    have hmessage : error.message = fault.inTree.message := by
      rcases hmatch with hmatch | ⟨rfl, rfl⟩
      · exact hmatch.message_eq
      · rfl
    refine ⟨error, herror, hmessage, fun hk => ?_⟩
    rw [hmessage, Fault.inTree_of_not_mem hk]

/-- A machine that has not run out of values has run out of frames where the evaluator has run out
of calls, if both do so at the same depth. -/
theorem EndsBeside.frameOverflow_iff {of : Making} {shown : Bool} {apart : Prop} (hapart : ¬apart)
    {result : Except EvalError Value} {ended : Ending × Machine}
    (h : EndsBeside of shown apart result ended) (hended : ended.1 ≠ .unfinished)
    (hroom : ended.1 ≠ .faulted .stackOverflow) :
    ended.1 = .faulted .frameOverflow ↔ result = .error .callStackExhausted := by
  obtain ⟨ending, after⟩ := ended
  cases ending with
  | unfinished => exact absurd rfl hended
  | finished =>
    obtain ⟨value, rfl, _⟩ := h
    exact ⟨nofun, nofun⟩
  | faulted fault =>
    rcases h with rfl | ⟨_, he⟩ | ⟨error, rfl, hmatch | ⟨rfl, rfl⟩⟩
    · exact absurd rfl hroom
    · exact absurd he hapart
    · refine ⟨fun he => ?_, fun he => ?_⟩
      · cases he
        exact False.elim hmatch
      · cases he
        cases fault <;> exact False.elim hmatch
    · exact ⟨fun _ => rfl, fun _ => rfl⟩

namespace Compiler

section
variable {source : String} {depth maxDepth maxCalls stackSize maxFrames : Nat}
  {journal notes : Journal} {tree : Program} {unit : Bytecode}

/-- A program that is lexically settled fails on both engines or on neither, with the same text but
for the types of functions. -/
theorem failsAlike_of_settled (hparse : (Program.parse source depth notes).1 = .ok tree)
    (hcompile : ((create maxDepth).compile tree).1 = .ok unit) (hsettled : tree.isSettled = true)
    (hcalls : Bounds.Apart ⟨maxDepth, maxCalls, maxFrames⟩ →
      ((Evaluator.create ⟨maxDepth, maxCalls⟩).run tree).1 ≠ .error .callStackExhausted) :
    ∃ steps, ∀ more, steps ≤ more →
      FailsAlike (Bounds.Apart ⟨maxDepth, maxCalls, maxFrames⟩)
        ((Evaluator.create ⟨maxDepth, maxCalls⟩).run tree).1
        ((Machine.fresh stackSize maxFrames journal).runWithin more unit).1 := by
  obtain ⟨steps, hends⟩ := ends_of_compile hcompile stackSize maxFrames journal
  exact ⟨steps, fun more hm =>
    (endsBeside_of_settled hparse hcompile hsettled hcalls more).failsAlike (hends more hm)⟩

/-- The tree of `1 + fn() { 1 }`. -/
def functionSummand : Program :=
  ⟨[.expr (.binary .add (.integer 1 ⟨0, 1⟩) (.function none []
    (.mk [.expr (.integer 1 ⟨11, 12⟩) ⟨11, 12⟩] ⟨9, 14⟩) ⟨4, 14⟩) ⟨0, 14⟩) ⟨0, 14⟩]⟩

theorem parses_functionSummand : Program.Parses "1 + fn() \x7b 1 \x7d" 64 functionSummand := by
  decide +kernel

/-- A function is no summand on either engine. -/
theorem failsAlike_of_settled_summand : ∃ (tree : Program) (unit : Bytecode),
    (Program.parse "1 + fn() \x7b 1 \x7d" 64 (.opened .off)).1 = .ok tree ∧
    ((create 64).compile tree).1 = .ok unit ∧ tree.isSettled = true ∧
    ¬Bounds.Apart ⟨64, 16, 17⟩ ∧
    ∃ steps, ∀ more, steps ≤ more →
      FailsAlike (Bounds.Apart ⟨64, 16, 17⟩) ((Evaluator.create ⟨64, 16⟩).run tree).1
        ((Machine.fresh 64 17 (.opened .off)).runWithin more unit).1 := by
  refine ⟨functionSummand,
    ⟨#[0, 0, 0, 33, 0, 1, 0, 2, 1], #[.int 1, .compiled 1 ⟨none, #[0, 0, 0, 31], 0, 0⟩]⟩,
    parses_functionSummand.1, ?compiled, ?settled, ?apart,
    failsAlike_of_settled parses_functionSummand.1 ?compiled ?settled (fun h => absurd h ?apart)⟩
  case apart => exact not_not.mpr rfl
  all_goals cbv

/-- The type of a function is what sets the texts of `1 + fn() { 1 }` apart. -/
theorem messages_apart : ∃ (fault : Fault) (error : EvalError),
    ((Session.create ⟨.vm, 64, 64, 16⟩ (.opened .off)).run "1 + fn() \x7b 1 \x7d").1 =
      .error (.run fault) ∧
    ((Session.create ⟨.eval, 64, 64, 16⟩ (.opened .off)).run "1 + fn() \x7b 1 \x7d").1 =
      .error (.eval error) ∧
    fault.message = "unsupported operand types for +: INTEGER and CLOSURE" ∧
    error.message = "unsupported operand types for +: INTEGER and FUNCTION" := by
  refine ⟨.operation (.unsupportedBinary .add .integer .closure),
    .operation (.unsupportedBinary .add .integer .function), ?vm, ?eval, rfl, rfl⟩
  all_goals
    rw [Session.create, Session.run_of_parses parses_functionSummand]
    cbv

/-- The machine that has one frame more than the evaluator has calls runs out of frames in the
programs in which the evaluator runs out of calls, unless it runs out of values before. -/
theorem frameOverflow_iff_of_settled (hparse : (Program.parse source depth notes).1 = .ok tree)
    (hcompile : ((create maxDepth).compile tree).1 = .ok unit) (hsettled : tree.isSettled = true) :
    ∃ steps, ∀ more, steps ≤ more →
      let ending := ((Machine.fresh stackSize (maxCalls + 1) journal).runWithin more unit).1
      ending ≠ .faulted .stackOverflow → (ending = .faulted .frameOverflow ↔
        ((Evaluator.create ⟨maxDepth, maxCalls⟩).run tree).1 = .error .callStackExhausted) := by
  obtain ⟨steps, hends⟩ := ends_of_compile hcompile stackSize (maxCalls + 1) journal
  have hapart : ¬Bounds.Apart ⟨maxDepth, maxCalls, maxCalls + 1⟩ := not_not.mpr rfl
  exact ⟨steps, fun more hm => (endsBeside_of_settled hparse hcompile hsettled
    (fun he => absurd he hapart) more).frameOverflow_iff hapart (hends more hm)⟩

/-- The tree of `let f = fn() { 1 }; f()`. -/
def oneCall : Program :=
  ⟨[.bind "f" (.function (some "f") []
    (.mk [.expr (.integer 1 ⟨15, 16⟩) ⟨15, 16⟩] ⟨13, 18⟩) ⟨8, 18⟩) ⟨0, 18⟩,
    .expr (.call (.ident "f" ⟨20, 21⟩) [] ⟨20, 23⟩) ⟨20, 23⟩]⟩

theorem parses_oneCall :
    Program.Parses "let f = fn() \x7b 1 \x7d; f()" 64 oneCall := by
  decide +kernel

/-- One call where there is room for none. -/
theorem frameOverflow_iff_of_settled_called : ∃ (tree : Program) (unit : Bytecode),
    (Program.parse "let f = fn() \x7b 1 \x7d; f()" 64 (.opened .off)).1 = .ok tree ∧
    ((create 64).compile tree).1 = .ok unit ∧ tree.isSettled = true ∧
    ((Evaluator.create ⟨64, 0⟩).run tree).1 = .error .callStackExhausted ∧
    ∃ steps, ∀ more, steps ≤ more →
      let ending := ((Machine.fresh 64 (0 + 1) (.opened .off)).runWithin more unit).1
      ending ≠ .faulted .stackOverflow → (ending = .faulted .frameOverflow ↔
        ((Evaluator.create ⟨64, 0⟩).run tree).1 = .error .callStackExhausted) := by
  refine ⟨oneCall,
    ⟨#[33, 0, 1, 0, 21, 0, 0, 20, 0, 0, 30, 0, 1],
      #[.int 1, .compiled 1 ⟨some "f", #[0, 0, 0, 31], 0, 0⟩]⟩,
    parses_oneCall.1, ?compiled, ?settled, ?exhausted,
    frameOverflow_iff_of_settled parses_oneCall.1 ?compiled ?settled⟩
  all_goals cbv

/-- A session allows the evaluator as many calls as the machine has frames, so one call is one too
many for the machine only. -/
theorem calls_apart :
    ((Session.create ⟨.vm, 64, 64, 1⟩ (.opened .off)).run "let f = fn() \x7b 1 \x7d; f()").1 =
      .error (.run .frameOverflow) ∧
    ((Session.create ⟨.eval, 64, 64, 1⟩ (.opened .off)).run "let f = fn() \x7b 1 \x7d; f()").1 =
      .ok (some (.int 1)) := by
  constructor
  all_goals
    rw [Session.create, Session.run_of_parses parses_oneCall]
    cbv

end

end Compiler

end Simian
