import Mathlib.Data.List.Permutation
import Simian.Proofs.CompiledUnits

-- `Mathlib.Data.List.Permutation` has the equation by which `cbv` unfolds `Prod.snd`.

/-!
# Units that fail to compile

A unit that does not compile is taken back by cutting the constants to their old number,
dropping the places behind the cut and putting the old names back. That gives the old
compiler again because a step, also one that fails, only ever adds to what there is
(`Compiler.Adds`), and a step that succeeds comes back to its depth of nesting. The code
under way and the span are not put back. The next unit starts without code and sets the
span before anything can fail, so nothing depends on them (`Compiler.Interchangeable`).
-/
namespace Simian

/-! ### What a step leaves in place -/

/-- The constants that were there before are where they were, and no places are added for them. -/
structure Compiler.Adds (before after : Compiler) : Prop where
  size_le : before.constants.size ≤ after.constants.size
  places : ∀ (key : Key) (index : Nat), index < before.constants.size →
    (after.places[key]? = some index ↔ before.places[key]? = some index)
  maxDepth : after.maxDepth = before.maxDepth

theorem Compiler.Adds.refl (compiler : Compiler) : compiler.Adds compiler :=
  ⟨Nat.le_refl _, fun _ _ _ => Iff.rfl, rfl⟩

theorem Compiler.Adds.of_same {before after : Compiler}
    (hc : after.constants = before.constants) (hp : after.places = before.places)
    (hm : after.maxDepth = before.maxDepth) : before.Adds after :=
  ⟨Nat.le_of_eq (congrArg Array.size hc.symm), fun key _ _ => by rw [hp], hm⟩

theorem Compiler.Adds.trans {a b c : Compiler} (hab : a.Adds b) (hbc : b.Adds c) : a.Adds c where
  size_le := Nat.le_trans hab.size_le hbc.size_le
  places := fun key index hi =>
    (hbc.places key index (Nat.lt_of_lt_of_le hi hab.size_le)).trans (hab.places key index hi)
  maxDepth := hbc.maxDepth.trans hab.maxDepth

namespace Compile

variable {α β : Type} {step : Compile α}

theorem adds_bind {first : Compile α} {next : α → Compile β}
    (hf : ∀ compiler : Compiler, compiler.Adds (first compiler).2)
    (hn : ∀ (value : α) (compiler : Compiler), compiler.Adds (next value compiler).2)
    (compiler : Compiler) : compiler.Adds ((first >>= next) compiler).2 := by
  have hadds := hf compiler
  rw [Attempt.bind_apply]
  cases hr : first compiler with
  | mk result between =>
    rw [hr] at hadds
    cases result with
    | error error => exact hadds
    | ok value => exact hadds.trans (hn value between)

/-- A new constant has a place only if it is shared under a key that had none. -/
theorem adds_addConstant (value : Value) (compiler : Compiler) :
    compiler.Adds (addConstant value compiler).2 := by
  unfold addConstant
  split
  · exact .refl _
  next hnew =>
    obtain ⟨constants, places, symbols, builder, enclosing, depth, span, maxDepth⟩ := compiler
    unfold pushConstant
    dsimp only
    split
    · exact .refl _
    refine ⟨by rw [Array.size_push]; exact Nat.le_succ _, fun key index hi => ?_, rfl⟩
    cases hk : constantKey? value with
    | none => exact Iff.rfl
    | some new =>
      rw [hk] at hnew
      dsimp only at hi ⊢
      rw [Std.ExtHashMap.getElem?_insert]
      split
      next he =>
        obtain rfl : new = key := by simpa using he
        rw [show places[new]? = none from hnew]
        exact ⟨fun h => absurd (Option.some.inj h) (Nat.ne_of_gt hi), nofun⟩
      · exact Iff.rfl

theorem depth_addConstant (value : Value) (compiler : Compiler) :
    (addConstant value compiler).2.depth = compiler.depth := by
  unfold addConstant
  split
  · rfl
  · unfold pushConstant
    dsimp only
    split <;> rfl

theorem leaveBuilder_same (compiler : Compiler) :
    (leaveBuilder compiler).2.constants = compiler.constants ∧
      (leaveBuilder compiler).2.places = compiler.places ∧
      (leaveBuilder compiler).2.depth = compiler.depth ∧
      (leaveBuilder compiler).2.maxDepth = compiler.maxDepth := by
  obtain ⟨constants, places, symbols, builder, enclosing, depth, span, maxDepth⟩ := compiler
  unfold leaveBuilder
  cases enclosing <;> dsimp only <;> split <;> exact ⟨rfl, rfl, rfl, rfl⟩

end Compile

namespace Flat

open Compile

variable {α : Type} {step : Compile α}

theorem adds (h : Flat step) (compiler : Compiler) : compiler.Adds (step compiler).2 := by
  induction h generalizing compiler with
  | pure | get | fail => exact .refl _
  | setSpan => exact .of_same rfl rfl rfl
  | bind _ _ hf hn => exact adds_bind hf hn compiler
  | onBuilder => rw [onBuilder_apply]; exact .of_same rfl rfl rfl
  | onSymbols => rw [onSymbols_apply]; exact .of_same rfl rfl rfl
  | addConstant value => exact adds_addConstant value compiler
  | addFunction body => exact adds_addConstant (.compiled compiler.constants.size body) compiler
  | openFunction => rw [openFunction_apply]; exact .of_same rfl rfl rfl
  | leaveBuilder =>
    obtain ⟨hconstants, hplaces, _, hmax⟩ := leaveBuilder_same compiler
    exact .of_same hconstants hplaces hmax

theorem depth_eq (h : Flat step) (compiler : Compiler) :
    (step compiler).2.depth = compiler.depth := by
  induction h generalizing compiler with
  | pure | get | fail | setSpan => rfl
  | @bind _ _ first next _ _ hf hn =>
    rw [Attempt.bind_apply]
    have hfirst := hf compiler
    cases hr : first compiler with
    | mk result between =>
      rw [hr] at hfirst
      cases result with
      | error error => exact hfirst
      | ok value => exact (hn value between).trans hfirst
  | onBuilder => rw [onBuilder_apply]
  | onSymbols => rw [onSymbols_apply]
  | addConstant value => exact depth_addConstant value compiler
  | addFunction body => exact depth_addConstant (.compiled compiler.constants.size body) compiler
  | openFunction => rw [openFunction_apply]
  | leaveBuilder => exact (leaveBuilder_same compiler).2.2.1

end Flat

namespace Built

open Compile

variable {α : Type} {step : Compile α}

theorem adds (h : Built step) (compiler : Compiler) : compiler.Adds (step compiler).2 := by
  induction h generalizing compiler with
  | flat h => exact h.adds compiler
  | bind _ _ hf hn => exact adds_bind hf hn compiler
  | nested _ ih =>
    rename_i span body _
    unfold Compile.nested
    split
    · exact .refl _
    · have hbody := ih { compiler with depth := compiler.depth + 1, span }
      exact ⟨hbody.size_le, hbody.places, hbody.maxDepth⟩

/-- A nested step that fails stays at its depth less one, so only success gives the depth back. -/
theorem depth_eq (h : Built step) {compiler after : Compiler} {value : α}
    (hs : step compiler = (.ok value, after)) : after.depth = compiler.depth := by
  induction h generalizing compiler after with
  | flat h => rw [← h.depth_eq compiler, hs]
  | bind _ _ hf hn =>
    obtain ⟨_, between, hfirst, hnext⟩ := Attempt.bind_eq_ok hs
    exact (hn _ hnext).trans (hf hfirst)
  | nested _ ih =>
    rename_i span body _
    unfold Compile.nested at hs
    split at hs
    · cases hs
    cases hr : body { compiler with depth := compiler.depth + 1, span } with
    | mk result inner =>
      rw [hr] at hs
      cases hs
      dsimp only
      rw [ih hr]
      exact Nat.add_sub_cancel ..

end Built

namespace Compile

/-- Compiles the statements of a unit, without code at first, and finishes their code. -/
def unitOf (statements : List Stmt) : Compile Bytecode := do
  stmts statements
  let code ← leaveBuilder
  return ⟨code, (← Attempt.get).constants⟩

theorem program_apply (tree : Program) (compiler : Compiler) : program tree compiler =
    unitOf tree.statements { compiler with builder := .empty, enclosing := [] } := rfl

theorem built_unitOf (statements : List Stmt) : Built (unitOf statements) :=
  .bind (.stmts _) fun _ => .flat (.bind .leaveBuilder fun _ => .bind .get fun _ => .pure _)

theorem adds_program (tree : Program) (compiler : Compiler) :
    compiler.Adds (program tree compiler).2 := by
  let opened : Compiler := { compiler with builder := .empty, enclosing := [] }
  have hopened : compiler.Adds opened := .of_same rfl rfl rfl
  exact hopened.trans ((built_unitOf tree.statements).adds opened)

theorem depth_program {tree : Program} {compiler after : Compiler} {unit : Bytecode}
    (h : program tree compiler = (.ok unit, after)) : after.depth = compiler.depth := by
  rw [program_apply] at h
  generalize ho : ({ compiler with builder := .empty, enclosing := [] } : Compiler) = opened at h
  rw [(built_unitOf tree.statements).depth_eq h, ← ho]

end Compile

/-! ### What compiling depends on -/

/-- The compilers differ at most in the code under way and in the span. -/
structure Compiler.Interchangeable (a b : Compiler) : Prop where
  constants : a.constants = b.constants
  places : a.places = b.places
  symbols : a.symbols = b.symbols
  depth : a.depth = b.depth
  maxDepth : a.maxDepth = b.maxDepth

namespace Compile

/-- A statement sets the span before it does anything else. -/
theorem stmt_setSpan (statement : Stmt) (span : Span) (compiler : Compiler) :
    stmt statement { compiler with span } = stmt statement compiler := by
  cases statement <;> rw [stmt] <;> rfl

/-- Unless it is empty, a unit does not depend on the span at its start. -/
theorem unitOf_setSpan {statements : List Stmt} (hne : statements ≠ []) (span : Span)
    (compiler : Compiler) :
    unitOf statements { compiler with span } = unitOf statements compiler := by
  cases statements with
  | nil => exact absurd rfl hne
  | cons statement rest =>
    have hfirst : stmts (statement :: rest) { compiler with span } =
        stmts (statement :: rest) compiler := by
      rw [stmts, Attempt.bind_apply, Attempt.bind_apply, stmt_setSpan]
    rw [unitOf, Attempt.bind_apply, Attempt.bind_apply, hfirst]

theorem program_interchangeable (tree : Program) {a b : Compiler} (h : a.Interchangeable b) :
    (program tree a).1 = (program tree b).1 ∧
      (program tree a).2.Interchangeable (program tree b).2 := by
  obtain ⟨constants, places, symbols, builder, enclosing, depth, span, maxDepth⟩ := a
  obtain ⟨constants', places', symbols', builder', enclosing', depth', span', maxDepth'⟩ := b
  obtain ⟨rfl, rfl, rfl, rfl, rfl⟩ := h
  rw [program_apply, program_apply]
  by_cases hne : tree.statements = []
  · rw [hne]
    exact ⟨rfl, rfl, rfl, rfl, rfl, rfl⟩
  · have hsame := unitOf_setSpan hne span
      ⟨constants, places, symbols, .empty, [], depth, span', maxDepth⟩
    dsimp only at hsame ⊢
    rw [hsame]
    exact ⟨rfl, rfl, rfl, rfl, rfl, rfl⟩

end Compile

namespace Compiler

theorem Interchangeable.compile {a b : Compiler} (h : a.Interchangeable b) (tree : Program) :
    (a.compile tree).1 = (b.compile tree).1 ∧
      (a.compile tree).2.Interchangeable (b.compile tree).2 := by
  have hprogram := Compile.program_interchangeable tree h
  unfold Compiler.compile
  dsimp only
  generalize Compile.program tree a = first at hprogram
  generalize Compile.program tree b = second at hprogram
  obtain ⟨result, after⟩ := first
  obtain ⟨result', after'⟩ := second
  obtain ⟨rfl, hafter⟩ := hprogram
  cases result with
  | ok unit => exact ⟨rfl, hafter⟩
  | error error =>
    refine ⟨rfl, ?_, ?_, h.symbols, rfl, hafter.maxDepth⟩
    · dsimp only
      rw [hafter.constants, h.constants]
    · dsimp only
      rw [hafter.places, h.constants]

/-! ### Units in turn -/

/-- What becomes of programs that are given to the compiler in turn. -/
def results (compiler : Compiler) : List Program → List (Except CompileError Bytecode)
  | [] => []
  | tree :: rest => (compiler.compile tree).1 :: (compiler.compile tree).2.results rest

theorem Interchangeable.results_eq {a b : Compiler} (h : a.Interchangeable b)
    (trees : List Program) : a.results trees = b.results trees := by
  induction trees generalizing a b with
  | nil => rfl
  | cons tree rest ih =>
    obtain ⟨hresult, hlater⟩ := h.compile tree
    rw [results, results, hresult, ih hlater]

/-- Between units no expression is being compiled. -/
theorem depth_compile {compiler : Compiler} (h : compiler.depth = 0) (tree : Program) :
    (compiler.compile tree).2.depth = 0 := by
  unfold Compiler.compile
  dsimp only
  split
  next hprogram => exact (Compile.depth_program hprogram).trans h
  · rfl

theorem depth_afterAll {compiler : Compiler} (h : compiler.depth = 0) (trees : List Program) :
    (compiler.afterAll trees).depth = 0 := by
  induction trees generalizing compiler with
  | nil => exact h
  | cons tree rest ih => exact ih (depth_compile h tree)

/-- Cutting the constants to their old number gives the old ones, and so does dropping the places
behind the cut. -/
theorem Ready.restored {compiler later : Compiler} (h : compiler.Ready)
    (hd : compiler.depth = 0) {tree : Program} {error : CompileError}
    (hc : compiler.compile tree = (.error error, later)) : later.Interchangeable compiler := by
  have hadds := Compile.adds_program tree compiler
  obtain ⟨_, more, hconstants⟩ := KeepsPool.program tree compiler h.pool
  unfold Compiler.compile at hc
  dsimp only at hc
  split at hc
  case h_1 => cases hc
  next cause failed hprogram =>
  cases hc
  rw [hprogram] at hadds hconstants
  refine ⟨?_, ?_, rfl, hd.symm, hadds.maxDepth⟩
  · apply Array.toList_inj.mp
    rw [Array.toList_shrink, hconstants]
    exact List.take_left' rfl
  · refine Std.ExtHashMap.ext_getElem? fun key => Option.ext fun index => ?_
    rw [Std.ExtHashMap.getElem?_filter', Option.filter_eq_some_iff]
    refine ⟨fun ⟨hp, hlt⟩ => (hadds.places key index (by simpa using hlt)).mp hp, fun hp => ?_⟩
    have hlt := (Array.getElem?_eq_some_iff.mp (h.pool.places key index hp)).1
    exact ⟨(hadds.places key index hlt).mpr hp, by simpa using hlt⟩

/-- Nothing tells the compilers apart: their constants with the places of the shared ones, their
names and their depth are the same, and whatever programs come next, they become the same. -/
structure Untouched (before after : Compiler) : Prop where
  constants : after.constants = before.constants
  places : after.places = before.places
  symbols : after.symbols = before.symbols
  depth : after.depth = before.depth
  results : ∀ trees, after.results trees = before.results trees

/-- A unit that does not compile leaves no trace, whatever programs came before it. -/
theorem untouched_of_compile_error {maxDepth : Nat} {earlier : List Program} {tree : Program}
    {error : CompileError} {later : Compiler}
    (h : ((create maxDepth).afterAll earlier).compile tree = (.error error, later)) :
    ((create maxDepth).afterAll earlier).Untouched later := by
  have hready := (ready_create maxDepth).afterAll earlier
  have hsame := hready.restored (depth_afterAll rfl earlier) h
  exact ⟨hsame.constants, hsame.places, hsame.symbols, hsame.depth, hsame.results_eq⟩

/-- After `let a = 1;` the unit `let b = 99; fn() { "s"; fn() { a + c } }` fails inside two
functions, with a name, two constants and two builders to take back. -/
theorem untouched_after_nested_failure :
    let a : Program := ⟨[.bind "a" (.integer 1 .zero) .zero]⟩
    let failing : Program := ⟨[.bind "b" (.integer 99 .zero) .zero,
      .expr (.function none [] (.mk [.expr (.string "s" .zero) .zero, .expr (.function none []
        (.mk [.expr (.binary .add (.ident "a" .zero) (.ident "c" ⟨40, 41⟩) .zero) .zero] .zero)
        .zero) .zero] .zero) .zero) .zero]⟩
    ∃ later, ((create 64).afterAll [a]).compile failing =
        (.error ⟨.undefinedVariable "c", ⟨40, 41⟩⟩, later) ∧
      ((create 64).afterAll [a]).Untouched later := by
  intro a failing
  have hfails : (((create 64).afterAll [a]).compile failing).1 =
      .error ⟨.undefinedVariable "c", ⟨40, 41⟩⟩ := by cbv
  exact ⟨_, Prod.ext hfails rfl, untouched_of_compile_error (Prod.ext hfails rfl)⟩

end Compiler

end Simian
