import Simian.Proofs.CompileRollback
import Simian.Proofs.RunSafety

/-!
# Constants from unit to unit

The constants of a unit go on from those of the units before it, so an operand in code of
an earlier unit names the same constant whichever later unit is being run. An integer or a
text is found under its key as soon as it is among the constants (`Pool.Indexed`), so it
is never added again. That holds in the middle of a unit too, and it survives a unit that
fails, which leaves constants and places as they were before it.
-/
namespace Simian

/-! ### What adding a constant keeps -/

/-- What holds after the first step and is kept by the next one holds after both. -/
theorem Compile.bind_keeps {α β : Type} {first : Compile α} {next : α → Compile β}
    (good : Compiler → Prop) {compiler : Compiler} (hf : good (first compiler).2)
    (hn : ∀ (value : α) (between : Compiler), good between → good (next value between).2) :
    good ((first >>= next) compiler).2 := by
  rw [Attempt.bind_apply]
  cases hr : first compiler with
  | mk result between =>
    rw [hr] at hf
    cases result with
    | error error => exact hf
    | ok value => exact hn value between hf

section
variable {holds : Array Value → Std.ExtHashMap Key Nat → Prop} {α : Type} {step : Compile α}

/-- What adding a constant keeps is kept by every step without nesting, since no other step
changes the constants or their places. -/
theorem Flat.keeps (hadd : ∀ (value : Value) (compiler : Compiler),
      holds compiler.constants compiler.places →
      holds (Compile.addConstant value compiler).2.constants
        (Compile.addConstant value compiler).2.places)
    (h : Flat step) {compiler : Compiler} (hc : holds compiler.constants compiler.places) :
    holds (step compiler).2.constants (step compiler).2.places := by
  induction h generalizing compiler with
  | pure | get | fail | setSpan => exact hc
  | bind _ _ hf hn =>
    exact Compile.bind_keeps (fun other => holds other.constants other.places) (hf hc)
      fun value _ => hn value
  | onBuilder => rwa [Compile.onBuilder_apply]
  | onSymbols => rwa [Compile.onSymbols_apply]
  | addConstant value => exact hadd value compiler hc
  | addFunction body => exact hadd (.compiled compiler.constants.size body) compiler hc
  | openFunction => rwa [Compile.openFunction_apply]
  | leaveBuilder =>
    obtain ⟨hconstants, hplaces, -, -⟩ := Compile.leaveBuilder_same compiler
    rwa [hconstants, hplaces]

theorem Built.keeps (hadd : ∀ (value : Value) (compiler : Compiler),
      holds compiler.constants compiler.places →
      holds (Compile.addConstant value compiler).2.constants
        (Compile.addConstant value compiler).2.places)
    (h : Built step) {compiler : Compiler} (hc : holds compiler.constants compiler.places) :
    holds (step compiler).2.constants (step compiler).2.places := by
  induction h generalizing compiler with
  | flat h => exact h.keeps hadd hc
  | bind _ _ hf hn =>
    exact Compile.bind_keeps (fun other => holds other.constants other.places) (hf hc)
      fun value _ => hn value
  | nested _ ih =>
    unfold Compile.nested
    split
    · exact hc
    · exact ih hc

end

/-! ### Where a shared constant is found -/

/-- A constant that can be shared is found under its key. -/
def Pool.Indexed (constants : Array Value) (places : Std.ExtHashMap Key Nat) : Prop :=
  ∀ (index : Nat) (value : Value) (key : Key), constants[index]? = some value →
    Compile.constantKey? value = some key → places[key]? = some index

namespace Compile

theorem toValue_of_constantKey? {value : Value} {key : Key} (h : constantKey? value = some key) :
    key.toValue = value := by
  cases value <;> cases h <;> rfl

/-- A new constant is found at the end, and its key was free before. -/
theorem indexed_addConstant (value : Value) (compiler : Compiler)
    (h : Pool.Indexed compiler.constants compiler.places) :
    Pool.Indexed (addConstant value compiler).2.constants
      (addConstant value compiler).2.places := by
  unfold addConstant
  split
  · exact h
  next hnew =>
    obtain ⟨constants, places, symbols, builder, enclosing, depth, span, maxDepth⟩ := compiler
    unfold pushConstant
    dsimp only at h hnew ⊢
    split
    · exact h
    intro index other key hat hkey
    dsimp only at hat ⊢
    rw [Array.getElem?_push] at hat
    by_cases hend : index = constants.size
    · rw [if_pos hend] at hat
      cases hat
      rw [hkey, Std.ExtHashMap.getElem?_insert_self, hend]
    · rw [if_neg hend] at hat
      have hold : places[key]? = some index := h index other key hat hkey
      cases hk : constantKey? value with
      | none => exact hold
      | some new =>
        have hfree : places[new]? = none := by simpa [hk] using hnew
        have hne : new ≠ key := by
          rintro rfl
          rw [hfree] at hold
          cases hold
        dsimp only
        rw [Std.ExtHashMap.getElem?_insert]
        simp [hne, hold]

/-- The place that is given for a literal has the literal. -/
theorem getElem?_of_addConstant {value : Value} {compiler after : Compiler} {index : Nat}
    (hp : PoolSound compiler.constants compiler.places)
    (h : addConstant value compiler = (.ok index, after)) :
    after.constants[index]? = some value := by
  unfold addConstant at h
  split at h
  next place hplace =>
    cases h
    obtain ⟨key, hkey, hat⟩ := Option.bind_eq_some_iff.mp hplace
    rw [hp.places key index hat, toValue_of_constantKey? hkey]
  next =>
    obtain ⟨constants, places, symbols, builder, enclosing, depth, span, maxDepth⟩ := compiler
    unfold pushConstant at h
    dsimp only at h
    split at h
    · cases h
    · cases h
      exact Array.getElem?_push_size

end Compile

/-! ### The compilers that there can be -/

/-- A compiler that has been given programs in turn, or that is at work on one of them: it has
started on it, gone some levels deeper and taken some steps of compiling. -/
inductive Compiler.Reached (maxDepth : Nat) : Compiler → Prop where
  | between (earlier : List Program) : Reached maxDepth ((create maxDepth).afterAll earlier)
  | started {compiler : Compiler} : Reached maxDepth compiler →
    Reached maxDepth { compiler with builder := .empty, enclosing := [] }
  | deeper {compiler : Compiler} (depth : Nat) (span : Span) : Reached maxDepth compiler →
    Reached maxDepth { compiler with depth, span }
  | step {compiler : Compiler} {α : Type} {step : Compile α} : Built step →
    Reached maxDepth compiler → Reached maxDepth (step compiler).2

namespace Compiler

/-- A unit leaves every shared constant where it can be found, also when it fails. -/
theorem Ready.indexed_compile {compiler : Compiler} (h : compiler.Ready) (hd : compiler.depth = 0)
    (hi : Pool.Indexed compiler.constants compiler.places) (tree : Program) :
    Pool.Indexed (compiler.compile tree).2.constants (compiler.compile tree).2.places := by
  cases hc : compiler.compile tree with
  | mk result later =>
    cases result with
    | error error =>
      have hsame := h.restored hd hc
      rwa [hsame.constants, hsame.places]
    | ok unit =>
      have hprogram : Pool.Indexed (Compile.program tree compiler).2.constants
          (Compile.program tree compiler).2.places := by
        rw [Compile.program_apply]
        exact (Compile.built_unitOf tree.statements).keeps Compile.indexed_addConstant hi
      unfold Compiler.compile at hc
      dsimp only at hc
      split at hc
      next hrun =>
        cases hc
        rwa [hrun] at hprogram
      next => cases hc

theorem indexed_afterAll {compiler : Compiler} (h : compiler.Ready) (hd : compiler.depth = 0)
    (hi : Pool.Indexed compiler.constants compiler.places) (trees : List Program) :
    Pool.Indexed (compiler.afterAll trees).constants (compiler.afterAll trees).places := by
  induction trees generalizing compiler with
  | nil => exact hi
  | cons tree rest ih =>
    exact ih (h.compile tree).1 (depth_compile hd tree) (h.indexed_compile hd hi tree)

/-- Wherever a compiler can be, shared constants are found under their keys, and only there. -/
theorem Reached.pool {maxDepth : Nat} {compiler : Compiler} (h : compiler.Reached maxDepth) :
    PoolSound compiler.constants compiler.places ∧
      Pool.Indexed compiler.constants compiler.places := by
  induction h with
  | between earlier =>
    have hready := ready_create maxDepth
    have hnone : Pool.Indexed (create maxDepth).constants (create maxDepth).places := by
      intro index value key hat
      cases hat
    exact ⟨(hready.afterAll earlier).pool, indexed_afterAll hready rfl hnone earlier⟩
  | started _ ih => exact ih
  | deeper _ _ _ ih => exact ih
  | step hbuilt _ ih =>
    exact ⟨(KeepsPool.built hbuilt _ ih.1).1, hbuilt.keeps Compile.indexed_addConstant ih.2⟩

end Compiler

/-! ### Sharing -/

/-- The constants of a later unit, seen from the code of an earlier one. -/
structure Bytecode.Keeps (earlier later : Bytecode) : Prop where
  /-- They go on from those of the earlier unit. -/
  pool : earlier.constants.toList <+: later.constants.toList
  /-- What an instruction of the earlier unit names is the same under both. -/
  denotes : ∀ code locals, earlier.HasStream code locals → ∀ offset instruction,
    code.Boundary offset → code.Holds offset instruction →
    instruction.opcode = .constant ∨ instruction.opcode = .closure →
    ∃ value, earlier.constants[instruction.operand 0]? = some value ∧
      later.constants[instruction.operand 0]? = some value

/-- Constants and their places fit together. -/
structure Compiler.Shares (compiler : Compiler) : Prop where
  /-- No integer and no text is there twice. -/
  distinct : ∀ (i j : Nat) (value : Value), value.kind = .integer ∨ value.kind = .string →
    compiler.constants[i]? = some value → compiler.constants[j]? = some value → i = j
  /-- The place of a key has the constant of that key. -/
  places : ∀ (key : Key) (index : Nat), compiler.places[key]? = some index →
    compiler.constants[index]? = some key.toValue
  /-- The place given for a literal has that literal. -/
  literal : ∀ (value : Value) (index : Nat) (after : Compiler),
    Compile.addConstant value compiler = (.ok index, after) →
    after.constants[index]? = some value

theorem Compiler.Reached.shares {maxDepth : Nat} {compiler : Compiler}
    (h : compiler.Reached maxDepth) : compiler.Shares where
  distinct := fun i j value hkind hi hj => by
    obtain ⟨key, hkey⟩ : ∃ key, Compile.constantKey? value = some key := by
      cases value <;> simp [Value.kind] at hkind <;> exact ⟨_, rfl⟩
    have hplace := h.pool.2 i value key hi hkey
    rw [h.pool.2 j value key hj hkey] at hplace
    exact (Option.some.inj hplace).symm
  places := h.pool.1.places
  literal := fun _ _ _ hadd => Compile.getElem?_of_addConstant h.pool.1 hadd

theorem Bytecode.Keeps.of_extends {earlier later : Bytecode} {pool : Array Value}
    (h : earlier.CompiledAfter pool) (hp : Pool.Extends earlier.constants later.constants) :
    earlier.Keeps later where
  pool := by
    obtain ⟨more, hmore⟩ := hp
    exact ⟨more, hmore.symm⟩
  denotes := fun code locals hstream offset instruction hb hat ho => by
    obtain ⟨captures, inFunction, htrusted, -⟩ := h.trusted hstream
    have hlegal := htrusted.legal offset instruction hb hat
    unfold Instruction.Legal at hlegal
    rcases ho with ho | ho
    · rw [ho] at hlegal
      obtain ⟨value, hvalue, -⟩ := hlegal
      exact ⟨value, hvalue, hp.getElem? hvalue⟩
    · rw [ho] at hlegal
      obtain ⟨id, body, hvalue⟩ := hlegal
      exact ⟨_, hvalue, hp.getElem? hvalue⟩

/-- The pool before a unit goes on to the constants of every unit from there on. -/
theorem Bytecode.Successive.extends {pool : Array Value} {units : List Bytecode}
    (h : Bytecode.Successive pool units) : ∀ unit ∈ units, Pool.Extends pool unit.constants := by
  induction h with
  | nil => simp
  | cons hext hunit _ ih =>
    have hfirst := hext.trans hunit.extends
    exact List.forall_mem_cons.mpr ⟨hfirst, fun unit hm => hfirst.trans (ih unit hm)⟩

theorem Bytecode.Successive.pairwise {pool : Array Value} {units : List Bytecode}
    (h : Bytecode.Successive pool units) : units.Pairwise Bytecode.Keeps := by
  induction h with
  | nil => exact .nil
  | cons _ hunit hrest ih =>
    exact .cons (fun later hm => .of_extends hunit (hrest.extends later hm)) ih

/-- Whatever programs a compiler is given, the constants of each unit stay what they were for all
later units, and wherever a compiler can be its integers and texts are shared. -/
theorem Compiler.shares_constants {maxDepth : Nat} :
    (∀ trees, ((create maxDepth).compileAll trees).Pairwise Bytecode.Keeps) ∧
      ∀ compiler, Reached maxDepth compiler → compiler.Shares :=
  ⟨fun trees => ((ready_create maxDepth).successive trees).pairwise, fun _ h => h.shares⟩

/-- `let f = fn() { "s" };`, then `7; a` that fails behind its constant, then `7; "s"`. The text
that the function of the first unit names is shared by the last one. -/
theorem Compiler.shares_constants_past_failure :
    let trees : List Program := [
      ⟨[.bind "f" (.function (some "f") [] (.mk [.expr (.string "s" .zero) .zero] .zero) .zero) .zero]⟩,
      ⟨[.expr (.integer 7 .zero) .zero, .expr (.ident "a" .zero) .zero]⟩,
      ⟨[.expr (.integer 7 .zero) .zero, .expr (.string "s" .zero) .zero]⟩]
    ∃ first second : Bytecode, (create 64).compileAll trees = [first, second] ∧
      second.code = #[0, 0, 2, 1, 0, 0, 0, 1] ∧ first.Keeps second ∧
      ((create 64).afterAll trees).Shares := by
  intro trees
  have hunits : (create 64).compileAll trees =
      [⟨#[33, 0, 1, 0, 21, 0, 0], #[.str "s", .compiled 1 ⟨some "f", #[0, 0, 0, 31], 0, 0⟩]⟩,
        ⟨#[0, 0, 2, 1, 0, 0, 0, 1],
          #[.str "s", .compiled 1 ⟨some "f", #[0, 0, 0, 31], 0, 0⟩, .int 7]⟩] := by cbv
  have hkeeps := (@shares_constants 64).1 trees
  rw [hunits] at hkeeps
  exact ⟨_, _, hunits, rfl, List.rel_of_pairwise_cons hkeeps (List.mem_singleton.mpr rfl),
    shares_constants.2 _ (.between trees)⟩

end Simian
