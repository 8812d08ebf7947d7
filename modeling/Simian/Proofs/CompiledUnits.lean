import Simian.Proofs.CompileSteps
import Simian.Proofs.ConstructLayout

/-!
# Units one after the other

Whatever becomes of a unit, the constants that were there before it stay, and each
shared constant is found where it is (`KeepsPool`). A compiler that is ready for a unit
is ready for the next one afterwards, and a unit that compiles has code that the layout
rules describe from its first offset to its last.
-/
namespace Simian

/-! ### Constants of failed steps -/

/-- Also when the step fails, constants are only added, and sharing stays right. -/
def KeepsPool {α : Type} (step : Compile α) : Prop := ∀ compiler : Compiler,
  PoolSound compiler.constants compiler.places →
    PoolSound (step compiler).2.constants (step compiler).2.places ∧
    Pool.Extends compiler.constants (step compiler).2.constants

namespace KeepsPool

open Compile

variable {α β : Type}

/-- A step that leaves constants and places alone. -/
theorem of_same {step : Compile α}
    (hc : ∀ compiler, (step compiler).2.constants = compiler.constants)
    (hp : ∀ compiler, (step compiler).2.places = compiler.places) : KeepsPool step := by
  intro compiler h
  rw [hc, hp]
  exact ⟨h, .refl _⟩

theorem bind {first : Compile α} {next : α → Compile β} (hf : KeepsPool first)
    (hn : ∀ value, KeepsPool (next value)) : KeepsPool (first >>= next) := by
  intro compiler h
  obtain ⟨hp, hext⟩ := hf compiler h
  rw [Attempt.bind_apply]
  cases hr : first compiler with
  | mk result between =>
    rw [hr] at hp hext
    cases result with
    | error error => exact ⟨hp, hext⟩
    | ok value =>
      obtain ⟨hp', hext'⟩ := hn value between hp
      exact ⟨hp', hext.trans hext'⟩

theorem nested {span : Span} {body : Compile Unit} (h : KeepsPool body) :
    KeepsPool (nested span body) := by
  intro compiler hp
  unfold Compile.nested
  split
  · exact ⟨hp, .refl _⟩
  · exact h { compiler with depth := compiler.depth + 1, span } hp

theorem addConstant (value : Value) : KeepsPool (addConstant value) := by
  intro compiler h
  unfold Compile.addConstant
  split
  · exact ⟨h, .refl _⟩
  · obtain ⟨constants, places, symbols, builder, enclosing, depth, span, maxDepth⟩ := compiler
    unfold Compile.pushConstant
    dsimp only
    split
    · exact ⟨h, .refl _⟩
    next hroom =>
      refine ⟨h.push hroom value ?_, Pool.extends_push _ _⟩
      intro key hk
      cases value <;> cases hk <;> rfl

theorem flat {step : Compile α} (h : Flat step) : KeepsPool step := by
  induction h with
  | pure | get | fail | setSpan => exact of_same (fun _ => rfl) fun _ => rfl
  | bind _ _ hf hn => exact bind hf hn
  | onBuilder => exact of_same (fun _ => by rw [onBuilder_apply]) fun _ => by rw [onBuilder_apply]
  | onSymbols => exact of_same (fun _ => by rw [onSymbols_apply]) fun _ => by rw [onSymbols_apply]
  | addConstant value => exact addConstant value
  | addFunction body =>
    exact fun compiler => addConstant (.compiled compiler.constants.size body) compiler
  | openFunction =>
    exact of_same (fun _ => by rw [openFunction_apply]) fun _ => by rw [openFunction_apply]
  | leaveBuilder =>
    refine of_same (fun compiler => ?_) fun compiler => ?_ <;>
    · unfold Compile.leaveBuilder
      obtain ⟨constants, places, symbols, builder, enclosing, depth, span, maxDepth⟩ := compiler
      cases enclosing <;> dsimp only <;> split <;> rfl

theorem built {step : Compile α} (h : Built step) : KeepsPool step := by
  induction h with
  | flat h => exact flat h
  | bind _ _ hf hn => exact bind hf hn
  | nested _ h => exact nested h

theorem program (tree : Program) : KeepsPool (Compile.program tree) :=
  bind (of_same (fun _ => rfl) fun _ => rfl) fun _ => bind (built (.stmts tree.statements)) fun _ =>
    bind (flat .leaveBuilder) fun _ => bind (flat .get) fun _ => flat (.pure _)

end KeepsPool

/-! ### Whole units -/

/-- The code and the constants of a unit, as its instructions see them. -/
def Bytecode.site (unit : Bytecode) : Site := ⟨unit.constants, unit.code, 0, [], false⟩

namespace Compile

open Attempt

theorem leaveBuilder_finish {compiler later : Compiler} {code : Code}
    (hl : leaveBuilder compiler = (.ok code, later)) :
    compiler.builder.finish = .ok code ∧ later.constants = compiler.constants ∧
      later.places = compiler.places ∧ later.symbols = compiler.symbols := by
  obtain ⟨constants, places, symbols, builder, enclosing, depth, span, maxDepth⟩ := compiler
  unfold leaveBuilder at hl
  cases enclosing <;>
  · dsimp only at hl
    split at hl
    next hf =>
      cases hl
      exact ⟨hf, rfl, rfl, rfl⟩
    · cases hl

theorem lays_stmts {a b : Compiler} (statements : List Stmt) (h : a.Sound)
    (hc : stmts statements a = (.ok (), b)) :
    LaysAs (fun site t p t' q => StmtsAt site t p statements t' q) a b := by
  induction statements generalizing a with
  | nil =>
    cases hc
    exact ⟨h.leads, fun _ _ => rfl, Pool.verifiedFrom_size _, fun _ _ _ => .nil⟩
  | cons statement rest ih =>
    rw [stmts] at hc
    obtain ⟨_, m, hstmt, hrest⟩ := bind_eq_ok hc
    have hstmt := lays_stmt statement h hstmt
    have hrest := ih hstmt.sound hrest
    exact (hstmt.andThen hrest).imp fun _ _ ⟨hone, hall⟩ => .cons hone hall

end Compile

namespace Compiler

/-- What holds of a compiler between units. -/
structure Ready (compiler : Compiler) : Prop where
  symbols : compiler.symbols.Sound
  isGlobal : compiler.symbols.isGlobal = true
  pool : PoolSound compiler.constants compiler.places
  functions : Pool.VerifiedFrom 0 compiler.constants

/-- A unit that compiles: its constants go on from those of the units before, and its statements
stand in its code one after the other. -/
structure Yields (compiler : Compiler) (tree : Program) (unit : Bytecode) (later : Compiler) :
    Prop where
  ready : later.Ready
  constants_eq : unit.constants = later.constants
  pool : Pool.Extends compiler.constants unit.constants
  laid : StmtsAt unit.site compiler.symbols 0 tree.statements later.symbols unit.code.size

section
variable {compiler later : Compiler} {tree : Program} {unit : Bytecode}

theorem Ready.yields (h : compiler.Ready) (hc : compiler.compile tree = (.ok unit, later)) :
    compiler.Yields tree unit later := by
  unfold compile at hc
  dsimp only at hc
  split at hc
  case h_2 => cases hc
  next bytecode between hprogram =>
  cases hc
  obtain ⟨_, opened, hopen, hprogram⟩ := Attempt.bind_eq_ok hprogram
  cases hopen
  obtain ⟨_, m, hstmts, hprogram⟩ := Attempt.bind_eq_ok hprogram
  obtain ⟨code, left, hleave, hprogram⟩ := Attempt.bind_eq_ok hprogram
  obtain ⟨_, _, hget, hprogram⟩ := Attempt.bind_eq_ok hprogram
  cases hget
  cases hprogram
  have hlaid := Compile.lays_stmts tree.statements
    (a := { compiler with builder := .empty, enclosing := [] })
    ⟨CodeBuilder.sound_empty, h.symbols, h.pool⟩ hstmts
  obtain ⟨hfinish, hconstants, hplaces, hsymbols⟩ := Compile.leaveBuilder_finish hleave
  obtain ⟨hcompletes, hsize⟩ := CodeBuilder.completes_finish hlaid.sound.builder hfinish
  have hglobal : m.symbols.isGlobal = true := hlaid.leads.symbols.isGlobal_eq.trans h.isGlobal
  have hcaptures := hlaid.sound.symbols.captures_eq hglobal
  have hcovers : Site.Covers (Bytecode.site ⟨code, later.constants⟩)
      (CodeBuilder.target m.builder.labels code.size) m :=
    ⟨hcompletes, hconstants ▸ .refl _,
      fun hg => (by rw [hglobal] at hg; cases hg), Nat.zero_le _, ⟨[], by rw [hcaptures]; rfl⟩,
      Nat.zero_le _, fun hg => (by rw [hglobal] at hg; cases hg)⟩
  refine ⟨⟨?_, ?_, ?_, ?_⟩, rfl, ?_, ?_⟩
  · rw [hsymbols]; exact hlaid.sound.symbols
  · rw [hsymbols]; exact hglobal
  · rw [hconstants, hplaces]; exact hlaid.sound.pool
  · rw [hconstants]; exact .trans hlaid.leads.pool h.functions hlaid.functions
  · dsimp only
    rw [hconstants]
    exact hlaid.leads.pool
  · rw [hsymbols]
    dsimp only
    rw [hsize]
    exact hlaid.laid _ _ hcovers

/-- A compiler is ready for the next unit whatever became of this one. -/
theorem Ready.compile (h : compiler.Ready) (tree : Program) :
    (compiler.compile tree).2.Ready ∧
      Pool.Extends compiler.constants (compiler.compile tree).2.constants := by
  cases hr : compiler.compile tree with
  | mk result later =>
    cases result with
    | ok unit =>
      have hyields := h.yields hr
      exact ⟨hyields.ready, hyields.constants_eq ▸ hyields.pool⟩
    | error error =>
      unfold Compiler.compile at hr
      dsimp only at hr
      split at hr
      case h_1 => cases hr
      next cause failed hprogram =>
      cases hr
      obtain ⟨hpool, more, hconstants⟩ := KeepsPool.program tree compiler h.pool
      rw [hprogram] at hpool hconstants
      have hshrink : failed.constants.shrink compiler.constants.size = compiler.constants := by
        apply Array.toList_inj.mp
        rw [Array.toList_shrink, hconstants]
        exact List.take_left' rfl
      dsimp only
      rw [hshrink]
      refine ⟨⟨h.symbols, h.isGlobal, ?_, h.functions⟩, .refl _⟩
      refine ⟨h.pool.size_le, fun key index hp => ?_⟩
      rw [Std.ExtHashMap.getElem?_filter'] at hp
      obtain ⟨hp, hlt⟩ := Option.filter_eq_some_iff.mp hp
      have hat := hpool.places key index hp
      have hi : index < compiler.constants.toList.length := by simpa using hlt
      rw [← Array.getElem?_toList, hconstants, List.getElem?_append_left hi,
        Array.getElem?_toList] at hat
      exact hat

end

/-- Binding built-in functions by their places keeps the outermost scope well-formed. -/
theorem outermost_foldl_defineBuiltin (builtins : List (Builtin × Nat)) {table : SymbolTable}
    (h : table.inner.Outermost) (ho : table.outer = [])
    (hat : ∀ entry ∈ builtins, Builtin.ofIndex? entry.2 = some entry.1) :
    let bound := builtins.foldl
      (fun symbols (builtin, index) => (symbols.defineBuiltin index builtin.name).2) table
    bound.inner.Outermost ∧ bound.outer = [] := by
  induction builtins generalizing table with
  | nil => exact ⟨h, ho⟩
  | cons entry rest ih =>
    refine ih ?_ ho fun other hm => hat other (List.mem_cons_of_mem _ hm)
    have hof := hat entry List.mem_cons_self
    have hsym : ∀ name : String,
        (table.defineBuiltin entry.2 entry.1.name).2.inner.symbols[name]? =
          if entry.1.name = name then some ⟨entry.1.name, .builtin, entry.2⟩
          else table.inner.symbols[name]? := SymbolTable.symbols_insert table.inner _
    refine ⟨fun name symbol hs => ?_, fun name symbol hs => ?_, fun a b s t ha hb hsg htg hi => ?_,
      h.captures_eq⟩
    · rw [hsym] at hs
      split at hs
      next he => cases hs; exact he
      · exact h.name_eq name symbol hs
    · rw [hsym] at hs
      split at hs
      next he => cases hs; exact .inr ⟨rfl, entry.1, hof, he⟩
      · exact h.storage name symbol hs
    · rw [hsym] at ha hb
      split at ha
      · cases ha; cases hsg
      · split at hb
        · cases hb; cases htg
        · exact h.apart a b s t ha hb hsg htg hi

theorem ready_create (maxDepth : Nat) : (create maxDepth).Ready := by
  have hnone : ∀ name : String, SymbolTable.empty.inner.symbols[name]? = none :=
    fun name => Std.ExtHashMap.getElem?_empty
  have hempty : SymbolTable.empty.inner.Outermost :=
    ⟨fun name symbol hs => (by rw [hnone] at hs; cases hs),
      fun name symbol hs => (by rw [hnone] at hs; cases hs),
      fun a b s t hs => (by rw [hnone] at hs; cases hs), rfl⟩
  obtain ⟨hinner, houter⟩ := outermost_foldl_defineBuiltin Builtin.all.zipIdx hempty rfl (by decide)
  refine ⟨?_, ?_, ⟨Nat.zero_le _, fun key index hp => ?_⟩, Pool.verifiedFrom_size #[]⟩
  · show SymbolScope.Chained _ _
    rw [show (create maxDepth).symbols.outer = [] from houter]
    exact hinner
  · show List.isEmpty _ = true
    rw [show (create maxDepth).symbols.outer = [] from houter]
    rfl
  · rw [show (create maxDepth).places[key]? = none from Std.ExtHashMap.getElem?_empty] at hp
    cases hp

/-- The compiler when it has been given the programs in turn. -/
def afterAll (compiler : Compiler) (trees : List Program) : Compiler :=
  trees.foldl (fun compiler tree => (compiler.compile tree).2) compiler

theorem Ready.afterAll (trees : List Program) {compiler : Compiler}
    (h : compiler.Ready) : (compiler.afterAll trees).Ready := by
  induction trees generalizing compiler with
  | nil => exact h
  | cons tree rest ih => exact ih (h.compile tree).1

end Compiler

end Simian
