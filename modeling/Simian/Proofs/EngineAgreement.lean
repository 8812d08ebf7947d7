import Mathlib.Algebra.Module.Submodule.Lattice
import Simian.Proofs.Halting
import Simian.Proofs.ParsedTrees
import Simian.Proofs.ProgramAgreement
import Simian.Proofs.TreeEquality

-- `Mathlib.Algebra.Module.Submodule.Lattice` has the equation by which `cbv` unfolds `LE.le`.

/-!
# The same program on both engines

Fresh engines stand at the start of a program that has compiled, and what the statements
come to is how the program ends. The machine takes one way only, so a run that has ended
has ended there.
-/
namespace Simian

/-! ### Where the machine gets stuck -/

namespace Snapshot

variable {s t u : Snapshot} {apart : Prop} {goal : Snapshot → Prop}

theorem Reaches.cases_head (h : s.Reaches t) :
    s = t ∨ ∃ u, s.step = .goes u ∧ u.Reaches t := by
  induction h with
  | refl => exact .inl rfl
  | step _ hstep ih =>
    rcases ih with rfl | ⟨u, hu, hr⟩
    · exact .inr ⟨_, hstep, .refl⟩
    · exact .inr ⟨u, hu, .step hr hstep⟩

/-- Of two states on the way one comes before the other. -/
theorem Reaches.total (ht : s.Reaches t) (hu : s.Reaches u) : t.Reaches u ∨ u.Reaches t := by
  induction ht with
  | refl => exact .inl hu
  | step _ hstep ih =>
    rcases ih with hr | hr
    · rcases hr.cases_head with rfl | ⟨next, hnext, hrest⟩
      · exact .inr (.step .refl hstep)
      · cases hstep.symm.trans hnext
        exact .inl hrest
    · exact .inr (.step hr hstep)

/-- The next step goes nowhere. -/
def Stuck (s : Snapshot) : Prop := ∀ t, s.step ≠ .goes t

theorem stuck_of_ends {after : Snapshot} (h : s.step = .ends after) : s.Stuck := by
  intro t ht
  cases h.symm.trans ht

theorem stuck_of_fails {fault : Fault} {after : Snapshot} (h : s.step = .fails fault after) :
    s.Stuck := by
  intro t ht
  cases h.symm.trans ht

/-- The machine gets stuck in one state only. -/
theorem Reaches.unique (ht : s.Reaches t) (hu : s.Reaches u) (hst : t.Stuck) (hsu : u.Stuck) :
    t = u := by
  rcases ht.total hu with hr | hr
  · rcases hr.cases_head with he | ⟨next, hnext, _⟩
    · exact he
    · exact absurd hnext (hst next)
  · rcases hr.cases_head with he | ⟨next, hnext, _⟩
    · exact he.symm
    · exact absurd hnext (hsu next)

/-- Where the machine gets stuck it has what it was to meet, or it has run out of room. -/
theorem Meets.of_stuck (h : s.Meets apart goal) (ht : s.Reaches t) (hst : t.Stuck)
    (hg : ∀ u, goal u → u.Stuck) : goal t ∨ ∃ fault after, t.step = .fails fault after ∧
      (fault = .stackOverflow ∨ fault = .frameOverflow ∧ apart) := by
  rcases h with ⟨u, fault, after, hu, hstep, hfault⟩ | ⟨u, hu, hgoal⟩
  · rw [ht.unique hu hst (stuck_of_fails hstep)]
    exact .inr ⟨fault, after, hstep, hfault⟩
  · rw [ht.unique hu hst (hg u hgoal)]
    exact .inl hgoal

end Snapshot

/-! ### Fresh engines -/

theorem slots_foldl_defineBuiltin (builtins : List (Builtin × Nat)) (table : SymbolTable) :
    (builtins.foldl (fun symbols (builtin, index) =>
      (symbols.defineBuiltin index builtin.name).2) table).inner.slots = table.inner.slots := by
  induction builtins generalizing table with
  | nil => rfl
  | cons entry rest ih => exact ih _

/-- Where no program has been compiled, every name is that of a built-in function. -/
theorem builtin_of_create {maxDepth : Nat} {name : String} {symbol : Symbol}
    (h : (Compiler.create maxDepth).symbols.inner.symbols[name]? = some symbol) :
    symbol.storage = .builtin ∧
      ∃ builtin, Builtin.ofIndex? symbol.index = some builtin ∧ builtin.name = name := by
  have hready := Compiler.ready_create maxDepth
  have hslots : (Compiler.create maxDepth).symbols.inner.slots = 0 :=
    slots_foldl_defineBuiltin _ _
  have hsound := hready.symbols
  have hglobal := hready.isGlobal
  generalize (Compiler.create maxDepth).symbols = table at h hslots hsound hglobal
  obtain ⟨inner, outer⟩ := table
  cases outer with
  | cons => cases hglobal
  | nil =>
    refine (SymbolScope.Outermost.storage hsound name symbol h).resolve_left fun ⟨_, hlt, _⟩ => ?_
    rw [hslots] at hlt
    exact Nat.not_lt_zero _ hlt

/-- A machine that has run nothing. -/
abbrev Machine.fresh (stackSize maxFrames : Nat) (journal : Journal) : Machine :=
  .create ⟨stackSize, maxFrames, Globals.defaultCapacity⟩ journal

/-- Both engines at the start of a unit. -/
def Joint.fresh (unit : Bytecode) (maxDepth maxCalls stackSize maxFrames : Nat)
    (journal : Journal) : Joint where
  made := []
  evaluator := .create ⟨maxDepth, maxCalls⟩
  machine := (Machine.fresh stackSize maxFrames journal).view.loaded unit

theorem Joint.between_fresh (unit : Bytecode) (maxDepth maxCalls stackSize maxFrames : Nat)
    (journal : Journal) : unit.Between 0 ⟨maxDepth, maxCalls, maxFrames⟩ [] []
      (Compiler.create maxDepth).symbols 0 (fresh unit maxDepth maxCalls stackSize maxFrames
        journal) where
  between := by
    have hready := Compiler.ready_create maxDepth
    have houter : (Compiler.create maxDepth).symbols.outer = [] :=
      List.isEmpty_iff.mp hready.isGlobal
    refine ⟨[], ⟨rfl, rfl, rfl, rfl, rfl, rfl, Scopes.ordered_create, fun name symbol hn => ?_,
        nofun, nofun⟩,
      .unit rfl rfl houter (fun _ => rfl) rfl, hready.symbols, rfl, rfl, rfl, rfl, .refl _ _, nofun⟩
    obtain ⟨hst, builtin, hindex, hname⟩ := builtin_of_create hn
    exact .builtin hst Std.ExtHashMap.getElem?_empty hindex hname
  capacity := rfl
  slots := nofun

/-! ### How a program ends -/

/-- The code of the closure is what the body of the function has compiled to. -/
def Made.compiledTo (pool : Array Value) (maxDepth : Nat) : Making := fun tree body _ =>
  ∃ m : Made, m.tree = tree ∧ body = m.compiled ∧ m.Laid pool maxDepth

/-- The run of the machine ends with a value like that of the evaluator, if it is shown, or with
the same error. It may run out of room before, and nothing is said of a run that has not ended. -/
def SameEnd (of : Making) (shown : Bool) (result : Except EvalError Value) :
    Ending × Machine → Prop
  | (.unfinished, _) => True
  | (.finished, after) =>
    ∃ value, result = .ok value ∧ (shown = true → Alike of value after.lastPopped)
  | (.faulted fault, _) => fault = .stackOverflow ∨ fault = .frameOverflow ∨
    ∃ error, result = .error error ∧ fault.Matches error

/-- The same where more is known of a machine that has no frame left: the evaluator has no call
left either, or the engines run out of calls at different depths. -/
def EndsBeside (of : Making) (shown : Bool) (apart : Prop) (result : Except EvalError Value) :
    Ending × Machine → Prop
  | (.unfinished, _) => True
  | (.finished, after) =>
    ∃ value, result = .ok value ∧ (shown = true → Alike of value after.lastPopped)
  | (.faulted fault, _) => fault = .stackOverflow ∨ fault = .frameOverflow ∧ apart ∨
    ∃ error, result = .error error ∧
      (fault.Matches error ∨ fault = .frameOverflow ∧ error = .callStackExhausted)

theorem EndsBeside.sameEnd {of : Making} {shown : Bool} {apart : Prop}
    {result : Except EvalError Value} {ended : Ending × Machine}
    (h : EndsBeside of shown apart result ended) : SameEnd of shown result ended := by
  obtain ⟨ending, after⟩ := ended
  cases ending with
  | unfinished => trivial
  | finished => exact h
  | faulted fault =>
    rcases h with hfull | ⟨hfull, _⟩ | ⟨error, herror, hmatch | ⟨hfull, _⟩⟩
    · exact .inl hfull
    · exact .inr (.inl hfull)
    · exact .inr (.inr ⟨error, herror, hmatch⟩)
    · exact .inr (.inl hfull)

/-- The machine has come to the end of the program, as the evaluator has. -/
def Snapshot.AtEnd (of : Making) (shown : Bool) (result : Except EvalError Value) (s : Snapshot) :
    Prop :=
  (∃ value after, result = .ok value ∧ s.step = .ends after ∧
    (shown = true → Alike of value after.lastPopped)) ∨
  ∃ error, result = .error error ∧ s.Stops error

theorem Snapshot.AtEnd.stuck {of : Making} {shown : Bool} {result : Except EvalError Value}
    {s : Snapshot} (h : s.AtEnd of shown result) : s.Stuck := by
  rcases h with ⟨_, after, _, hstep, _⟩ | ⟨_, _, fault, after, hstep, _⟩
  · exact stuck_of_ends hstep
  · exact stuck_of_fails hstep

theorem Joint.Ends.atEnd {pool : Array Value} {maxDepth : Nat} {shown : Bool} {value : Value}
    {j : Joint} (h : j.Ends pool maxDepth (shown = true) value) :
    j.machine.AtEnd (Made.compiledTo pool maxDepth) shown (.ok value) := by
  obtain ⟨hlaid, after, hstep, hvalue⟩ := h
  refine .inl ⟨value, after, rfl, hstep, fun hs => (hvalue hs).mono fun tree body values hm => ?_⟩
  obtain ⟨m, hat, htree, hbody, _⟩ := hm
  exact ⟨m, htree, hbody, hlaid m (List.mem_of_getElem? hat)⟩

/-- The machine comes to the end that the evaluation of the program has come to. -/
theorem Joint.Agrees.meets_atEnd {pool : Array Value} {maxDepth : Nat} {apart : Prop}
    {shown : Bool} {tree : Program} {j : Joint}
    (h : Joint.Agrees apart (Joint.Ends pool maxDepth (shown = true)) j
      (Eval.programStmts (Eval.apply j.evaluator.limits.maxCalls) .null tree.statements
        { j.evaluator with depth := 0, calls := 0 })
      (Joint.Ends pool maxDepth (shown = true)))
    (hcalls : apart → (j.evaluator.run tree).1 ≠ .error .callStackExhausted) :
    j.machine.Meets apart (Snapshot.AtEnd (Made.compiledTo pool maxDepth) shown
      (j.evaluator.run tree).1) := by
  unfold Evaluator.run at hcalls ⊢
  dsimp only at h hcalls ⊢
  generalize Eval.programStmts _ _ _ _ = outcome at h hcalls ⊢
  obtain ⟨result, evaluator⟩ := outcome
  cases result with
  | ok value =>
    refine Snapshot.Meets.imp h ?_
    rintro s ⟨made, hends⟩
    exact hends.atEnd
  | error unwind =>
    cases unwind with
    | returned value =>
      refine Snapshot.Meets.imp h ?_
      rintro s ⟨made, hends⟩
      exact hends.atEnd
    | failed error =>
      have hstops := h.resolve_left fun he => hcalls he.2 (congrArg Except.error he.1)
      exact hstops.imp fun s hs => .inr ⟨error, rfl, hs⟩

/-- Where a run ends is where the machine gets stuck. -/
theorem EndsBeside.of_meets {of : Making} {apart : Prop} {shown : Bool}
    {result : Except EvalError Value} {machine : Machine} {unit : Bytecode}
    (h : (machine.view.loaded unit).Meets apart (Snapshot.AtEnd of shown result))
    (hlimit : machine.view.callLimit = 0 → apart) (steps : Nat) :
    EndsBeside of shown apart result (machine.runWithin steps unit) := by
  have hrun := machine.runWithin_view steps unit
  generalize machine.runWithin steps unit = ended at hrun
  obtain ⟨ending, after⟩ := ended
  cases ending with
  | unfinished => trivial
  | finished =>
    obtain ⟨s, hs, hstep⟩ := hrun
    rcases h.of_stuck hs (Snapshot.stuck_of_ends hstep) fun _ => Snapshot.AtEnd.stuck with
      (⟨value, last, hvalue, hlast, hlike⟩ | ⟨_, _, _, _, hfails, _⟩) | ⟨_, _, hfails, _⟩
    · cases hstep.symm.trans hlast
      exact ⟨value, hvalue, hlike⟩
    · cases hstep.symm.trans hfails
    · cases hstep.symm.trans hfails
  | faulted fault =>
    rcases hrun with ⟨hfault, _, hnone⟩ | ⟨s, hs, hstep⟩
    · exact .inr (.inl ⟨hfault, hlimit hnone⟩)
    rcases h.of_stuck hs (Snapshot.stuck_of_fails hstep) fun _ => Snapshot.AtEnd.stuck with
      (⟨_, _, _, hends, _⟩ | ⟨error, herror, _, _, hfails, hmatch⟩) | ⟨_, _, hfails, hroom⟩
    · cases hstep.symm.trans hends
    · cases hstep.symm.trans hfails
      exact .inr (.inr ⟨error, herror, hmatch⟩)
    · cases hstep.symm.trans hfails
      exact hroom.imp_right .inl

/-- The machine ends its run of the unit, and where it does not run out of room it ends like the
evaluation of the program. -/
structure Bytecode.EndsLike (unit : Bytecode) (maxDepth : Nat) (tree : Program)
    (machine : Machine) (evaluator : Evaluator) : Prop where
  ends : ∃ steps, ∀ more, steps ≤ more → (machine.runWithin more unit).1 ≠ .unfinished
  same : ∀ steps, SameEnd (Made.compiledTo unit.constants maxDepth) (Session.showsValue tree)
    (evaluator.run tree).1 (machine.runWithin steps unit)

theorem Code.decode?_size (code : Code) : code.decode? code.size = none := by
  cases h : code.decode? code.size with
  | none => rfl
  | some result => exact absurd (lt_size_of_decode? h) (Nat.lt_irrefl _)

namespace Compiler

/-- Every run on a fresh machine of a program that has compiled ends. -/
theorem ends_of_compile {maxDepth : Nat} {tree : Program} {unit : Bytecode}
    (hcompile : ((create maxDepth).compile tree).1 = .ok unit) (stackSize maxFrames : Nat)
    (journal : Journal) : ∃ steps, ∀ more, steps ≤ more →
      ((Machine.fresh stackSize maxFrames journal).runWithin more unit).1 ≠ .unfinished := by
  have hafter : unit.CompiledAfter (create maxDepth).constants :=
    ⟨_, _, tree, ready_create maxDepth, rfl, Prod.ext hcompile rfl⟩
  have hglobals : (Machine.fresh stackSize maxFrames journal).globals.Sound
      (create maxDepth).constants := Globals.sound_empty _
  obtain ⟨steps, hsteps⟩ := hafter.exists_steps hglobals
  exact ⟨steps, fun more hm => (hsteps more hm).2⟩

section
variable {source : String} {depth maxDepth maxCalls stackSize maxFrames : Nat}
  {journal notes : Journal} {tree : Program} {unit : Bytecode}

/-- A run on a fresh machine of a program that is lexically settled ends beside its evaluation. -/
theorem endsBeside_of_settled (hparse : (Program.parse source depth notes).1 = .ok tree)
    (hcompile : ((create maxDepth).compile tree).1 = .ok unit) (hsettled : tree.isSettled = true)
    (hcalls : Bounds.Apart ⟨maxDepth, maxCalls, maxFrames⟩ →
      ((Evaluator.create ⟨maxDepth, maxCalls⟩).run tree).1 ≠ .error .callStackExhausted)
    (steps : Nat) :
    EndsBeside (Made.compiledTo unit.constants maxDepth) (Session.showsValue tree)
      (Bounds.Apart ⟨maxDepth, maxCalls, maxFrames⟩)
      ((Evaluator.create ⟨maxDepth, maxCalls⟩).run tree).1
      ((Machine.fresh stackSize maxFrames journal).runWithin steps unit) := by
  have hlaid := ((ready_create maxDepth).yields (Prod.ext hcompile rfl)).laid
  have hlast : tree.statements = [] → Session.showsValue tree = true →
      (Joint.fresh unit maxDepth maxCalls stackSize maxFrames journal).Alike .null
        (Joint.fresh unit maxDepth maxCalls stackSize maxFrames journal).machine.lastPopped := by
    intro he hs
    unfold Session.showsValue at hs
    rw [he] at hs
    cases hs
  have hagrees := hlaid.ofProgram (callsAgree_apply maxCalls (Nat.le_add_left _ _)) hsettled
    (Program.areDistinctStmts_of_parse hparse) (nesting_le_of_compile hcompile)
    (Code.decode?_size unit.code)
    (Joint.between_fresh unit maxDepth maxCalls stackSize maxFrames journal) hlast
    (fun _ hs => hs)
  refine EndsBeside.of_meets (Joint.Agrees.meets_atEnd hagrees hcalls) (fun hnone he => ?_) steps
  have hsame : maxFrames = maxCalls + 1 := he
  have hzero : maxFrames = 0 := hnone
  omega

/-- Every program that the parser has given and that is lexically settled comes to the same end on
fresh engines, if the evaluator has room for its calls. -/
theorem endsLike_of_settled (hparse : (Program.parse source depth notes).1 = .ok tree)
    (hcompile : ((create maxDepth).compile tree).1 = .ok unit) (hsettled : tree.isSettled = true)
    (hcalls : ((Evaluator.create ⟨maxDepth, maxCalls⟩).run tree).1 ≠ .error .callStackExhausted) :
    unit.EndsLike maxDepth tree (Machine.fresh stackSize maxFrames journal)
      (.create ⟨maxDepth, maxCalls⟩) where
  ends := ends_of_compile hcompile stackSize maxFrames journal
  same := fun steps =>
    (endsBeside_of_settled hparse hcompile hsettled (fun _ => hcalls) steps).sameEnd

end

/-- A function that makes a function: `let add = fn(a) { fn(b) { a + b } }; add(2)(3)`. -/
theorem endsLike_curried : ∃ (tree : Program) (unit : Bytecode),
    (Program.parse "let add = fn(a) \x7b fn(b) \x7b a + b \x7d \x7d; add(2)(3)" 64
      (.opened .off)).1 = .ok tree ∧
    ((create 64).compile tree).1 = .ok unit ∧ tree.isSettled = true ∧
    ((Evaluator.create ⟨64, 16⟩).run tree).1 = .ok (.int 5) ∧
    unit.EndsLike 64 tree (Machine.fresh 64 16 (.opened .off)) (.create ⟨64, 16⟩) := by
  refine ⟨⟨[.bind "add" (.function (some "add") ["a"] (.mk [.expr (.function none ["b"]
    (.mk [.expr (.binary .add (.ident "a" ⟨26, 27⟩) (.ident "b" ⟨30, 31⟩) ⟨26, 31⟩) ⟨26, 31⟩]
      ⟨24, 33⟩) ⟨18, 33⟩) ⟨18, 33⟩] ⟨16, 35⟩) ⟨10, 35⟩) ⟨0, 35⟩,
    .expr (.call (.call (.ident "add" ⟨37, 40⟩) [.integer 2 ⟨41, 42⟩] ⟨37, 43⟩)
      [.integer 3 ⟨44, 45⟩] ⟨37, 46⟩) ⟨37, 46⟩]⟩,
    ⟨#[33, 0, 1, 0, 21, 0, 0, 20, 0, 0, 0, 0, 2, 30, 1, 0, 0, 3, 30, 1, 1],
      #[.compiled 0 ⟨none, #[25, 0, 22, 0, 2, 31], 1, 1⟩,
        .compiled 1 ⟨some "add", #[22, 0, 33, 0, 0, 1, 31], 1, 1⟩, .int 2, .int 3]⟩,
    ?parsed, ?compiled, ?settled, ?evaluated,
    endsLike_of_settled ?parsed ?compiled ?settled (ne_of_eq_of_ne ?evaluated ?other)⟩
  case parsed => decide +kernel
  case other =>
    intro he
    cases he
  all_goals cbv

end Compiler

end Simian
