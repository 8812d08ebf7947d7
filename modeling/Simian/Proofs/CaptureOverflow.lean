import Mathlib.Data.List.Nodup
import Simian.Proofs.AddedNames
import Simian.Proofs.OperandWidths
import Std.Data.String.ToNat

/-!
# Functions that capture too much

The number of captured values is checked at the end of a function. A function that names
more values of the function around it than one byte can count has asked for loads that do
not fit by then, and whatever else is wrong with it is found first.
-/
namespace Simian

open Compile

/-! ### Names of the enclosing function -/

namespace SymbolTable

variable {table : SymbolTable}

/-- Binding a name makes it known and leaves all other names. -/
theorem isSome_define (table : SymbolTable) (name other : String) :
    ((table.define name).2.inner.symbols[other]?).isSome =
      (decide (name = other) || (table.inner.symbols[other]?).isSome) := by
  obtain ⟨inner, outer⟩ := table
  simp only [define, SymbolScope.define]
  generalize (if isGlobal ⟨inner, outer⟩ = true then Storage.globalSlot
    else Storage.localSlot) = storage
  cases hf : (inner.symbols[name]?).filter (·.storage == storage) with
  | some symbol =>
    obtain ⟨hs, -⟩ := Option.filter_eq_some_iff.mp hf
    by_cases he : name = other
    · subst he
      simp [hs]
    · simp [he]
  | none =>
    dsimp only
    rw [symbols_insert]
    by_cases he : name = other <;> simp [he]

theorem isSome_foldl_define (names : List String) (table : SymbolTable) (other : String) :
    ((names.foldl (fun table name => (table.define name).2) table).inner.symbols[other]?).isSome =
      (decide (other ∈ names) || (table.inner.symbols[other]?).isSome) := by
  induction names generalizing table with
  | nil => simp
  | cons name rest ih =>
    rw [List.foldl_cons, ih, isSome_define]
    by_cases he : name = other
    · simp [he]
    · have hne : ¬other = name := fun h => he h.symm
      simp [he, hne]

/-- In the body of a function its parameters and its own name are known. -/
theorem isSome_opened (table : SymbolTable) (name : String) (parameters : List String)
    (other : String) : ((table.opened (some name) parameters).inner.symbols[other]?).isSome =
      (decide (other ∈ parameters) || decide (name = other)) := by
  rw [opened, isSome_foldl_define, defineSelf, symbols_insert]
  have hempty : table.enter.inner.symbols[other]? = none := Std.ExtHashMap.getElem?_empty
  rw [hempty]
  by_cases he : name = other <;> simp [he]

variable {name : String} {next : SymbolScope} {rest : List SymbolScope} {found : Symbol}

/-- A name of the next function outward is captured. -/
theorem resolve_captured (ho : table.outer = next :: rest)
    (hi : table.inner.symbols[name]? = none) (hn : next.symbols[name]? = some found)
    (hs : found.storage.isShared = false) :
    table.resolve name =
      some ((table.inner.capture found).1, ⟨(table.inner.capture found).2, table.outer⟩) := by
  have hfrom : resolveFrom name next rest = some (found, ⟨next, rest⟩) := by
    cases rest with
    | nil => rw [resolveFrom, hn]; rfl
    | cons scope others => rw [resolveFrom, hn]
  rw [resolve, ho, resolveFrom, hi]
  dsimp only
  rw [hfrom]
  cases hst : found.storage with
  | globalSlot | builtin =>
    rw [hst] at hs
    cases hs
  | localSlot | captured | self => simp only [hst]

/-- A name that no scope knows is not found. -/
theorem resolve_eq_none (h : ∀ scope ∈ table.inner :: table.outer, scope.symbols[name]? = none) :
    table.resolve name = none := by
  obtain ⟨inner, outer⟩ := table
  show resolveFrom name inner outer = none
  induction outer generalizing inner with
  | nil =>
    rw [resolveFrom, h inner List.mem_cons_self]
    rfl
  | cons scope others ih =>
    rw [resolveFrom, h inner List.mem_cons_self]
    dsimp only
    rw [ih scope fun other hm => h other (List.mem_cons_of_mem _ hm)]

end SymbolTable

/-! ### Too many of them -/

/-- The statement that names a value and drops it. -/
def Stmt.mention (name : String) : Stmt := .expr (.ident name .zero) .zero

/-- A function that has two values besides its parameters, and in it one that names all of them and
then a name that is not defined. -/
def Program.crowded (parameters : List String) : Program where
  statements := [.bind "f" (.function (some "f") parameters (.mk
    [.bind "q" (.boolean true .zero) .zero,
      .expr (.function none [] (.mk
        ((parameters ++ ["q", "f"]).map Stmt.mention ++ [.mention "missing"]) .zero) .zero) .zero]
    .zero) .zero) .zero]

namespace Record

variable {α β : Type} {recorder : Recorder}

/-- The step fails at the name, and the instruction has been asked for by then. -/
def FailsAt (name : String) (instruction : Instruction)
    (outcome : Except CompileError α × Recorder) : Prop :=
  ∃ span after, outcome = (.error ⟨.undefinedVariable name, span⟩, after) ∧
    instruction ∈ after.asked

theorem FailsAt.bind {name : String} {instruction : Instruction} {step : Record α}
    (h : FailsAt name instruction (step recorder)) (next : α → Record β) :
    FailsAt name instruction ((step >>= next) recorder) := by
  obtain ⟨span, after, he, hm⟩ := h
  exact ⟨span, after, Attempt.bind_of_error he, hm⟩

/-- The innermost function stands in the scope `next` and has captured this many values of it, each
with the load that it was asked for by. The names in the list are still unknown in it. -/
structure Crowding (next : SymbolScope) (rest : List SymbolScope) (count : Nat)
    (unknown : List String) (recorder : Recorder) : Prop where
  outer_eq : recorder.compiler.symbols.outer = next :: rest
  captures : recorder.compiler.symbols.inner.captures.size = count
  unknown : ∀ name ∈ unknown, recorder.compiler.symbols.inner.symbols[name]? = none
  asked : ∀ index < count, ⟨.getFree, [index]⟩ ∈ recorder.asked
  depth : recorder.compiler.depth < recorder.compiler.maxDepth

/-- Naming a value of the next function outward captures it and asks for its load. -/
theorem loadName_captured {next : SymbolScope} {rest : List SymbolScope} {name : String}
    {found : Symbol} (ho : recorder.compiler.symbols.outer = next :: rest)
    (hi : recorder.compiler.symbols.inner.symbols[name]? = none)
    (hn : next.symbols[name]? = some found) (hs : found.storage.isShared = false) :
    ∃ after, Record.loadName name recorder = (.ok (), after) ∧
      after.compiler.symbols =
        ⟨(recorder.compiler.symbols.inner.capture found).2, recorder.compiler.symbols.outer⟩ ∧
      after.asked =
        ⟨.getFree, [recorder.compiler.symbols.inner.captures.size]⟩ :: recorder.asked ∧
      after.compiler.depth = recorder.compiler.depth ∧
      after.compiler.maxDepth = recorder.compiler.maxDepth :=
  ⟨_, (loadName_of_resolve (SymbolTable.resolve_captured ho hi hn hs)).trans (emit_apply _ _ _),
    rfl, rfl, rfl, rfl⟩

theorem record_mention (name : String) : (Script.stmt (.mention name)).record =
    (lift (setSpan .zero) >>= fun _ =>
      Record.nested .zero (Record.loadName name) >>= fun _ => Record.emit .pop []) := rfl

/-- Mentioning a value of the next function outward captures it. -/
theorem Crowding.mention {next : SymbolScope} {rest : List SymbolScope} {count : Nat}
    {name : String} {unknown : List String} {found : Symbol}
    (h : Crowding next rest count (name :: unknown) recorder) (hnew : name ∉ unknown)
    (hn : next.symbols[name]? = some found) (hname : found.name = name)
    (hs : found.storage.isShared = false) :
    ∃ after, (Script.stmt (.mention name)).record recorder = (.ok (), after) ∧
      Crowding next rest (count + 1) unknown after := by
  have hunknown := h.unknown name List.mem_cons_self
  obtain ⟨loaded, hload, hsymbols, hasked, hdepth, hmax⟩ := @loadName_captured
    { recorder with
      compiler := { recorder.compiler with depth := recorder.compiler.depth + 1, span := .zero } }
    next rest name found h.outer_eq hunknown hn hs
  dsimp only at hsymbols hasked hdepth hmax
  have hnested := nested_of_lt
    { recorder with compiler := { recorder.compiler with span := .zero } } .zero h.depth hload
  refine ⟨_, by rw [record_mention, Attempt.bind_of_ok (setSpan_apply ..),
    Attempt.bind_of_ok hnested, emit_apply], ?_⟩
  refine ⟨?_, ?_, fun other hm => ?_, fun index hi => ?_, ?_⟩
  · show loaded.compiler.symbols.outer = _
    rw [hsymbols]
    exact h.outer_eq
  · show loaded.compiler.symbols.inner.captures.size = _
    rw [hsymbols]
    dsimp only
    rw [SymbolScope.captures_capture, Array.size_push, h.captures]
  · show loaded.compiler.symbols.inner.symbols[other]? = none
    rw [hsymbols]
    dsimp only
    rw [SymbolScope.symbols_capture, if_neg]
    · exact h.unknown other (List.mem_cons_of_mem _ hm)
    · rintro rfl
      exact hnew (hname ▸ hm)
  · refine List.mem_cons_of_mem _ ?_
    show _ ∈ loaded.asked
    rw [hasked, h.captures]
    rcases Nat.eq_or_lt_of_le (Nat.le_of_lt_succ hi) with rfl | hi
    · exact List.mem_cons_self
    · exact List.mem_cons_of_mem _ (h.asked index hi)
  · have hlt := h.depth
    show loaded.compiler.depth - 1 < loaded.compiler.maxDepth
    omega

/-- An undefined name stops the record. -/
theorem FailsAt.mention {name : String} {instruction : Instruction}
    (h : recorder.compiler.symbols.resolve name = none)
    (hd : recorder.compiler.depth < recorder.compiler.maxDepth)
    (hm : instruction ∈ recorder.asked) :
    FailsAt name instruction ((Script.stmt (.mention name)).record recorder) := by
  have hload := @loadName_of_none
    { recorder with
      compiler := { recorder.compiler with depth := recorder.compiler.depth + 1, span := .zero } }
    name h
  have hnested := nested_of_lt
    { recorder with compiler := { recorder.compiler with span := .zero } } .zero hd hload
  rw [record_mention, Attempt.bind_of_ok (setSpan_apply ..), Attempt.bind_of_error hnested]
  exact ⟨_, _, rfl, hm⟩

/-- A function that mentions known values of the next function and then an unknown name fails at
that name, when all the loads have been asked for. By induction on the names. -/
theorem Crowding.fails {next : SymbolScope} {rest : List SymbolScope} {missing : String}
    {count index : Nat} (names : List String) (hnodup : (names ++ [missing]).Nodup)
    (hknown : ∀ name ∈ names, ∃ found, next.symbols[name]? = some found ∧ found.name = name ∧
      found.storage.isShared = false)
    (hmissing : ∀ scope ∈ next :: rest, scope.symbols[missing]? = none)
    (hi : index < count + names.length)
    (h : Crowding next rest count (names ++ [missing]) recorder) :
    FailsAt missing ⟨.getFree, [index]⟩
      ((Script.stmts (names.map Stmt.mention ++ [.mention missing])).record recorder) := by
  induction names generalizing recorder count with
  | nil =>
    refine FailsAt.bind (.mention (SymbolTable.resolve_eq_none fun scope hm => ?_) h.depth
      (h.asked index hi)) _
    rw [h.outer_eq] at hm
    rcases List.mem_cons.mp hm with rfl | hm
    · exact h.unknown missing List.mem_cons_self
    · exact hmissing scope hm
  | cons name others ih =>
    obtain ⟨hnew, hothers⟩ := List.nodup_cons.mp hnodup
    obtain ⟨found, hfound, hname, hshared⟩ := hknown name List.mem_cons_self
    obtain ⟨after, hstep, hafter⟩ := h.mention hnew hfound hname hshared
    show FailsAt missing _ (((Script.stmt (.mention name)).record >>= fun _ =>
      (Script.stmts (others.map Stmt.mention ++ [.mention missing])).record) recorder)
    rw [Attempt.bind_of_ok hstep]
    refine ih hothers (fun other hm => hknown other (List.mem_cons_of_mem _ hm)) ?_ hafter
    rw [List.length_cons] at hi
    omega

/-- The record when the body of a function literal is going to be compiled. -/
def entering (recorder : Recorder) (name : Option String) (parameters : List String) : Recorder :=
  { recorder with
    compiler := { recorder.compiler with
      depth := recorder.compiler.depth + 1
      span := .zero
      builder := .empty
      enclosing := recorder.compiler.builder :: recorder.compiler.enclosing
      symbols := recorder.compiler.symbols.opened name parameters }
    draft := []
    enclosing := recorder.draft :: recorder.enclosing }

/-- A function literal fails where its body does. -/
theorem FailsAt.function {missing : String} {instruction : Instruction} {name : Option String}
    {parameters : List String} {body : List Stmt} (hcount : parameters.length ≤ maxArguments)
    (hd : recorder.compiler.depth < recorder.compiler.maxDepth)
    (h : FailsAt missing instruction
      ((Script.stmts body).record (entering recorder name parameters))) :
    FailsAt missing instruction
      ((Script.expr (.function name parameters (.mk body .zero) .zero)).record recorder) := by
  have hexpr : (Script.expr (.function name parameters (.mk body .zero) .zero)).record =
    Record.nested .zero (if h : parameters.length ≤ maxArguments then
      (Record.openFunction name parameters >>= fun _ => (Script.stmts body).record >>= fun _ =>
        (Script.closeFunction name parameters .zero).record)
      else Record.refusable [] (failHere (.tooManyArguments parameters.length))) := rfl
  have hopen : Record.openFunction name parameters { recorder with
      compiler := { recorder.compiler with depth := recorder.compiler.depth + 1, span := .zero } } =
    (.ok (), entering recorder name parameters) := by
    unfold Record.openFunction
    rw [Attempt.bind_of_ok (lift_eq _ (openFunction_apply name parameters))]
    rfl
  obtain ⟨span, after, hbody, hm⟩ := h
  rw [hexpr, dif_pos hcount]
  exact ⟨span, _, nested_of_lt recorder .zero hd
    ((Attempt.bind_of_ok hopen).trans (Attempt.bind_of_error hbody)), hm⟩

/-- Binding a name in a function that has room for one more slot. -/
theorem bindName_local {name : String} (hs : recorder.compiler.symbols.Sound)
    (hg : recorder.compiler.symbols.isGlobal = false)
    (hslots : recorder.compiler.symbols.inner.slots < maxLocals) :
    ∃ after, Record.bindName name recorder = (.ok (), after) ∧
      after.compiler.symbols = (recorder.compiler.symbols.define name).2 ∧
      after.compiler.depth = recorder.compiler.depth ∧
      after.compiler.maxDepth = recorder.compiler.maxDepth := by
  have hdef := SymbolTable.defines_define recorder.compiler.symbols name fun _ => hs.name_eq
  have hstorage : (recorder.compiler.symbols.define name).1.storage = .localSlot := by
    rw [hdef.storage_eq, hg]
    rfl
  have hindex : (recorder.compiler.symbols.define name).1.index < maxLocals := by
    have hlt := hdef.index_lt hs
    have hle := SymbolTable.slots_define_le recorder.compiler.symbols name
    omega
  have hstore : storeSymbol (recorder.compiler.symbols.define name).1
      { recorder.compiler with symbols := (recorder.compiler.symbols.define name).2 } =
    (.ok (), { recorder.compiler with
      symbols := (recorder.compiler.symbols.define name).2
      builder := recorder.compiler.builder.emit .setLocal
        [(recorder.compiler.symbols.define name).1.index] }) := by
    simp only [storeSymbol, hstorage, if_pos hindex]
    exact Compile.emit_apply _ _
  unfold Record.bindName
  rw [Attempt.bind_of_ok (lift_eq recorder (onSymbols_apply _)),
    Attempt.bind_of_ok (refusable_of_ok hstore)]
  exact ⟨_, rfl, rfl, rfl, rfl⟩

/-- Binding a truth value in a function that has room for one more slot. -/
theorem bind_true {name : String} (hs : recorder.compiler.symbols.Sound)
    (hg : recorder.compiler.symbols.isGlobal = false)
    (hslots : recorder.compiler.symbols.inner.slots < maxLocals)
    (hd : recorder.compiler.depth < recorder.compiler.maxDepth) :
    ∃ after, (Script.stmt (.bind name (.boolean true .zero) .zero)).record recorder =
        (.ok (), after) ∧
      after.compiler.symbols = (recorder.compiler.symbols.define name).2 ∧
      after.compiler.depth = recorder.compiler.depth ∧
      after.compiler.maxDepth = recorder.compiler.maxDepth := by
  have hstep : (Script.stmt (.bind name (.boolean true .zero) .zero)).record =
    (lift (setSpan .zero) >>= fun _ => Record.nested .zero (Record.emit .pushTrue []) >>= fun _ =>
      lift (setSpan .zero) >>= fun _ => Record.bindName name) := rfl
  have hvalue := nested_of_lt
    { recorder with compiler := { recorder.compiler with span := .zero } } .zero hd
    (emit_apply .pushTrue [] _)
  rw [hstep, Attempt.bind_of_ok (setSpan_apply .zero recorder), Attempt.bind_of_ok hvalue,
    Attempt.bind_of_ok (setSpan_apply ..)]
  exact bindName_local hs hg hslots

end Record

open Record

variable {parameters : List String} {maxDepth : Nat}

/-- The built-in functions have other names. -/
theorem Compiler.missing_create (maxDepth : Nat) :
    ((create maxDepth).symbols.inner.symbols["missing"]?) = none ∧
      (create maxDepth).symbols.outer = [] := by
  constructor
  · simp [create, Builtin.all, SymbolTable.defineBuiltin, SymbolTable.symbols_insert, Builtin.name,
      SymbolTable.empty, SymbolScope.empty]
  · rfl

/-- The table of names in the body of the outer function, behind its first statement. -/
def SymbolTable.crowded (table : SymbolTable) (parameters : List String) : SymbolTable :=
  ((table.opened (some "f") parameters).define "q").2

namespace SymbolTable

variable {table : SymbolTable}

theorem isSome_crowded (table : SymbolTable) (parameters : List String) (other : String) :
    ((table.crowded parameters).inner.symbols[other]?).isSome =
      decide (other ∈ parameters ++ ["q", "f"]) := by
  rw [crowded, isSome_define, isSome_opened]
  by_cases hq : "q" = other
  · simp [← hq]
  · by_cases hf : "f" = other
    · simp [← hf]
    · have hq' : ¬other = "q" := fun h => hq h.symm
      have hf' : ¬other = "f" := fun h => hf h.symm
      simp [hq, hf, hq', hf']

theorem isGlobal_opened (table : SymbolTable) (name : Option String) (parameters : List String) :
    (table.opened name parameters).isGlobal = false := by
  unfold isGlobal
  rw [outer_opened]
  rfl

theorem sound_crowded (h : table.Sound) (parameters : List String) :
    (table.crowded parameters).Sound ∧
      (table.crowded parameters).outer = table.inner :: table.outer := by
  have hopened := sound_opened h (some "f") parameters
  have hglobal := isGlobal_opened table (some "f") parameters
  have hdef := defines_define (table.opened (some "f") parameters) "q" fun _ => hopened.name_eq
  refine ⟨hdef.sound hopened fun hst => ?_, hdef.outer_eq.trans (outer_opened ..)⟩
  rw [hdef.storage_eq, hglobal] at hst
  cases hst

/-- Inside a function every name that is known is its own. -/
theorem Sound.unshared {next : SymbolScope} {rest : List SymbolScope} (h : table.Sound)
    (ho : table.outer = next :: rest) {name : String} {symbol : Symbol}
    (hs : table.inner.symbols[name]? = some symbol) : symbol.storage.isShared = false := by
  obtain ⟨inner, outer⟩ := table
  obtain rfl : outer = next :: rest := ho
  rcases h.1.storage name symbol hs with ⟨hst, -⟩ | ⟨hst, -⟩ | hst <;> rw [hst] <;> rfl

end SymbolTable

/-- The inner function fails at the undefined name, when it has asked for all loads. -/
theorem Record.failsAt_captures {recorder : Recorder} {table : SymbolTable} {index : Nat}
    (htable : table.Sound) (hmissing : ∀ scope ∈ table.inner :: table.outer,
      scope.symbols["missing"]? = none)
    (hnodup : (parameters ++ ["q", "f", "missing"]).Nodup)
    (hsymbols : recorder.compiler.symbols = table.crowded parameters)
    (hd : recorder.compiler.depth + 1 < recorder.compiler.maxDepth)
    (hi : index < parameters.length + 2) :
    FailsAt "missing" ⟨.getFree, [index]⟩ ((Script.expr (.function none [] (.mk
      ((parameters ++ ["q", "f"]).map Stmt.mention ++ [.mention "missing"]) .zero)
      .zero)).record recorder) := by
  obtain ⟨hsound, houter⟩ := SymbolTable.sound_crowded htable parameters
  have hnames : ((parameters ++ ["q", "f"]) ++ ["missing"]).Nodup := by
    rwa [List.append_assoc]
  have hcrowding : Crowding (table.crowded parameters).inner (table.crowded parameters).outer 0
      (parameters ++ ["q", "f"] ++ ["missing"]) (entering recorder none []) := by
    refine ⟨?_, rfl, fun _ _ => Std.ExtHashMap.getElem?_empty,
      fun _ hlt => absurd hlt (Nat.not_lt_zero _), hd⟩
    show recorder.compiler.symbols.inner :: recorder.compiler.symbols.outer = _
    rw [hsymbols]
  refine FailsAt.function (Nat.zero_le _) (Nat.lt_of_succ_lt hd)
    (hcrowding.fails _ hnames (fun name hm => ?_) (fun scope hm => ?_) (by simpa using hi))
  · have hsome := SymbolTable.isSome_crowded table parameters name
    rw [decide_eq_true hm] at hsome
    obtain ⟨found, hfound⟩ := Option.isSome_iff_exists.mp hsome
    exact ⟨found, hfound, hsound.name_eq hfound, hsound.unshared houter hfound⟩
  · rcases List.mem_cons.mp hm with rfl | hm
    · have hsome := SymbolTable.isSome_crowded table parameters "missing"
      rw [decide_eq_false fun hm => (List.nodup_append.mp hnames).2.2 _ hm _ List.mem_cons_self rfl]
        at hsome
      exact Option.not_isSome_iff_eq_none.mp (ne_true_of_eq_false hsome)
    · rw [houter] at hm
      exact hmissing scope hm

/-- However many values it is, the function asks for the load of each of them before the unit fails
at the undefined name. -/
theorem Compiler.failsAt_crowded (hnodup : (parameters ++ ["q", "f", "missing"]).Nodup)
    (hcount : parameters.length ≤ maxArguments) (hd : 3 ≤ maxDepth) {index : Nat}
    (hi : index < parameters.length + 2) :
    FailsAt "missing" ⟨.getFree, [index]⟩
      (Record.program (.crowded parameters) (.start (create maxDepth))) := by
  have hsound := (ready_create maxDepth).symbols
  obtain ⟨hmissing, houter⟩ := missing_create maxDepth
  have hopen : lift (Attempt.modify fun compiler =>
      { compiler with builder := .empty, enclosing := [] }) (.start (create maxDepth)) =
    (.ok (), .start { create maxDepth with builder := .empty, enclosing := [] }) := rfl
  -- the first statement of the outer function, and the second one behind it
  obtain ⟨bound, hbind, hsymbols, hdepth, hmax⟩ := @bind_true
    (entering (.start { create maxDepth with builder := .empty, enclosing := [], span := .zero })
      (some "f") parameters) "q"
    (SymbolTable.sound_opened hsound (some "f") parameters) (SymbolTable.isGlobal_opened ..)
    (Nat.lt_of_le_of_lt (SymbolTable.slots_opened_le ..) (Nat.lt_succ_of_le hcount))
    (show 0 + 1 < maxDepth by omega)
  have hinner := @failsAt_captures parameters
    { bound with compiler := { bound.compiler with span := .zero } } _ index hsound
    (fun scope hm => by
      rw [houter] at hm
      rw [List.mem_singleton.mp hm]
      exact hmissing) hnodup hsymbols
    (show bound.compiler.depth + 1 < bound.compiler.maxDepth by
      rw [hdepth, hmax]
      exact (show 0 + 1 + 1 < maxDepth by omega)) hi
  have hbody : FailsAt "missing" ⟨.getFree, [index]⟩ ((Script.stmts
      [.bind "q" (.boolean true .zero) .zero, .expr (.function none [] (.mk
        ((parameters ++ ["q", "f"]).map Stmt.mention ++ [.mention "missing"]) .zero) .zero)
        .zero]).record (entering (.start { create maxDepth with
          builder := .empty, enclosing := [], span := .zero }) (some "f") parameters)) := by
    obtain ⟨span, after, he, hm⟩ := hinner
    refine ⟨span, after, ?_, hm⟩
    refine (Attempt.bind_of_ok hbind).trans (Attempt.bind_of_error ?_)
    exact (Attempt.bind_of_ok (setSpan_apply .zero bound)).trans (Attempt.bind_of_error he)
  have hfunction := FailsAt.function hcount (show 0 < maxDepth by omega) hbody
  obtain ⟨span, after, he, hm⟩ := hfunction
  refine ⟨span, after, ?_, hm⟩
  refine (Attempt.bind_of_ok hopen).trans (Attempt.bind_of_error (Attempt.bind_of_error ?_))
  exact (Attempt.bind_of_ok (setSpan_apply ..)).trans (Attempt.bind_of_error he)

/-- As many names as a function can have parameters. -/
def manyNames : List String := (List.range 255).map fun index => "p" ++ toString index

theorem nodup_manyNames : (manyNames ++ ["q", "f", "missing"]).Nodup := by
  refine List.nodup_append.mpr ⟨List.Nodup.map (fun a b h => ?_) List.nodup_range, by decide,
    fun name hm other ho he => ?_⟩
  · have hsame : toString a = toString b := by simpa using h
    exact Nat.repr_inj.mp hsame
  · obtain ⟨index, -, rfl⟩ := List.mem_map.mp hm
    have hfirst : other.toList.head? = some 'p' := by
      rw [← he]
      simp
    simp only [List.mem_cons, List.not_mem_nil, or_false] at ho
    rcases ho with rfl | rfl | rfl <;> exact absurd hfirst (by decide)

/-- A load that does not fit has been asked for, and still no limit is what the unit fails by. -/
theorem Compiler.undefinedVariable_before_limit :
    ¬∀ instruction ∈ ((create 256).record (.crowded manyNames)).asked, ¬instruction.Fitting →
      ∃ error later, (create 256).compile (.crowded manyNames) = (.error error, later) ∧
        error.cause.isLimit = true := by
  intro h
  have hlength : manyNames.length = 255 := by rw [manyNames, List.length_map, List.length_range]
  have hcount : manyNames.length ≤ maxArguments := Nat.le_of_eq hlength
  have hindex : 256 < manyNames.length + 2 := by omega
  obtain ⟨span, after, he, hm⟩ :=
    @failsAt_crowded manyNames 256 nodup_manyNames hcount (by decide) 256 hindex
  have hrecord : (create 256).record (.crowded manyNames) = after := congrArg Prod.snd he
  obtain ⟨error, later, hc, hlimit⟩ := h ⟨.getFree, [256]⟩ (hrecord ▸ hm) (by decide)
  have hprogram := Record.Erases.program (.crowded manyNames) (.start (create 256))
  rw [he] at hprogram
  have hcompile : Compile.program (.crowded manyNames) (create 256) =
    (.error ⟨.undefinedVariable "missing", span⟩, after.compiler) := hprogram.symm
  obtain ⟨failed, hfailed⟩ := compile_of_error hcompile
  rw [hfailed] at hc
  cases hc
  cases hlimit

end Simian
