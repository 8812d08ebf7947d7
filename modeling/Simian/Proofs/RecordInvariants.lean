import Simian.Proofs.CompileRecords

/-!
# What a record keeps

`Recorder.Sound` holds from step to step, also up to an error: each builder has the code
of its draft, and each instruction that was asked for fits, or it names a slot or a
captured value of a function that is still being compiled. When such a function ends, its
numbers of slots and captured values are checked, and so everything in it fits. Only then
it is finished.
-/
namespace Simian

open Compile

/-! ### Drafts and their scopes -/

/-- Captures are only added. -/
theorem captures_size_le {captures later : Array Symbol}
    (h : ∃ more, later.toList = captures.toList ++ more) : captures.size ≤ later.size := by
  obtain ⟨more, hmore⟩ := h
  rw [← Array.length_toList, ← Array.length_toList, hmore, List.length_append]
  exact Nat.le_add_right ..

/-- The instruction fits, or it reads a slot or a captured value that the scope has. -/
def SymbolScope.Admits (scope : SymbolScope) (inFunction : Bool) (instruction : Instruction) :
    Prop :=
  instruction.Fitting ∨
    (inFunction = true ∧ ∃ index < scope.slots, instruction = ⟨.getLocal, [index]⟩) ∨
    ∃ index < scope.captures.size, instruction = ⟨.getFree, [index]⟩

theorem SymbolScope.Admits.mono {scope later : SymbolScope} {inFunction : Bool}
    {instruction : Instruction} (h : scope.Admits inFunction instruction)
    (hs : scope.slots ≤ later.slots) (hc : scope.captures.size ≤ later.captures.size) :
    later.Admits inFunction instruction := by
  rcases h with hfit | ⟨hf, index, hi, he⟩ | ⟨index, hi, he⟩
  · exact .inl hfit
  · exact .inr (.inl ⟨hf, index, Nat.lt_of_lt_of_le hi hs, he⟩)
  · exact .inr (.inr ⟨index, Nat.lt_of_lt_of_le hi hc, he⟩)

/-- What a scope within the limits admits fits. -/
theorem SymbolScope.Admits.fitting {scope : SymbolScope} {inFunction : Bool}
    {instruction : Instruction} (h : scope.Admits inFunction instruction)
    (hs : inFunction = true → scope.slots ≤ maxLocals)
    (hc : scope.captures.size ≤ maxCaptures) : instruction.Fitting := by
  have hbyte : ∀ index : Nat, index < 256 → Instruction.Fits [index] [1] :=
    fun index hi => ⟨hi, trivial⟩
  rcases h with hfit | ⟨hf, index, hi, rfl⟩ | ⟨index, hi, rfl⟩
  · exact hfit
  · exact hbyte index (Nat.lt_of_lt_of_le hi (hs hf))
  · exact hbyte index (Nat.lt_succ_of_lt (Nat.lt_of_lt_of_le hi hc))

/-- The builder has the code of the draft, and the scope admits each instruction of it. -/
structure SymbolScope.Covers (scope : SymbolScope) (inFunction : Bool) (draft : Draft)
    (builder : CodeBuilder) : Prop where
  describes : draft.Describes builder
  admits : ∀ instruction, .plain instruction ∈ draft → scope.Admits inFunction instruction

theorem SymbolScope.Covers.mono {scope later : SymbolScope} {inFunction : Bool} {draft : Draft}
    {builder : CodeBuilder} (h : scope.Covers inFunction draft builder)
    (hs : scope.slots ≤ later.slots) (hc : scope.captures.size ≤ later.captures.size) :
    later.Covers inFunction draft builder :=
  ⟨h.describes, fun instruction hm => (h.admits instruction hm).mono hs hc⟩

/-- The functions being compiled, from the innermost outward, each with its draft, its builder and
its scope. The outermost is the unit. -/
def Opened : List Draft → List CodeBuilder → List SymbolScope → Prop
  | draft :: drafts, builder :: builders, scope :: scopes =>
    scope.Covers (!scopes.isEmpty) draft builder ∧ Opened drafts builders scopes
  | [], [], [] => True
  | _, _, _ => False

theorem Opened.grows {drafts : List Draft} {builders : List CodeBuilder}
    {scopes later : List SymbolScope} (h : Opened drafts builders scopes)
    (hg : List.Forall₂ SymbolScope.Grows scopes later) : Opened drafts builders later := by
  induction hg generalizing drafts builders with
  | nil => exact h
  | @cons scope scope' rest rest' hone hrest ih =>
    cases drafts <;> cases builders <;> try exact h.elim
    have hempty : rest'.isEmpty = rest.isEmpty := by cases hrest <;> rfl
    refine ⟨?_, ih h.2⟩
    rw [hempty]
    exact h.1.mono (Nat.le_of_eq hone.slots_eq.symm) (captures_size_le hone.captures)

/-! ### Sound records -/

namespace Recorder

/-- What a record keeps while a unit is compiled that found this many constants. -/
structure Sound (count : Nat) (recorder : Recorder) : Prop where
  pool : PoolSound recorder.compiler.constants recorder.compiler.places
  symbols : recorder.compiler.symbols.Sound
  opened : Opened (recorder.draft :: recorder.enclosing)
    (recorder.compiler.builder :: recorder.compiler.enclosing)
    (recorder.compiler.symbols.inner :: recorder.compiler.symbols.outer)
  finished : ∀ stream ∈ recorder.finished, stream.1.Decodes 0 stream.2 stream.1.size ∧
    ∀ instruction ∈ stream.2, instruction ∈ recorder.asked ∧ instruction.Fitting
  functions : ∀ index id body, count ≤ index →
    recorder.compiler.constants[index]? = some (.compiled id body) →
    ∃ instructions, (body.code, instructions) ∈ recorder.finished
  asked : ∀ instruction ∈ recorder.asked, ¬instruction.Fitting →
    ∃ draft ∈ recorder.draft :: recorder.enclosing, .plain instruction ∈ draft

variable {count : Nat} {recorder : Recorder}

/-- The scope of the function being compiled covers its draft. -/
theorem Sound.covers (h : recorder.Sound count) :
    recorder.compiler.symbols.inner.Covers (!recorder.compiler.symbols.isGlobal) recorder.draft
      recorder.compiler.builder :=
  h.opened.1

/-- Only these parts of the compiler matter. -/
theorem Sound.of_compiler (compiler : Compiler) (h : recorder.Sound count)
    (hc : compiler.constants = recorder.compiler.constants)
    (hp : compiler.places = recorder.compiler.places)
    (hs : compiler.symbols = recorder.compiler.symbols)
    (hb : ∃ labels, compiler.builder = { recorder.compiler.builder with labels })
    (he : compiler.enclosing = recorder.compiler.enclosing) :
    Sound count { recorder with compiler } where
  pool := by rw [hc, hp]; exact h.pool
  symbols := by rw [hs]; exact h.symbols
  opened := by
    obtain ⟨labels, hb⟩ := hb
    rw [hs, hb, he]
    exact ⟨⟨h.covers.describes.relabel labels, h.covers.admits⟩, h.opened.2⟩
  finished := h.finished
  functions := by rw [hc]; exact h.functions
  asked := h.asked

/-- A draft and its builder are changed together. -/
theorem Sound.redraft (draft : Draft) {builder : CodeBuilder} (h : recorder.Sound count)
    (hcov : recorder.compiler.symbols.inner.Covers (!recorder.compiler.symbols.isGlobal) draft
      builder)
    (hm : ∀ instruction, .plain instruction ∈ recorder.draft → instruction.Fitting ∨
      .plain instruction ∈ draft) :
    Sound count { recorder with compiler := { recorder.compiler with builder }, draft } where
  pool := h.pool
  symbols := h.symbols
  opened := ⟨hcov, h.opened.2⟩
  finished := h.finished
  functions := h.functions
  asked := by
    intro instruction ha hfit
    obtain ⟨other, ho, hi⟩ := h.asked instruction ha hfit
    rcases List.mem_cons.mp ho with rfl | ho
    · exact ⟨draft, List.mem_cons_self, (hm instruction hi).resolve_left hfit⟩
    · exact ⟨other, List.mem_cons_of_mem _ ho, hi⟩

/-- Instructions can be asked for that fit or that are in the draft. -/
theorem Sound.asking (instructions : List Instruction) (h : recorder.Sound count)
    (hm : ∀ instruction ∈ instructions, instruction.Fitting ∨
      .plain instruction ∈ recorder.draft) : (recorder.asking instructions).Sound count :=
  { h with
    finished := fun stream hs => ⟨(h.finished stream hs).1, fun instruction hi =>
      ⟨List.mem_append_right _ ((h.finished stream hs).2 instruction hi).1,
        ((h.finished stream hs).2 instruction hi).2⟩⟩
    asked := by
      intro instruction ha hfit
      rcases List.mem_append.mp ha with ha | ha
      · exact ⟨recorder.draft, List.mem_cons_self, (hm instruction ha).resolve_left hfit⟩
      · exact h.asked instruction ha hfit }

/-- An instruction is emitted that fits or that the scope admits. -/
theorem Sound.noting (instruction : Instruction) (h : recorder.Sound count)
    (ha : recorder.compiler.symbols.inner.Admits (!recorder.compiler.symbols.isGlobal)
      instruction) :
    Sound count (noting { recorder with compiler :=
      { recorder.compiler with
        builder := recorder.compiler.builder.emit instruction.opcode instruction.operands } }
      instruction) := by
  have hdraft := h.redraft (.plain instruction :: recorder.draft)
    ⟨h.covers.describes.emit instruction.opcode instruction.operands, fun other hm => ?_⟩
    fun other hm => .inr (List.mem_cons_of_mem _ hm)
  · exact hdraft.asking [instruction] fun other hm =>
      .inr (by rw [List.mem_singleton.mp hm]; exact List.mem_cons_self)
  · rcases List.mem_cons.mp hm with he | hm
    · cases he
      exact ha
    · exact h.covers.admits other hm

/-- Names are looked up or bound. -/
theorem Sound.rename {symbols : SymbolTable} (h : recorder.Sound count) (hs : symbols.Sound)
    (ha : recorder.compiler.symbols.Advances symbols) :
    Sound count { recorder with compiler := { recorder.compiler with symbols } } where
  pool := h.pool
  symbols := hs
  opened := by
    refine ⟨?_, h.opened.2.grows ha.outer⟩
    have hglobal := ha.isGlobal_eq
    unfold SymbolTable.isGlobal at hglobal
    rw [hglobal]
    exact h.covers.mono ha.slots_le (captures_size_le ha.captures)
  finished := h.finished
  functions := h.functions
  asked := h.asked

/-- What a symbol that was found is loaded with is admitted. -/
theorem Sound.admits_load {name : String} {symbol : Symbol} (h : recorder.Sound count)
    (hf : SymbolTable.Found name symbol recorder.compiler.symbols) :
    recorder.compiler.symbols.inner.Admits (!recorder.compiler.symbols.isGlobal)
      (loadOf symbol) := by
  unfold loadOf
  rcases h.symbols.storage_of_found hf with ⟨hst, hi⟩ | ⟨hst, builtin, hof, -⟩ | ⟨hst, hg, hi⟩ |
    ⟨hst, found, hfound, -⟩ | ⟨hst, -⟩ <;> rw [hst]
  · exact .inl ⟨hi, trivial⟩
  · have hi : symbol.index < 6 := (List.getElem?_eq_some_iff.mp hof).1
    exact .inl ⟨Nat.lt_trans hi (by decide), trivial⟩
  · exact .inr (.inl ⟨by rw [hg]; rfl, symbol.index, hi, rfl⟩)
  · exact .inr (.inr ⟨symbol.index, (Array.getElem?_eq_some_iff.mp hfound).1, rfl⟩)
  · exact .inl trivial

end Recorder

/-! ### Steps of a record -/

namespace Record

open Recorder (Sound)

variable {α β : Type} {count : Nat} {recorder : Recorder}

/-- The step ends with a value for which the condition holds, or it is stopped, either by a limit or
with a sound record. -/
inductive Ends (count : Nat) (Q : α → Recorder → Prop) :
    Except CompileError α × Recorder → Prop where
  | ok {value : α} {after : Recorder} : Q value after → Ends count Q (.ok value, after)
  | limit {error : CompileError} {after : Recorder} :
    error.cause.isLimit = true → Ends count Q (.error error, after)
  | stopped {error : CompileError} {after : Recorder} :
    after.Sound count → Ends count Q (.error error, after)

/-- The step keeps the record sound. -/
def Keeps (count : Nat) (step : Record α) : Prop :=
  ∀ recorder : Recorder, recorder.Sound count → Ends count (fun _ => Sound count) (step recorder)

theorem Ends.bind {step : Record α} {next : α → Record β} {Q : α → Recorder → Prop}
    {R : β → Recorder → Prop} (h : Ends count Q (step recorder))
    (hn : ∀ value after, Q value after → Ends count R (next value after)) :
    Ends count R ((step >>= next) recorder) := by
  rw [Attempt.bind_apply]
  cases hr : step recorder with
  | mk result after =>
    rw [hr] at h
    cases h with
    | ok hq => exact hn _ after hq
    | limit hl => exact .limit hl
    | stopped hs => exact .stopped hs

theorem Ends.mono {Q R : α → Recorder → Prop} {outcome : Except CompileError α × Recorder}
    (h : Ends count Q outcome) (hqr : ∀ value after, Q value after → R value after) :
    Ends count R outcome := by
  cases h with
  | ok hq => exact .ok (hqr _ _ hq)
  | limit hl => exact .limit hl
  | stopped hs => exact .stopped hs

theorem Keeps.bind {step : Record α} {next : α → Record β} (h : Keeps count step)
    (hn : ∀ value, Keeps count (next value)) : Keeps count (step >>= next) :=
  fun recorder hs => (h recorder hs).bind fun value after ha => hn value after ha

theorem Keeps.quiet {work : Compile α} (h : Quiet work) : Keeps count (lift work) := by
  intro recorder hs
  obtain ⟨value, span, labels, hw⟩ := h recorder.compiler
  rw [lift_eq recorder hw]
  exact .ok (hs.of_compiler _ rfl rfl rfl ⟨labels, rfl⟩ rfl)

theorem Keeps.emit (opcode : Opcode) (operands : List Nat)
    (h : Instruction.Fits operands opcode.widths) : Keeps count (Record.emit opcode operands) := by
  intro recorder hs
  rw [emit_apply]
  exact .ok (hs.noting ⟨opcode, operands⟩ (.inl h))

theorem Keeps.emitJump {opcode : Opcode} {label : Label} (h : opcode.widths = [2]) :
    Keeps count (Record.emitJump opcode label) := by
  intro recorder hs
  refine .ok (hs.redraft (.jump opcode label :: recorder.draft)
    ⟨hs.covers.describes.emitJump h label, fun instruction hm => ?_⟩
    fun instruction hm => .inr (List.mem_cons_of_mem _ hm))
  rcases List.mem_cons.mp hm with he | hm
  · cases he
  · exact hs.covers.admits instruction hm

/-- A symbol that was found is loaded. -/
theorem ends_loadSymbol {name : String} {symbol : Symbol} (hs : recorder.Sound count)
    (hf : SymbolTable.Found name symbol recorder.compiler.symbols) :
    Ends count (fun _ after => after.Sound count ∧
      after.compiler.symbols = recorder.compiler.symbols ∧ after.finished = recorder.finished)
      (loadSymbol symbol recorder) := by
  rw [loadSymbol, emit_apply]
  exact .ok ⟨hs.noting _ (hs.admits_load hf), rfl, rfl⟩

theorem ends_loadAll (symbols : List Symbol) (hs : recorder.Sound count)
    (hf : ∀ symbol ∈ symbols, SymbolTable.Found symbol.name symbol recorder.compiler.symbols) :
    Ends count (fun _ after => after.Sound count ∧ after.finished = recorder.finished)
      (symbols.forM loadSymbol recorder) := by
  induction symbols generalizing recorder with
  | nil => exact .ok ⟨hs, rfl⟩
  | cons symbol rest ih =>
    refine (ends_loadSymbol hs (hf symbol List.mem_cons_self)).bind fun _ after hload => ?_
    obtain ⟨ha, hsame, hfinished⟩ := hload
    rw [← hfinished]
    exact ih ha fun other hm => hsame ▸ hf other (List.mem_cons_of_mem _ hm)

theorem Keeps.loadName (name : String) : Keeps count (Record.loadName name) := by
  intro recorder hs
  cases hr : recorder.compiler.symbols.resolve name with
  | none =>
    rw [loadName_of_none hr]
    exact .stopped hs
  | some result =>
    obtain ⟨symbol, symbols⟩ := result
    obtain ⟨hsound, hgrows, hfound⟩ := SymbolTable.resolve_sound hs.symbols hr
    rw [loadName_of_resolve hr]
    exact (ends_loadSymbol (hs.rename hsound hgrows.advances) hfound).mono
      fun _ _ hload => hload.1

/-- A `pop` in a draft fits, so it can be taken back. -/
theorem fitting_pop {operands : List Nat} {rest : Draft} {instruction : Instruction}
    (hs : recorder.Sound count) (hd : recorder.draft = .plain ⟨.pop, operands⟩ :: rest)
    (hm : .plain instruction ∈ recorder.draft) :
    instruction.Fitting ∨ .plain instruction ∈ rest := by
  rw [hd] at hm
  rcases List.mem_cons.mp hm with he | hm
  · cases he
    rcases hs.covers.admits _ (by rw [hd]; exact List.mem_cons_self) with
      hfit | ⟨-, _, -, he⟩ | ⟨_, -, he⟩
    · exact .inl hfit
    · cases he
    · cases he
  · exact .inr hm

theorem Keeps.removeLastPop : Keeps count Record.removeLastPop := by
  intro recorder hs
  have heq : Record.removeLastPop recorder = (.ok recorder.compiler.builder.removeLastPop.1,
    { recorder with
      compiler := { recorder.compiler with builder := recorder.compiler.builder.removeLastPop.2 }
      draft := if recorder.compiler.builder.removeLastPop.1 then recorder.draft.tail
        else recorder.draft }) := rfl
  rw [heq]
  refine .ok ?_
  rcases hs.covers.describes.removeLastPop with hsame | ⟨operands, rest, hd, hr, hrest⟩
  · rw [hsame]
    exact hs
  · rw [hr, if_pos rfl, hd]
    refine hs.redraft _ ⟨hrest, fun instruction hm => ?_⟩ fun instruction hm => fitting_pop hs hd hm
    exact hs.covers.admits instruction (by rw [hd]; exact List.mem_cons_of_mem _ hm)

theorem Keeps.replaceLastPop : Keeps count Record.replaceLastPop := by
  intro recorder hs
  have heq : Record.replaceLastPop recorder = (.ok recorder.compiler.builder.replaceLastPop.1,
    { recorder with
      compiler := { recorder.compiler with builder := recorder.compiler.builder.replaceLastPop.2 }
      draft := if recorder.compiler.builder.replaceLastPop.1 then recorder.draft.returning
        else recorder.draft }) := rfl
  rw [heq]
  refine .ok ?_
  rcases hs.covers.describes.replaceLastPop with hsame | ⟨operands, rest, hd, hr, hrest⟩
  · rw [hsame]
    exact hs
  · rw [hr, if_pos rfl, hd]
    refine hs.redraft _ ⟨hrest, fun instruction hm => ?_⟩ fun instruction hm =>
      (fitting_pop hs hd hm).imp_right (List.mem_cons_of_mem _)
    rcases List.mem_cons.mp hm with he | hm
    · cases he
      exact .inl trivial
    · exact hs.covers.admits instruction (by rw [hd]; exact List.mem_cons_of_mem _ hm)

/-! ### Constants and names -/

/-- A constant is added or found. The code of a function has to be finished before. -/
theorem ends_addConstant {value : Value} (refused : List Instruction) (hs : recorder.Sound count)
    (hv : ∀ id body, value = .compiled id body →
      ∃ instructions, (body.code, instructions) ∈ recorder.finished) :
    Ends count (fun index after => after.Sound count ∧ index < maxConstants)
      (refusable refused (addConstant value) recorder) := by
  have hpool := (KeepsPool.addConstant value _ hs.pool).1
  rw [refusable]
  unfold addConstant at hpool ⊢
  cases hp : (constantKey? value).bind (recorder.compiler.places[·]?) with
  | some index =>
    obtain ⟨key, -, hplace⟩ := Option.bind_eq_some_iff.mp hp
    have hat := hs.pool.places key index hplace
    exact .ok ⟨hs, Nat.lt_of_lt_of_le (Array.getElem?_eq_some_iff.mp hat).1 hs.pool.size_le⟩
  | none =>
    rw [hp] at hpool
    unfold pushConstant at hpool ⊢
    dsimp only at hpool ⊢
    by_cases hroom : maxConstants ≤ recorder.compiler.constants.size
    · rw [if_pos hroom]
      exact .limit rfl
    · rw [if_neg hroom] at hpool ⊢
      refine .ok ⟨{ hs with pool := hpool, functions := fun index id body hle hat => ?_ },
        Nat.lt_of_not_le hroom⟩
      rw [Array.getElem?_push] at hat
      split at hat
      · exact hv id body (Option.some.inj hat)
      · exact hs.functions index id body hle hat

theorem Keeps.constant (key : Key) {rest : Record Unit} (h : Keeps count rest) :
    Keeps count (Record.constant key rest) := by
  intro recorder hs
  refine (ends_addConstant _ hs fun id body he => by cases key <;> cases he).bind
    fun index after hadd => ?_
  obtain ⟨ha, hi⟩ := hadd
  exact (Keeps.emit .constant [index] ⟨hi, trivial⟩).bind (fun _ => h) after ha

/-- A store is refused by a limit, or it is the emission of an instruction that fits. -/
theorem storeSymbol_or (symbol : Symbol) (compiler : Compiler) :
    (∃ cause : CompileError.Cause, cause.isLimit = true ∧
      storeSymbol symbol compiler = failHere cause compiler) ∨
    ((storeOf symbol).Fitting ∧ (symbol.storage = .globalSlot → symbol.index < maxGlobals) ∧
      storeSymbol symbol compiler =
        Compile.emit (storeOf symbol).opcode (storeOf symbol).operands compiler) := by
  unfold storeSymbol storeOf
  cases symbol.storage with
  | globalSlot =>
    by_cases hi : symbol.index < maxGlobals
    · exact .inr ⟨⟨hi, trivial⟩, fun _ => hi, by simp only [if_pos hi]⟩
    · exact .inl ⟨.tooManyGlobals, rfl, by simp only [if_neg hi]⟩
  | localSlot =>
    by_cases hi : symbol.index < maxLocals
    · exact .inr ⟨⟨hi, trivial⟩, fun hg => (by cases hg), by simp only [if_pos hi]⟩
    · exact .inl ⟨.tooManyLocals, rfl, by simp only [if_neg hi]⟩
  | builtin | captured | self => exact .inl ⟨_, rfl, rfl⟩

theorem Keeps.bindName (name : String) : Keeps count (Record.bindName name) := by
  intro recorder hs
  have hdef := SymbolTable.defines_define recorder.compiler.symbols name fun _ => hs.symbols.name_eq
  unfold Record.bindName
  rw [Attempt.bind_of_ok (lift_eq recorder (onSymbols_apply _))]
  rcases storeSymbol_or (recorder.compiler.symbols.define name).1
    { recorder.compiler with symbols := (recorder.compiler.symbols.define name).2 } with
    ⟨cause, hlimit, hstore⟩ | ⟨hfit, hglobal, hstore⟩
  · rw [Attempt.bind_of_error (refusable_of_error hstore)]
    exact .limit hlimit
  · rw [Attempt.bind_of_ok (refusable_of_ok (hstore.trans (Compile.emit_apply _ _)))]
    exact .ok ((hs.rename (hdef.sound hs.symbols hglobal) hdef.advances).noting _ (.inl hfit))

/-! ### Functions -/

theorem Keeps.openFunction (name : Option String) (parameters : List String) :
    Keeps count (Record.openFunction name parameters) := by
  intro recorder hs
  unfold Record.openFunction
  rw [Attempt.bind_of_ok (lift_eq recorder (openFunction_apply name parameters))]
  refine .ok ⟨hs.pool, SymbolTable.sound_opened hs.symbols name parameters, ?_, hs.finished,
    hs.functions, fun instruction ha hfit => ?_⟩
  · dsimp only
    rw [SymbolTable.outer_opened]
    exact ⟨⟨.empty, fun _ hm => by cases hm⟩, hs.opened⟩
  · obtain ⟨draft, hd, hm⟩ := hs.asked instruction ha hfit
    exact ⟨draft, List.mem_cons_of_mem _ hd, hm⟩

/-- What is left of a compiler when the innermost function is left. -/
def outside (compiler : Compiler) : Compiler :=
  { compiler with
    symbols := compiler.symbols.leave?.getD compiler.symbols
    builder := compiler.enclosing.headD .empty
    enclosing := compiler.enclosing.tail }

theorem leaveScope_of_finish {compiler : Compiler} {code : Code}
    (hf : compiler.builder.finish = .ok code) :
    leaveScope compiler = (.ok code, outside compiler) := by
  obtain ⟨constants, places, symbols, builder, enclosing, depth, span, maxDepth⟩ := compiler
  unfold leaveScope
  rw [Attempt.bind_of_ok (onSymbols_apply _)]
  cases enclosing <;> simp only [leaveBuilder, hf] <;> rfl

theorem leaveScope_of_error {compiler : Compiler} {target : Nat}
    (hf : compiler.builder.finish = .error target) :
    leaveScope compiler = (.error ⟨.jumpOutOfRange target, compiler.span⟩, outside compiler) := by
  obtain ⟨constants, places, symbols, builder, enclosing, depth, span, maxDepth⟩ := compiler
  unfold leaveScope
  rw [Attempt.bind_of_ok (onSymbols_apply _)]
  cases enclosing <;> simp only [leaveBuilder, hf] <;> rfl

/-- What holds when a function has been left and its code is finished. That everything in it fits
is known if it keeps to the limits. -/
structure Left (count : Nat) (recorder : Recorder) (code : Code) (after : Recorder) : Prop where
  sound : (recorder.compiler.symbols.isGlobal = false →
      recorder.compiler.symbols.inner.slots ≤ maxLocals) →
    recorder.compiler.symbols.inner.captures.size ≤ maxCaptures → after.Sound count
  found : ∀ symbol ∈ recorder.compiler.symbols.inner.captures.toList,
    SymbolTable.Found symbol.name symbol after.compiler.symbols
  finished : ∃ instructions, (code, instructions) ∈ after.finished
  draft_eq : after.draft = recorder.enclosing.headD []
  enclosing_eq : after.enclosing = recorder.enclosing.tail

/-- The scopes outside of a function are well-formed and have what the function captures. -/
theorem sound_leave {table : SymbolTable} (h : table.Sound) :
    (table.leave?.getD table).Sound ∧ ∀ symbol ∈ table.inner.captures.toList,
      SymbolTable.Found symbol.name symbol (table.leave?.getD table) := by
  obtain ⟨inner, outer⟩ := table
  cases outer with
  | nil =>
    refine ⟨h, fun symbol hm => ?_⟩
    rw [h.captures_eq rfl] at hm
    cases hm
  | cons next rest =>
    refine ⟨h.2, fun symbol hm => ?_⟩
    obtain ⟨hat, hshared⟩ := h.1.captures symbol hm
    exact ⟨rfl, fun _ => hat, fun hg => (by rw [hg] at hshared; cases hshared),
      fun hb => (by rw [hb] at hshared; cases hshared)⟩

/-- Everything in the draft of a function that keeps to the limits fits, its jumps included. -/
theorem fitting_instructions {code : Code} (hs : recorder.Sound count)
    (hslots : recorder.compiler.symbols.isGlobal = false →
      recorder.compiler.symbols.inner.slots ≤ maxLocals)
    (hcaptures : recorder.compiler.symbols.inner.captures.size ≤ maxCaptures)
    (hf : recorder.compiler.builder.finish = .ok code) :
    ∀ instruction ∈ recorder.instructions, instruction.Fitting := by
  intro instruction hm
  rw [Recorder.instructions, Draft.instructions, List.mem_reverse, List.mem_map] at hm
  obtain ⟨entry, hm, rfl⟩ := hm
  cases entry with
  | plain instruction =>
    exact (hs.covers.admits instruction hm).fitting
      (fun hg => hslots (by simpa using hg)) hcaptures
  | jump opcode label => exact hs.covers.describes.fitting_jump hf hm

/-- The functions outside of one that is left are open as before. Where there is none, an empty unit
is. -/
theorem opened_outside (hs : recorder.Sound count) :
    Opened (recorder.enclosing.headD [] :: recorder.enclosing.tail)
      ((outside recorder.compiler).builder :: (outside recorder.compiler).enclosing)
      ((outside recorder.compiler).symbols.inner :: (outside recorder.compiler).symbols.outer) := by
  have hopened := hs.opened.2
  obtain ⟨⟨_, _, ⟨inner, outer⟩, _, builders, _, _, _⟩, _, drafts, _, _⟩ := recorder
  cases drafts <;> cases builders <;> cases outer <;> try exact hopened.elim
  · exact ⟨⟨.empty, fun _ hm => by cases hm⟩, trivial⟩
  · exact hopened

/-- The draft of a function goes to the finished ones if everything in it fits. -/
theorem sound_left {code : Code} (hs : recorder.Sound count)
    (hf : recorder.compiler.builder.finish = .ok code)
    (hfit : ∀ instruction ∈ recorder.instructions, instruction.Fitting) :
    Sound count { recorder with
      compiler := outside recorder.compiler
      draft := recorder.enclosing.headD []
      enclosing := recorder.enclosing.tail
      finished := (code, recorder.instructions) :: recorder.finished
      asked := recorder.instructions ++ recorder.asked } where
  pool := hs.pool
  symbols := (sound_leave hs.symbols).1
  opened := opened_outside hs
  finished := by
    intro stream hm
    rcases List.mem_cons.mp hm with rfl | hm
    · exact ⟨hs.covers.describes.decodes hf hfit, fun instruction hi =>
        ⟨List.mem_append_left _ hi, hfit instruction hi⟩⟩
    · obtain ⟨hdecodes, hall⟩ := hs.finished stream hm
      exact ⟨hdecodes, fun instruction hi =>
        ⟨List.mem_append_right _ (hall instruction hi).1, (hall instruction hi).2⟩⟩
  functions := by
    intro index id body hle hat
    obtain ⟨instructions, hm⟩ := hs.functions index id body hle hat
    exact ⟨instructions, List.mem_cons_of_mem _ hm⟩
  asked := by
    intro instruction hm hunfit
    rcases List.mem_append.mp hm with hm | hm
    · exact absurd (hfit instruction hm) hunfit
    obtain ⟨draft, hd, hi⟩ := hs.asked instruction hm hunfit
    rcases List.mem_cons.mp hd with rfl | hd
    · refine absurd (hfit instruction ?_) hunfit
      rw [Recorder.instructions, Draft.instructions, List.mem_reverse, List.mem_map]
      exact ⟨.plain instruction, hi, rfl⟩
    · obtain ⟨first, rest, he⟩ := List.exists_cons_of_ne_nil (List.ne_nil_of_mem hd)
      refine ⟨draft, ?_, hi⟩
      rw [he] at hd ⊢
      exact hd

theorem ends_leave {work : Compile Code} (hs : recorder.Sound count)
    (hw : work recorder.compiler = leaveScope recorder.compiler) :
    Ends count (Left count recorder) (leave work recorder) := by
  unfold leave
  rw [Attempt.bind_of_ok (show Attempt.get recorder = (.ok recorder, recorder) from rfl),
    Attempt.bind_of_ok (show Attempt.modify _ recorder =
      (.ok (), recorder.asking recorder.instructions) from rfl)]
  cases hf : recorder.compiler.builder.finish with
  | error target =>
    rw [Attempt.bind_of_error (lift_eq (recorder.asking recorder.instructions)
      (hw.trans (leaveScope_of_error hf)))]
    exact .limit rfl
  | ok code =>
    rw [Attempt.bind_of_ok (lift_eq (recorder.asking recorder.instructions)
      (hw.trans (leaveScope_of_finish hf)))]
    obtain ⟨hsymbols, hfound⟩ := sound_leave hs.symbols
    refine .ok ⟨fun hslots hcaptures => ?_, hfound, ⟨_, List.mem_cons_self⟩, rfl, rfl⟩
    exact sound_left hs hf (fitting_instructions hs hslots hcaptures hf)

theorem Keeps.packFunction (name : Option String) (parameters : List String) (span : Span) :
    Keeps count (Record.packFunction name parameters span) := by
  intro recorder hs
  unfold Record.packFunction
  rw [Attempt.bind_of_ok (show Attempt.get recorder = (.ok recorder, recorder) from rfl)]
  refine (ends_leave hs rfl).bind fun code left hleft => ?_
  rw [Attempt.bind_of_ok (setSpan_apply span left),
    Attempt.bind_of_ok (show Attempt.get _ = (.ok _, _) from rfl)]
  dsimp only
  by_cases hslots : maxLocals < recorder.compiler.symbols.inner.slots
  · rw [if_pos hslots]
    exact .limit rfl
  rw [if_neg hslots, checkLimit]
  by_cases hcaptures : maxCaptures < recorder.compiler.symbols.inner.captures.size
  · rw [if_pos hcaptures]
    exact .limit rfl
  rw [if_neg hcaptures, Attempt.bind_of_ok (refusable_of_ok (Attempt.pure_apply () _))]
  -- the limits are kept, so the function that was left is known to fit
  have hsound := (hleft.sound (fun _ => Nat.le_of_not_lt hslots)
    (Nat.le_of_not_lt hcaptures)).of_compiler { left.compiler with span } rfl rfl rfl ⟨_, rfl⟩ rfl
  refine (ends_loadAll _ hsound hleft.found).bind fun _ loaded hload => ?_
  obtain ⟨hloaded, hfinished⟩ := hload
  refine (ends_addConstant _ hloaded fun id body he => ?_).bind fun index last hadd => ?_
  · cases he
    rw [hfinished]
    exact hleft.finished
  · obtain ⟨hlast, hi⟩ := hadd
    exact Keeps.emit .closure [index, recorder.compiler.symbols.inner.captures.size]
      ⟨hi, Nat.lt_succ_of_le (Nat.le_of_not_lt hcaptures), trivial⟩ last hlast

theorem Keeps.nested (span : Span) {body : Record Unit} (h : Keeps count body) :
    Keeps count (Record.nested span body) := by
  intro recorder hs
  by_cases hdepth : recorder.compiler.maxDepth ≤ recorder.compiler.depth
  · rw [Record.nested, if_pos hdepth]
    exact .stopped hs
  have hbody := h _ (hs.of_compiler
    { recorder.compiler with depth := recorder.compiler.depth + 1, span } rfl rfl rfl ⟨_, rfl⟩ rfl)
  cases hr : body { recorder with
    compiler := { recorder.compiler with depth := recorder.compiler.depth + 1, span } } with
  | mk result after =>
    rw [nested_of_lt recorder span (Nat.lt_of_not_le hdepth) hr]
    rw [hr] at hbody
    cases hbody with
    | ok ha => exact .ok (ha.of_compiler _ rfl rfl rfl ⟨_, rfl⟩ rfl)
    | limit hl => exact .limit hl
    | stopped ha => exact .stopped (ha.of_compiler _ rfl rfl rfl ⟨_, rfl⟩ rfl)

end Record

/-- Recording a script keeps the record sound. By induction on the script, one case for each kind of
step. -/
theorem Script.keeps_record {α : Type} {work : Compile α} {count : Nat} (script : Script work) :
    Record.Keeps count script.record := by
  induction script with
  | quiet h => exact .quiet h
  | bind _ _ hfirst hnext => exact .bind hfirst hnext
  | nested span _ hbody => exact .nested span hbody
  | limited number limit cause wanted hcause rest hrest =>
    intro recorder hs
    rw [record]
    by_cases h : number ≤ limit
    · rw [dif_pos h]
      exact hrest h recorder hs
    · rw [dif_neg h]
      exact .limit hcause
  | emit opcode operands h => exact .emit opcode operands h
  | jump opcode label h => exact .emitJump h
  | constant key _ hrest => exact .constant key hrest
  | load name => exact .loadName name
  | bindName name => exact .bindName name
  | dropPop => exact .removeLastPop
  | returnPop => exact .replaceLastPop
  | openFunction name parameters => exact .openFunction name parameters
  | packFunction name parameters span => exact .packFunction name parameters span

end Simian
