import Simian.Proofs.CompiledLayout

/-!
# Every construct is laid by the rules

Compiling a part of a tree drafts code that obeys the layout rule for it, by recursion on
the tree. The labels of a construct are bound on the way, so the offsets in its rule are
the targets that the finished code has for them. A function literal finishes code of its
own, and what it captures is loaded in the scope around it.
-/
namespace Simian

/-- The code drafted from the first compiler to the second stands in the relation to the tables
and offsets of the two. -/
def LaysAs (R : Site → SymbolTable → Nat → SymbolTable → Nat → Prop)
    (compiler later : Compiler) : Prop :=
  Lays compiler later fun site _ =>
    R site compiler.symbols compiler.builder.code.size later.symbols later.builder.code.size

namespace SymbolTable

/-! ### The table of a function body -/

theorem outer_foldl_define (parameters : List String) (table : SymbolTable) :
    (parameters.foldl (fun table parameter => (table.define parameter).2) table).outer =
      table.outer := by
  induction parameters generalizing table with
  | nil => rfl
  | cons parameter rest ih => rw [List.foldl_cons, ih]; rfl

theorem sound_foldl_define (parameters : List String) {table : SymbolTable} (h : table.Sound)
    (hg : table.isGlobal = false) :
    (parameters.foldl (fun table parameter => (table.define parameter).2) table).Sound := by
  induction parameters generalizing table with
  | nil => exact h
  | cons parameter rest ih =>
    have hdef := SymbolTable.defines_define table parameter fun _ => h.name_eq
    refine ih (hdef.sound h fun hst => ?_) (hdef.advances.isGlobal_eq.trans hg)
    have hstorage := hdef.storage_eq
    rw [hst, hg] at hstorage
    cases hstorage

theorem outer_opened (table : SymbolTable) (name : Option String) (parameters : List String) :
    (table.opened name parameters).outer = table.inner :: table.outer := by
  unfold opened
  rw [outer_foldl_define]
  cases name <;> rfl

theorem sound_opened {table : SymbolTable} (h : table.Sound) (name : Option String)
    (parameters : List String) : (table.opened name parameters).Sound := by
  apply sound_foldl_define
  · cases name with
    | none => exact sound_enter h
    | some name => exact sound_defineSelf name (sound_enter h) (List.cons_ne_nil _ _)
  · cases name <;> rfl

end SymbolTable

namespace Compile

open Attempt

variable {compiler later : Compiler}

/-! ### Steps around the code -/

theorem bind_checkLimit_eq_ok {α : Type} {count limit : Nat} {cause : Nat → CompileError.Cause}
    {next : Unit → Compile α} {result : α}
    (h : (checkLimit count limit cause >>= next) compiler = (.ok result, later)) :
    count ≤ limit ∧ next () compiler = (.ok result, later) := by
  obtain ⟨_, between, hlimit, h⟩ := bind_eq_ok h
  obtain ⟨hcount, hsame⟩ := checkLimit_eq_ok hlimit
  rw [hsame] at h
  exact ⟨hcount, h⟩

theorem lays_nested {R : Site → SymbolTable → Nat → SymbolTable → Nat → Prop} {span : Span}
    {body : Compile Unit} (h : compiler.Sound)
    (hn : nested span body compiler = (.ok (), later))
    (hbody : ∀ {a b : Compiler}, a.Sound → body a = (.ok (), b) → LaysAs R a b) :
    LaysAs R compiler later := by
  obtain ⟨between, hb, rfl⟩ := nested_eq_ok hn
  have hinside : Compiler.Sound { compiler with depth := compiler.depth + 1, span } :=
    ⟨h.builder, h.symbols, h.pool⟩
  have hlays := hbody hinside hb
  exact Lays.ofNested hlays

theorem appends_refl (h : compiler.Sound) : Appends compiler compiler 0 fun _ _ => True :=
  ⟨⟨h.leads, fun _ _ => rfl, Pool.verifiedFrom_size _, fun _ _ _ => trivial⟩, rfl, rfl⟩

theorem appends_setSpan {span : Span} (h : compiler.Sound)
    (hs : setSpan span compiler = (.ok (), later)) :
    Appends compiler later 0 fun _ _ => True := by
  cases hs
  exact ⟨⟨⟨⟨h.builder, h.symbols, h.pool⟩, .refl _, .refl _, .refl _, rfl⟩,
    fun _ _ => rfl, Pool.verifiedFrom_size _, fun _ _ _ => trivial⟩, rfl, rfl⟩

theorem onSymbols_apply {α : Type} (change : SymbolTable → α × SymbolTable) :
    onSymbols change compiler =
      (.ok (change compiler.symbols).1, { compiler with symbols := (change compiler.symbols).2 }) := by
  cases compiler; rfl

theorem onBuilder_apply {α : Type} (change : CodeBuilder → α × CodeBuilder) :
    onBuilder change compiler =
      (.ok (change compiler.builder).1, { compiler with builder := (change compiler.builder).2 }) := by
  cases compiler; rfl

@[simp] theorem size_opcodeOfBinary (op : BinaryOp) : (opcodeOfBinary op).size = 1 := by
  cases op <;> rfl

@[simp] theorem widths_opcodeOfBinary (op : BinaryOp) : (opcodeOfBinary op).widths = [] := by
  cases op <;> rfl

@[simp] theorem size_opcodeOfUnary (op : UnaryOp) : (opcodeOfUnary op).size = 1 := by
  cases op <;> rfl

@[simp] theorem widths_opcodeOfUnary (op : UnaryOp) : (opcodeOfUnary op).widths = [] := by
  cases op <;> rfl

theorem fits_nil {opcode : Opcode} (h : opcode.widths = []) :
    Instruction.Fits [] opcode.widths := by
  rw [h]; trivial

/-- Places for errors can be set before and behind a construct. -/
theorem lays_within {R : Site → SymbolTable → Nat → SymbolTable → Nat → Prop}
    {a b c d : Compiler} {P Q : Site → (Label → Nat) → Prop} (hab : Appends a b 0 P)
    (h : LaysAs R b c) (hcd : Appends c d 0 Q) : LaysAs R a d :=
  ((hab.toLays.andThen h).andThen hcd.toLays).imp fun site _ ⟨⟨_, hat⟩, _⟩ => by
    rw [hab.symbols_eq, hab.size_eq] at hat
    rw [hcd.symbols_eq, hcd.size_eq]
    exact hat

/-! ### Names -/

/-- A step that works on the names only. -/
theorem lays_symbols {symbols : SymbolTable} (h : compiler.Sound) (hs : symbols.Sound)
    (ha : compiler.symbols.Advances symbols) :
    Lays compiler { compiler with symbols } fun _ _ => True :=
  ⟨⟨⟨h.builder, hs, h.pool⟩, .refl _, .refl _, ha, rfl⟩, fun _ _ => rfl,
    Pool.verifiedFrom_size _, fun _ _ _ => trivial⟩

theorem lays_loadName {name : String} (h : compiler.Sound) (span : Span)
    (hl : loadName name compiler = (.ok (), later)) :
    LaysAs (fun site t p t' q => ExprAt site t p (.ident name span) t' q) compiler later := by
  unfold loadName at hl
  obtain ⟨found, between, hf, hl⟩ := bind_eq_ok hl
  rw [onSymbols_apply] at hf
  cases hr : compiler.symbols.resolve name with
  | none =>
    rw [hr] at hf
    cases hf
    cases hl
  | some result =>
    obtain ⟨symbol, symbols⟩ := result
    rw [hr] at hf
    cases hf
    obtain ⟨hsound, hgrows, hfound⟩ := SymbolTable.resolve_sound h.symbols hr
    have hsym := lays_symbols h hsound hgrows.advances
    obtain ⟨hload, hsame⟩ := lays_loadSymbol hsym.sound hfound hl
    exact (hsym.andThen hload).imp fun site _ ⟨_, hat⟩ => by
      rw [hsame]
      exact .ident hr hat

theorem storeSymbol_eq_ok {symbol : Symbol}
    (hs : storeSymbol symbol compiler = (.ok (), later)) :
    (symbol.storage = .globalSlot ∧ symbol.index < maxGlobals ∧
      emit .setGlobal [symbol.index] compiler = (.ok (), later)) ∨
    (symbol.storage = .localSlot ∧ symbol.index < maxLocals ∧
      emit .setLocal [symbol.index] compiler = (.ok (), later)) := by
  rw [storeSymbol] at hs
  cases hst : symbol.storage with
  | globalSlot =>
    rw [hst] at hs
    by_cases hi : symbol.index < maxGlobals
    · exact .inl ⟨rfl, hi, by simpa only [if_pos hi] using hs⟩
    · simp only [if_neg hi] at hs
      cases hs
  | localSlot =>
    rw [hst] at hs
    by_cases hi : symbol.index < maxLocals
    · exact .inr ⟨rfl, hi, by simpa only [if_pos hi] using hs⟩
    · simp only [if_neg hi] at hs
      cases hs
  | builtin | captured | self =>
    rw [hst] at hs
    cases hs

theorem lastIs_of_emit {opcode : Opcode} {operands : List Nat}
    (he : emit opcode operands compiler = (.ok (), later)) (other : Opcode) :
    later.builder.lastIs other = (opcode == other) := by
  rw [emit_apply] at he
  cases he
  exact CodeBuilder.lastIs_emit ..

/-- Storing into a name that was just bound. -/
theorem lays_bind {a m b : Compiler} {name : String} {value : Expr} (span : Span)
    (hvalue : LaysAs (fun site t p t' q => ExprAt site t p value t' q) a m)
    (hs : (do storeSymbol (← onSymbols (·.define name)) : Compile Unit) m = (.ok (), b)) :
    LaysAs (fun site t p t' q => StmtAt site t p (.bind name value span) t' q) a b := by
  obtain ⟨symbol, mid, hd, hs⟩ := bind_eq_ok hs
  rw [onSymbols_apply] at hd
  cases hd
  have hdef := SymbolTable.defines_define m.symbols name fun _ => hvalue.sound.symbols.name_eq
  have hsound : (m.symbols.define name).2.Sound :=
    hdef.sound hvalue.sound.symbols fun hg => by
      rcases storeSymbol_eq_ok hs with ⟨_, hi, _⟩ | ⟨hl, _⟩
      · exact hi
      · rw [hg] at hl; cases hl
  have hdefine := hvalue.andThen (lays_symbols hvalue.sound hsound hdef.advances)
  rcases storeSymbol_eq_ok hs with ⟨hst, hi, he⟩ | ⟨hst, hi, he⟩
  · have hset := appends_instruction hdefine.sound he ⟨hi, trivial⟩
    refine (hdefine.andThen hset.toLays).imp fun site _ ⟨⟨hval, _⟩, hat⟩ => ?_
    rw [hset.symbols_eq, hset.size_eq]
    exact .bindGlobal hval rfl hst hi hat
  · have hset := appends_instruction hdefine.sound he ⟨hi, trivial⟩
    have hlocal : (m.symbols.define name).2.isGlobal = false := by
      rw [hdef.advances.isGlobal_eq]
      have hstorage := hdef.storage_eq
      rw [hst] at hstorage
      cases hg : m.symbols.isGlobal with
      | false => rfl
      | true => rw [hg] at hstorage; cases hstorage
    have hlaid := hdefine.andThen hset.toLays
    refine ⟨hlaid.leads, hlaid.labels, hlaid.functions, fun site targets hc => ?_⟩
    obtain ⟨⟨hval, _⟩, hat⟩ := hlaid.laid site targets hc
    have hlt := Nat.lt_of_lt_of_le (hdef.index_lt hvalue.sound.symbols)
      ((hc.of_leads hset.leads).locals hlocal)
    rw [hset.symbols_eq, hset.size_eq]
    exact .bindLocal hval rfl hst hlt hat

/-! ### The end of a block or of a function body -/

/-- The last operation of a statement. -/
def EndsIn : Stmt → Opcode → Prop
  | .bind .., opcode => opcode = .setGlobal ∨ opcode = .setLocal
  | .ret .., opcode => opcode = .returnValue
  | .retNull _, opcode => opcode = .returnNull
  | .expr .., opcode => opcode = .pop

theorem lastIs_of_stmt {statement : Stmt} (hc : stmt statement compiler = (.ok (), later)) :
    ∃ opcode, EndsIn statement opcode ∧
      ∀ other, later.builder.lastIs other = (opcode == other) := by
  cases statement with
  | bind name value span =>
    rw [stmt] at hc
    obtain ⟨_, _, _, hc⟩ := bind_eq_ok hc
    obtain ⟨_, _, _, hc⟩ := bind_eq_ok hc
    obtain ⟨_, _, _, hc⟩ := bind_eq_ok hc
    obtain ⟨_, _, _, hc⟩ := bind_eq_ok hc
    rcases storeSymbol_eq_ok hc with ⟨_, _, he⟩ | ⟨_, _, he⟩
    · exact ⟨_, .inl rfl, lastIs_of_emit he⟩
    · exact ⟨_, .inr rfl, lastIs_of_emit he⟩
  | ret value span =>
    rw [stmt] at hc
    obtain ⟨_, _, _, hc⟩ := bind_eq_ok hc
    obtain ⟨_, _, _, he⟩ := bind_eq_ok hc
    exact ⟨_, rfl, lastIs_of_emit he⟩
  | retNull span =>
    rw [stmt] at hc
    obtain ⟨_, _, _, he⟩ := bind_eq_ok hc
    exact ⟨_, rfl, lastIs_of_emit he⟩
  | expr value span =>
    rw [stmt] at hc
    obtain ⟨_, _, _, hc⟩ := bind_eq_ok hc
    obtain ⟨_, _, _, he⟩ := bind_eq_ok hc
    exact ⟨_, rfl, lastIs_of_emit he⟩

/-- What is compiled behind the statements of a block or of a function body. -/
def close : Closing → Compile Unit
  | .leaves => endBlock
  | .returns => endFunction

/-- Whether the draft does not end in an operation that closing looks for. -/
def OpenEnded (compiler : Compiler) : Prop :=
  compiler.builder.lastIs .pop = false ∧ compiler.builder.lastIs .returnValue = false ∧
    compiler.builder.lastIs .returnNull = false

theorem endsInReturn_apply : endsInReturn compiler =
    (.ok (compiler.builder.lastIs .returnValue || compiler.builder.lastIs .returnNull),
      compiler) := by
  have hlast : ∀ opcode,
      lastIs opcode compiler = (.ok (compiler.builder.lastIs opcode), compiler) :=
    fun _ => onBuilder_apply _
  rw [endsInReturn, bind_of_ok (hlast .returnValue)]
  cases hv : compiler.builder.lastIs .returnValue with
  | true => rfl
  | false => exact hlast .returnNull

/-- What is behind a return or anything else but a `pop`. -/
theorem close_of_not_pop (closing : Closing) (h : compiler.builder.lastIs .pop = false) :
    close closing compiler =
      if compiler.builder.lastIs .returnValue || compiler.builder.lastIs .returnNull then
        (.ok (), compiler)
      else emit closing.nothing [] compiler := by
  have hremove := CodeBuilder.removeLastPop_of_not h
  have hreplace := CodeBuilder.replaceLastPop_of_not h
  cases closing <;>
  · simp only [close, endBlock, endFunction]
    rw [bind_of_ok (onBuilder_apply _)]
    simp only [hremove, hreplace, Bool.false_eq_true, if_false]
    rw [bind_of_ok endsInReturn_apply]
    split <;> rfl

theorem close_of_openEnded (closing : Closing) (h : OpenEnded compiler) :
    close closing compiler = emit closing.nothing [] compiler := by
  rw [close_of_not_pop closing h.1, h.2.1, h.2.2]
  rfl

theorem appends_nothing (closing : Closing) (h : compiler.Sound) (ho : OpenEnded compiler)
    (hc : close closing compiler = (.ok (), later)) :
    Appends compiler later 1 fun site _ =>
      site.code.Holds compiler.builder.code.size ⟨closing.nothing, []⟩ := by
  rw [close_of_openEnded closing ho] at hc
  cases closing <;> exact appends_instruction h hc trivial

theorem openEnded_of_emitJump {opcode : Opcode} {label : Label}
    (he : emitJump opcode label compiler = (.ok (), later)) (hw : opcode.widths = [2]) :
    OpenEnded later := by
  rw [emitJump_apply] at he
  cases he
  refine ⟨?_, ?_, ?_⟩ <;>
  · dsimp only
    rw [CodeBuilder.lastIs_emitJump]
    cases opcode <;> first | rfl | cases hw

theorem OpenEnded.bindLabel {label : Label} (h : OpenEnded compiler) :
    OpenEnded { compiler with builder := compiler.builder.bindLabel label } := by
  obtain ⟨constants, places, symbols, ⟨code, last, previous, labels, jumps⟩, enclosing, depth, span,
    maxDepth⟩ := compiler
  exact h

/-- A final expression keeps its value in a block, and returns it in a function. -/
theorem lays_close_expr {a m b : Compiler} {value : Expr} (closing : Closing) (span : Span)
    (hvalue : LaysAs (fun site t p t' q => ExprAt site t p value t' q) a m)
    (hc : (do emit .pop []; close closing : Compile Unit) m = (.ok (), b)) :
    LaysAs (fun site t p t' q => TailAt closing site t p [.expr value span] t' q) a b := by
  rw [bind_of_ok (emit_apply .pop [])] at hc
  cases closing with
  | leaves =>
    simp only [close, endBlock] at hc
    rw [bind_of_ok (onBuilder_apply _), CodeBuilder.removeLastPop_emit hvalue.sound.builder] at hc
    cases hc
    exact ⟨⟨⟨⟨hvalue.sound.builder.jumps_le, hvalue.sound.builder.jumps_apart,
        hvalue.sound.builder.labels_le⟩, hvalue.sound.symbols, hvalue.sound.pool⟩,
        ⟨hvalue.leads.builder.code, hvalue.leads.builder.jumps, hvalue.leads.builder.labels⟩,
        hvalue.leads.pool, hvalue.leads.symbols, hvalue.leads.enclosing⟩, hvalue.labels,
      hvalue.functions, fun site targets hcov => .value (hvalue.laid site targets
        ⟨⟨hcov.completes.bytes, hcov.completes.jumps, hcov.completes.labels⟩, hcov.pool,
          hcov.locals, hcov.locals_le, hcov.captures, hcov.captures_le, hcov.inFunction⟩)⟩
  | returns =>
    simp only [close, endFunction] at hc
    rw [bind_of_ok (onBuilder_apply _), CodeBuilder.replaceLastPop_emit] at hc
    cases hc
    have hret := appends_instruction hvalue.sound (emit_apply .returnValue []) trivial
    refine (hvalue.andThen hret.toLays).imp fun site _ ⟨hval, hat⟩ => ?_
    rw [hret.symbols_eq, hret.size_eq]
    exact .result hval hat

/-! ### Function literals -/

theorem openFunction_apply (name : Option String) (parameters : List String) :
    openFunction name parameters compiler =
      (.ok (), { compiler with
        builder := .empty
        enclosing := compiler.builder :: compiler.enclosing
        symbols := compiler.symbols.opened name parameters }) := by
  cases name <;> rfl

theorem leaveBuilder_eq_ok {code : Code} {outer : CodeBuilder} {rest : List CodeBuilder}
    (he : compiler.enclosing = outer :: rest)
    (hl : leaveBuilder compiler = (.ok code, later)) :
    compiler.builder.finish = .ok code ∧
      later = { compiler with builder := outer, enclosing := rest } := by
  simp only [leaveBuilder, he] at hl
  split at hl
  next hf =>
    cases hl
    exact ⟨hf, rfl⟩
  · cases hl

theorem leaveScope_eq_ok {code : Code} {outer : CodeBuilder} {rest : List CodeBuilder}
    (he : compiler.enclosing = outer :: rest)
    (hl : leaveScope compiler = (.ok code, later)) :
    compiler.builder.finish = .ok code ∧
      later = { compiler with
        symbols := compiler.symbols.leave?.getD compiler.symbols
        builder := outer
        enclosing := rest } := by
  obtain ⟨_, between, hs, hl⟩ := bind_eq_ok hl
  rw [onSymbols_apply] at hs
  cases hs
  exact @leaveBuilder_eq_ok
    { compiler with symbols := compiler.symbols.leave?.getD compiler.symbols } _ _ _ _ he hl

theorem lays_loadAll (symbols : List Symbol) {compiler later : Compiler} (h : compiler.Sound)
    (hfound : ∀ symbol ∈ symbols, SymbolTable.Found symbol.name symbol compiler.symbols)
    (hl : symbols.forM loadSymbol compiler = (.ok (), later)) :
    Lays compiler later (fun site _ =>
      LoadsAll site compiler.builder.code.size symbols later.builder.code.size) ∧
    later.symbols = compiler.symbols := by
  induction symbols generalizing compiler with
  | nil =>
    cases hl
    exact ⟨⟨h.leads, fun _ _ => rfl, Pool.verifiedFrom_size _, fun _ _ _ => .nil⟩, rfl⟩
  | cons symbol rest ih =>
    obtain ⟨_, between, hload, hl⟩ := bind_eq_ok hl
    obtain ⟨hfirst, hsame⟩ := lays_loadSymbol h (hfound symbol List.mem_cons_self) hload
    obtain ⟨hrest, hlast⟩ := ih hfirst.sound
      (fun s hs => by rw [hsame]; exact hfound s (List.mem_cons_of_mem _ hs)) hl
    exact ⟨(hfirst.andThen hrest).imp fun _ _ ⟨hone, hall⟩ => .cons hone hall, hlast.trans hsame⟩

/-- The scope that a function body was compiled in, and the table around it. -/
theorem leave_opened {table body : SymbolTable} {name : Option String} {parameters : List String}
    (hs : body.Sound) (ha : (table.opened name parameters).Advances body) :
    ∃ later, body.leave? = some later ∧ later.Sound ∧ table.Grows later ∧
      ∀ symbol ∈ body.inner.captures.toList,
        SymbolTable.Found symbol.name symbol later := by
  obtain ⟨scope, outer⟩ := body
  have houter := ha.outer
  rw [SymbolTable.outer_opened] at houter
  cases houter with
  | cons hinner hrest =>
    rename_i next rest
    refine ⟨⟨next, rest⟩, rfl, hs.2, ⟨hinner, hrest⟩, fun symbol hsym => ?_⟩
    obtain ⟨hown, hshared⟩ := hs.1.captures symbol hsym
    refine ⟨rfl, fun _ => hown, fun hst => ?_, fun hst => ?_⟩ <;>
    · rw [hst] at hshared
      cases hshared

/-- Closing a function whose body is laid by the rules lays the function literal. -/
theorem lays_closeFunction {a n b : Compiler} {name : Option String} {parameters : List String}
    {body : List Stmt} {span blockSpan : Span} (h : a.Sound)
    (hparams : parameters.length ≤ maxArguments)
    (hbody : ∀ {m : Compiler}, endFunction n = (.ok (), m) →
      LaysAs (fun site t p t' q => TailAt .returns site t p body t' q)
        { a with
          builder := .empty
          enclosing := a.builder :: a.enclosing
          symbols := a.symbols.opened name parameters } m)
    (hclose : closeFunction name parameters span n = (.ok (), b)) :
    LaysAs (fun site t p t' q =>
      ExprAt site t p (.function name parameters (.mk body blockSpan) span) t' q) a b := by
  obtain ⟨_, m, hend, hclose⟩ := bind_eq_ok hclose
  have hm := hbody hend
  obtain ⟨_, _, hget, hclose⟩ := bind_eq_ok hclose
  cases hget
  obtain ⟨code, left, hleave, hclose⟩ := bind_eq_ok hclose
  obtain ⟨hfinish, rfl⟩ := leaveScope_eq_ok hm.leads.enclosing hleave
  obtain ⟨table, htable, hsound, hgrows, hfound⟩ := leave_opened hm.sound.symbols hm.leads.symbols
  obtain ⟨hcompletes, hsize⟩ := CodeBuilder.completes_finish hm.sound.builder hfinish
  rw [htable, Option.getD_some] at hclose
  -- back in the enclosing function: its draft is as before, the constants may be more
  have hback : Lays a { m with symbols := table, builder := a.builder, enclosing := a.enclosing }
      fun _ _ => True :=
    ⟨⟨⟨h.builder, hsound, hm.sound.pool⟩, .refl _, hm.leads.pool, hgrows.advances, rfl⟩,
      fun _ _ => rfl, hm.functions, fun _ _ _ => trivial⟩
  obtain ⟨_, spanned, hspan, hclose⟩ := bind_eq_ok hclose
  have hspan := appends_setSpan hback.sound hspan
  split at hclose
  · cases hclose
  next hslots =>
  obtain ⟨hcaptures, hclose⟩ := bind_checkLimit_eq_ok hclose
  obtain ⟨_, loaded, hload, hadd⟩ := bind_eq_ok hclose
  obtain ⟨hload, hsame⟩ := lays_loadAll _ hspan.sound
    (fun symbol hs => by rw [hspan.symbols_eq]; exact hfound symbol hs) hload
  obtain ⟨index, added, hadd, hemit⟩ := bind_eq_ok hadd
  -- the site of the body, whose labels went to where its own draft was finished
  have hinner : ∀ pool, Pool.Extends m.constants pool → TailAt .returns
      ⟨pool, code, m.symbols.inner.slots, m.symbols.inner.captures.toList, true⟩
      (a.symbols.opened name parameters) 0 body m.symbols code.size := fun pool hpool => by
    have htail := hm.laid _ _ (⟨hcompletes, hpool, fun _ => Nat.le_refl _, Nat.le_of_not_lt hslots,
      ⟨[], (List.append_nil _).symm⟩, hcaptures, fun _ => rfl⟩ : Site.Covers
        ⟨pool, code, m.symbols.inner.slots, m.symbols.inner.captures.toList, true⟩ _ m)
    rwa [← hsize] at htail
  have hadd := appends_addConstant hload.sound hadd fun id _ he => ⟨_, by
    cases he
    exact (tail_returns body (hinner _ (hspan.leads.trans hload.leads).pool)).verified rfl
      name parameters.length⟩
  have hemit := appends_emit hadd.sound hemit rfl
  have hloaded := (hback.andThen hspan.toLays).andThen hload
  have hlaid := (hloaded.andThen hadd.toLays).andThen hemit.toLays
  refine ⟨hlaid.leads, hlaid.labels, hlaid.functions, fun site targets hc => ?_⟩
  obtain ⟨⟨⟨_, hloads⟩, hi, hpool⟩, hat⟩ := hlaid.laid site targets hc
  have htail := hinner site.pool (hspan.leads.trans
    (hload.leads.trans (hadd.leads.trans (hemit.leads)))|>.pool.trans hc.pool)
  rw [hemit.symbols_eq, hemit.size_eq, hadd.symbols_eq, hadd.size_eq, hsame, hspan.symbols_eq]
  rw [hadd.size_eq] at hat
  rw [hspan.size_eq] at hloads
  exact .function hparams htail rfl rfl rfl (Nat.le_of_not_lt hslots) rfl hcaptures htable hloads hi
    hpool (hat ⟨hi, Nat.lt_succ_of_le hcaptures, trivial⟩)

/-! ### The constructs of the language -/

/-- Two labels made one after the other. -/
theorem appends_createLabels {a b c : Compiler} {first second : Label} (h : a.Sound)
    (h₁ : createLabel a = (.ok first, b)) (h₂ : createLabel b = (.ok second, c)) :
    Appends a c 0 (fun _ _ => True) ∧ c.builder.Unbound first ∧ c.builder.Unbound second ∧
      a.builder.labels.size ≤ first.index ∧ a.builder.labels.size ≤ second.index ∧
      first.index ≠ second.index := by
  obtain ⟨ha, hfirst, hi⟩ := appends_createLabel h h₁
  obtain ⟨hb, hsecond, hj⟩ := appends_createLabel ha.sound h₂
  have hlt := (Array.getElem?_eq_some_iff.mp hfirst).1
  have hboth := ha.toLays.andThen hb.toLays
  refine ⟨⟨⟨hboth.leads, hboth.labels, hboth.functions, fun _ _ _ => trivial⟩, ?_, ?_⟩,
    hb.unbound hfirst, hsecond, by omega, ?_, by omega⟩
  · rw [hb.symbols_eq, ha.symbols_eq]
  · rw [hb.size_eq, ha.size_eq]
  · rw [hj]; exact ha.labels_size_le

/-- The end of a construct with two ways through it: the second way pushes a constant. -/
theorem lays_join {a m b : Compiler} {opcode : Opcode} {other last : Label}
    {P : Site → (Label → Nat) → Prop} (hm : Lays a m P) (hw : opcode.widths = [])
    (hother : m.builder.Unbound other) (hlast : m.builder.Unbound last)
    (hi : a.builder.labels.size ≤ other.index) (hj : a.builder.labels.size ≤ last.index)
    (hne : other.index ≠ last.index)
    (hc : (do bindLabel other; emit opcode []; bindLabel last : Compile Unit) m =
      (.ok (), b)) :
    (b.symbols = m.symbols ∧ b.builder.code.size = m.builder.code.size + opcode.size) ∧
      Lays a b fun site targets => P site targets ∧ targets other = m.builder.code.size ∧
        site.code.Holds m.builder.code.size ⟨opcode, []⟩ ∧
        targets last = m.builder.code.size + opcode.size := by
  rw [bind_of_ok (bindLabel_apply other)] at hc
  obtain ⟨_, n, hemit, hbind⟩ := bind_eq_ok hc
  obtain rfl := bindLabel_eq_ok hbind
  have hbound := hm.andBind other hi hother
  have hemit := appends_instruction hbound.sound hemit (fits_nil hw)
  have hopen := hemit.unbound (hlast.bindLabel (Ne.symm hne))
  have hlaid := (hbound.andThen hemit.toLays).andBind last hj hopen
  have hsize := hemit.size_eq
  dsimp only at hsize
  rw [CodeBuilder.code_bindLabel] at hsize
  refine ⟨⟨hemit.symbols_eq, ?_⟩, hlaid.imp fun site targets ⟨⟨⟨hP, ho⟩, hat⟩, hl⟩ => ?_⟩
  · dsimp only
    rw [CodeBuilder.code_bindLabel, hsize]
  · rw [hsize] at hl
    dsimp only at hat
    rw [CodeBuilder.code_bindLabel] at hat
    exact ⟨hP, ho, hat, hl⟩

/-- Wherever the expression can be compiled, it is laid by its rule. -/
def LaysExpr (tree : Expr) : Prop := ∀ {a b : Compiler}, a.Sound →
  expr tree a = (.ok (), b) → LaysAs (fun site t p t' q => ExprAt site t p tree t' q) a b

/-- Wherever the block or body can be compiled and closed, it is laid by its rule. -/
def LaysTail (closing : Closing) (statements : List Stmt) : Prop := ∀ {a m b : Compiler}, a.Sound →
  stmts statements a = (.ok (), m) → close closing m = (.ok (), b) →
  (statements = [] → OpenEnded a) →
  LaysAs (fun site t p t' q => TailAt closing site t p statements t' q) a b

section
variable {P Q R : Site → SymbolTable → Nat → SymbolTable → Nat → Prop} {a m b : Compiler}

/-- Two parts one after the other. -/
theorem lays_both (hP : LaysAs P a m) (hQ : LaysAs Q m b) :
    LaysAs (fun site t p t' q => ∃ t₁ n, P site t p t₁ n ∧ Q site t₁ n t' q) a b :=
  (hP.andThen hQ).imp fun _ _ ⟨hfirst, hsecond⟩ => ⟨_, _, hfirst, hsecond⟩

/-- A part and an instruction behind it. -/
theorem lays_instruction {opcode : Opcode} {operands : List Nat} (hP : LaysAs P a m)
    (he : emit opcode operands m = (.ok (), b)) (hf : Instruction.Fits operands opcode.widths)
    (hR : ∀ {site t p t' q}, P site t p t' q → site.code.Holds q ⟨opcode, operands⟩ →
      R site t p t' (q + opcode.size)) : LaysAs R a b := by
  have hemit := appends_instruction hP.sound he hf
  refine (hP.andThen hemit.toLays).imp fun site _ ⟨hpart, hat⟩ => ?_
  rw [hemit.symbols_eq, hemit.size_eq]
  exact hR hpart hat

/-- A constant that is no function. -/
theorem lays_constant {value : Value} {index : Nat} (h : a.Sound)
    (hadd : addConstant value a = (.ok index, m)) (hvalue : ∀ id body, value ≠ .compiled id body)
    (hemit : emit .constant [index] m = (.ok (), b))
    (hR : ∀ {site t p}, index < maxConstants → site.pool[index]? = some value →
      site.code.Holds p ⟨.constant, [index]⟩ → R site t p t (p + 3)) : LaysAs R a b := by
  have hadd := appends_addConstant h hadd fun id body he => absurd he (hvalue id body)
  have hemit := appends_emit hadd.sound hemit rfl
  refine (hadd.toLays.andThen hemit.toLays).imp fun site _ ⟨⟨hi, hpool⟩, hat⟩ => ?_
  rw [hemit.symbols_eq, hadd.symbols_eq, hemit.size_eq, hadd.size_eq]
  rw [hadd.size_eq] at hat
  exact hR hi hpool (hat ⟨hi, trivial⟩)

end

/-- The right operand of a logical operator, and behind it what makes a boolean of it. -/
theorem lays_truth {a m b : Compiler} {right : Expr} {other last : Label}
    {P : Site → (Label → Nat) → Prop} (hright : LaysExpr right) (hm : Lays a m P)
    (hother : m.builder.Unbound other) (hlast : m.builder.Unbound last)
    (hi : a.builder.labels.size ≤ other.index) (hj : a.builder.labels.size ≤ last.index)
    (hne : other.index ≠ last.index)
    (hc : (do
      expr right
      emitJump .jumpNotTruthy other
      emit .pushTrue []
      emitJump .jump last
      bindLabel other
      emit .pushFalse []
      bindLabel last : Compile Unit) m = (.ok (), b)) :
    Lays a b fun site targets => P site targets ∧ ∃ q, b.builder.code.size = q + 8 ∧
      targets other = q + 7 ∧ targets last = q + 8 ∧
      ExprAt site m.symbols m.builder.code.size right b.symbols q ∧
      site.code.Holds q ⟨.jumpNotTruthy, [q + 7]⟩ ∧ site.code.Holds (q + 3) ⟨.pushTrue, []⟩ ∧
      site.code.Holds (q + 4) ⟨.jump, [q + 8]⟩ ∧ site.code.Holds (q + 7) ⟨.pushFalse, []⟩ := by
  obtain ⟨_, c₁, hr, hc⟩ := bind_eq_ok hc
  obtain ⟨_, c₂, hskip, hc⟩ := bind_eq_ok hc
  obtain ⟨_, c₃, htrue, hc⟩ := bind_eq_ok hc
  obtain ⟨_, c₄, hjump, hjoin⟩ := bind_eq_ok hc
  have hr := hright hm.sound hr
  have hskip := appends_emitJump hr.sound hskip rfl
  have htrue := appends_instruction hskip.sound htrue trivial
  have hjump := appends_emitJump htrue.sound hjump rfl
  have hbody := ((hr.andThen hskip.toLays).andThen htrue.toLays).andThen hjump.toLays
  obtain ⟨⟨hsymbols, hsize⟩, hlaid⟩ := lays_join (hm.andThen hbody) rfl
    (hbody.unbound hother) (hbody.unbound hlast) hi hj hne hjoin
  refine hlaid.imp fun site targets ⟨⟨hP, ⟨⟨hr, hat₁⟩, hat₂⟩, hat₃⟩, ho, hat₄, hl⟩ => ?_
  rw [hjump.size_eq, htrue.size_eq, hskip.size_eq] at ho hl hat₄ hsize
  rw [htrue.size_eq, hskip.size_eq, hl] at hat₃
  rw [hskip.size_eq] at hat₂
  rw [ho] at hat₁
  rw [hsymbols, hjump.symbols_eq, htrue.symbols_eq, hskip.symbols_eq]
  exact ⟨hP, _, hsize, ho, hl, hr, hat₁, hat₂, hat₃, hat₄⟩

theorem LaysExpr.and {left right : Expr} (hleft : LaysExpr left) (hright : LaysExpr right)
    (span : Span) : LaysExpr (.logical .and left right span) := by
  intro a b h hc
  rw [expr] at hc
  refine lays_nested h hc fun {a b} h hc => ?_
  obtain ⟨falseLabel, _, hfirst, hc⟩ := bind_eq_ok hc
  obtain ⟨endLabel, c₁, hsecond, hc⟩ := bind_eq_ok hc
  obtain ⟨_, c₂, hl, hc⟩ := bind_eq_ok hc
  obtain ⟨_, c₃, hskip, hc⟩ := bind_eq_ok hc
  obtain ⟨hlabels, hfalse, hend, hi, hj, hne⟩ := appends_createLabels h hfirst hsecond
  have hl := hleft hlabels.sound hl
  have hskip := appends_emitJump hl.sound hskip rfl
  have hbody := hl.andThen hskip.toLays
  refine (lays_truth hright (hlabels.andThen hbody) (hbody.unbound hfalse) (hbody.unbound hend)
    hi hj hne hc).imp fun site targets hlaid => ?_
  obtain ⟨⟨_, hl, hat₁⟩, q, hsize, hfalseAt, _, hr, hat₂, hat₃, hat₄, hat₅⟩ := hlaid
  rw [hlabels.symbols_eq, hlabels.size_eq] at hl
  rw [hfalseAt] at hat₁
  rw [hskip.symbols_eq, hskip.size_eq] at hr
  rw [hsize]
  exact .and hl hat₁ hr hat₂ hat₃ hat₄ hat₅

theorem LaysExpr.or {left right : Expr} (hleft : LaysExpr left) (hright : LaysExpr right)
    (span : Span) : LaysExpr (.logical .or left right span) := by
  intro a b h hc
  rw [expr] at hc
  refine lays_nested h hc fun {a b} h hc => ?_
  obtain ⟨falseLabel, _, hfirst, hc⟩ := bind_eq_ok hc
  obtain ⟨endLabel, c₁, hsecond, hc⟩ := bind_eq_ok hc
  obtain ⟨_, c₂, hl, hc⟩ := bind_eq_ok hc
  obtain ⟨rightLabel, c₃, hthird, hc⟩ := bind_eq_ok hc
  obtain ⟨_, c₄, hskip, hc⟩ := bind_eq_ok hc
  obtain ⟨_, c₅, htrue, hc⟩ := bind_eq_ok hc
  obtain ⟨_, c₆, hjump, hc⟩ := bind_eq_ok hc
  obtain ⟨_, c₇, hbind, hc⟩ := bind_eq_ok hc
  obtain rfl := bindLabel_eq_ok hbind
  obtain ⟨hlabels, hfalse, hend, hi, hj, hne⟩ := appends_createLabels h hfirst hsecond
  have hl := hleft hlabels.sound hl
  obtain ⟨hthird, hropen, hri⟩ := appends_createLabel hl.sound hthird
  have hskip := appends_emitJump hthird.sound hskip rfl
  have htrue := appends_instruction hskip.sound htrue trivial
  have hjump := appends_emitJump htrue.sound hjump rfl
  -- the label of the right operand is bound here, the other two at the end
  have hway := (hskip.toLays.andThen htrue.toLays).andThen hjump.toLays
  have hbody := ((hl.andThen hthird.toLays).andThen hway).andBind rightLabel
    (hri ▸ hl.labels_size_le) (hway.unbound hropen)
  refine (lays_truth hright (hlabels.andThen hbody) (hbody.unbound hfalse) (hbody.unbound hend)
    hi hj hne hc).imp fun site targets hlaid => ?_
  obtain ⟨⟨_, ⟨⟨hl, _⟩, ⟨hat₁, hat₂⟩, hat₃⟩, hrightAt⟩,
    q, hsize, _, hendAt, hr, hat₄, hat₅, hat₆, hat₇⟩ := hlaid
  rw [hlabels.symbols_eq, hlabels.size_eq] at hl
  dsimp only at hr
  rw [CodeBuilder.code_bindLabel, hjump.symbols_eq, htrue.symbols_eq, hskip.symbols_eq,
    hthird.symbols_eq] at hr
  rw [hjump.size_eq, htrue.size_eq, hskip.size_eq, hthird.size_eq] at hrightAt hr
  rw [htrue.size_eq, hskip.size_eq, hthird.size_eq, hendAt] at hat₃
  rw [hskip.size_eq, hthird.size_eq] at hat₂
  rw [hthird.size_eq, hrightAt] at hat₁
  rw [hsize]
  exact .or hl hat₁ hat₂ hat₃ hr hat₄ hat₅ hat₆ hat₇

theorem LaysExpr.bump {operand : Expr} (hoperand : LaysExpr operand) (op : BumpOp) (span : Span) :
    LaysExpr (.bump op operand span) := by
  intro a b h hc
  rw [expr] at hc
  refine lays_nested h hc fun {a b} h hc => ?_
  obtain ⟨_, m, hop, hc⟩ := bind_eq_ok hc
  obtain ⟨one, k, hadd, hc⟩ := bind_eq_ok hc
  obtain ⟨_, n, hone, hemit⟩ := bind_eq_ok hc
  have hop := hoperand h hop
  have hone : LaysAs (fun site t p t' q => t' = t ∧ q = p + 3 ∧ one < maxConstants ∧
      site.pool[one]? = some (.int 1) ∧ site.code.Holds p ⟨.constant, [one]⟩) m n :=
    lays_constant hop.sound hadd (by simp) hone fun hi hpool hat => ⟨rfl, rfl, hi, hpool, hat⟩
  refine lays_instruction (lays_both hop hone) hemit
    (fits_nil (widths_opcodeOfBinary op.binary)) ?_
  rintro site t p _ _ ⟨t', q, hop, rfl, rfl, hi, hpool, hat⟩ hat'
  rw [size_opcodeOfBinary]
  exact .bump hop hi hpool hat hat'

/-- The condition with the way that is taken if it is truthy, up to the jump behind it. -/
theorem lays_way {a c₁ c₂ c₃ c₄ c₅ m b : Compiler} {condition : Expr} {statements : List Stmt}
    {other last : Label} (hcondition : LaysExpr condition) (htail : LaysTail .leaves statements)
    (h : a.Sound) (hc : expr condition a = (.ok (), c₁))
    (hfirst : createLabel c₁ = (.ok other, c₂)) (hsecond : createLabel c₂ = (.ok last, c₃))
    (hskip : emitJump .jumpNotTruthy other c₃ = (.ok (), c₄))
    (hs : stmts statements c₄ = (.ok (), m)) (hclose : close .leaves m = (.ok (), c₅))
    (hjump : emitJump .jump last c₅ = (.ok (), b)) :
    (b.builder.Unbound other ∧ b.builder.Unbound last ∧ a.builder.labels.size ≤ other.index ∧
      a.builder.labels.size ≤ last.index ∧ other.index ≠ last.index ∧ OpenEnded b) ∧
    Lays a b fun site targets => ∃ t₁ n q, b.builder.code.size = q + 3 ∧
      ExprAt site a.symbols a.builder.code.size condition t₁ n ∧
      site.code.Holds n ⟨.jumpNotTruthy, [targets other]⟩ ∧
      TailAt .leaves site t₁ (n + 3) statements b.symbols q ∧
      site.code.Holds q ⟨.jump, [targets last]⟩ := by
  have hcond := hcondition h hc
  obtain ⟨hlabels, hother, hlast, hi, hj, hne⟩ := appends_createLabels hcond.sound hfirst hsecond
  have hopen := openEnded_of_emitJump hskip rfl
  have hskip := appends_emitJump hlabels.sound hskip rfl
  have htail := htail hskip.sound hs hclose fun _ => hopen
  have hopen' := openEnded_of_emitJump hjump rfl
  have hjump := appends_emitJump htail.sound hjump rfl
  have hbody := (hskip.toLays.andThen htail).andThen hjump.toLays
  refine ⟨⟨hbody.unbound hother, hbody.unbound hlast, Nat.le_trans hcond.labels_size_le hi,
    Nat.le_trans hcond.labels_size_le hj, hne, hopen'⟩,
    ((hcond.andThen hlabels.toLays).andThen hbody).imp
      fun site targets ⟨⟨hcond, _⟩, ⟨hat₁, ht⟩, hat₂⟩ =>
        ⟨_, _, _, hjump.size_eq, hcond, ?_, ?_, hat₂⟩⟩
  · rwa [hlabels.size_eq] at hat₁
  · rw [hskip.symbols_eq, hlabels.symbols_eq, hskip.size_eq, hlabels.size_eq] at ht
    rwa [hjump.symbols_eq]

theorem LaysExpr.ifThen {condition : Expr} {statements : List Stmt}
    (hcondition : LaysExpr condition) (htail : LaysTail .leaves statements)
    (blockSpan span : Span) :
    LaysExpr (.ifThen condition (.mk statements blockSpan) span) := by
  intro a b h hc
  rw [expr] at hc
  refine lays_nested h hc fun {a b} h hc => ?_
  obtain ⟨_, c₁, hcond, hc⟩ := bind_eq_ok hc
  obtain ⟨elseLabel, c₂, hfirst, hc⟩ := bind_eq_ok hc
  obtain ⟨endLabel, c₃, hsecond, hc⟩ := bind_eq_ok hc
  obtain ⟨_, c₄, hskip, hc⟩ := bind_eq_ok hc
  obtain ⟨_, c₅, hblock, hc⟩ := bind_eq_ok hc
  obtain ⟨_, c₆, hjump, hjoin⟩ := bind_eq_ok hc
  rw [block] at hblock
  obtain ⟨_, m, hstmts, hclose⟩ := bind_eq_ok hblock
  obtain ⟨⟨helse, hend, hi, hj, hne, _⟩, hway⟩ :=
    lays_way hcondition htail h hcond hfirst hsecond hskip hstmts hclose hjump
  obtain ⟨⟨hsymbols, hsize⟩, hlaid⟩ := lays_join hway rfl helse hend hi hj hne hjoin
  refine hlaid.imp fun site targets hlaid => ?_
  obtain ⟨⟨t₁, n, q, hq, hcond, hat₁, ht, hat₂⟩, helseAt, hat₃, hendAt⟩ := hlaid
  rw [hq] at helseAt hat₃ hendAt hsize
  rw [helseAt] at hat₁
  rw [hendAt] at hat₂
  rw [hsymbols, hsize]
  exact .ifThen hcond hat₁ ht hat₂ hat₃

theorem LaysExpr.ifElse {condition : Expr} {first second : List Stmt}
    (hcondition : LaysExpr condition) (htail : LaysTail .leaves first)
    (htail' : LaysTail .leaves second) (firstSpan secondSpan span : Span) :
    LaysExpr (.ifElse condition (.mk first firstSpan) (.mk second secondSpan) span) := by
  intro a b h hc
  rw [expr] at hc
  refine lays_nested h hc fun {a b} h hc => ?_
  obtain ⟨_, c₁, hcond, hc⟩ := bind_eq_ok hc
  obtain ⟨elseLabel, c₂, hfirst, hc⟩ := bind_eq_ok hc
  obtain ⟨endLabel, c₃, hsecond, hc⟩ := bind_eq_ok hc
  obtain ⟨_, c₄, hskip, hc⟩ := bind_eq_ok hc
  obtain ⟨_, c₅, hblock, hc⟩ := bind_eq_ok hc
  obtain ⟨_, c₆, hjump, hc⟩ := bind_eq_ok hc
  obtain ⟨_, c₇, hbind, hc⟩ := bind_eq_ok hc
  obtain ⟨_, c₈, hblock', hbind'⟩ := bind_eq_ok hc
  rw [block] at hblock hblock'
  obtain ⟨_, m, hstmts, hclose⟩ := bind_eq_ok hblock
  obtain ⟨_, m', hstmts', hclose'⟩ := bind_eq_ok hblock'
  obtain rfl := bindLabel_eq_ok hbind
  obtain rfl := bindLabel_eq_ok hbind'
  obtain ⟨⟨helse, hend, hi, hj, hne, hopen⟩, hway⟩ :=
    lays_way hcondition htail h hcond hfirst hsecond hskip hstmts hclose hjump
  have hbound := hway.andBind elseLabel hi helse
  have hother := htail' hbound.sound hstmts' hclose' fun _ => hopen.bindLabel
  have hlaid := (hbound.andThen hother).andBind endLabel hj
    (hother.unbound (hend.bindLabel (Ne.symm hne)))
  refine hlaid.imp fun site targets hlaid => ?_
  obtain ⟨⟨⟨⟨t₁, n, q, hq, hcond, hat₁, ht, hat₂⟩, helseAt⟩, ht'⟩, hendAt⟩ := hlaid
  dsimp only at ht' ⊢
  rw [CodeBuilder.code_bindLabel] at ht' ⊢
  rw [hq] at helseAt ht'
  rw [helseAt] at hat₁
  rw [hendAt] at hat₂
  exact .ifElse hcond hat₁ ht hat₂ ht'

theorem LaysExpr.function {parameters : List String} {body : List Stmt}
    (hbody : LaysTail .returns body) (name : Option String) (blockSpan span : Span) :
    LaysExpr (.function name parameters (.mk body blockSpan) span) := by
  intro a b h hc
  rw [expr] at hc
  refine lays_nested h hc fun {a b} h hc => ?_
  obtain ⟨hparams, hc⟩ := bind_checkLimit_eq_ok hc
  rw [bind_of_ok (openFunction_apply name parameters)] at hc
  obtain ⟨_, n, hstmts, hclose⟩ := bind_eq_ok hc
  refine lays_closeFunction h hparams (fun {m} hend => ?_) hclose
  exact hbody ⟨CodeBuilder.sound_empty, SymbolTable.sound_opened h.symbols name parameters, h.pool⟩
    hstmts hend (fun _ => ⟨rfl, rfl, rfl⟩)

mutual

theorem lays_expr (tree : Expr) : LaysExpr tree := by
  intro a b h hc
  match tree with
  | .integer value span =>
    rw [expr] at hc
    refine lays_nested h hc fun {a b} h hc => ?_
    obtain ⟨index, m, hadd, hemit⟩ := bind_eq_ok hc
    exact lays_constant h hadd (by simp) hemit .integer
  | .string text span =>
    rw [expr] at hc
    refine lays_nested h hc fun {a b} h hc => ?_
    obtain ⟨index, m, hadd, hemit⟩ := bind_eq_ok hc
    exact lays_constant h hadd (by simp) hemit .string
  | .boolean value span =>
    rw [expr] at hc
    refine lays_nested h hc fun {a b} h hc => ?_
    have hemit := appends_instruction h hc (by cases value <;> trivial)
    refine hemit.toLays.imp fun site _ hat => ?_
    rw [hemit.symbols_eq, hemit.size_eq]
    cases value <;> exact .boolean hat
  | .ident name span =>
    rw [expr] at hc
    exact lays_nested h hc fun h hc => lays_loadName h span hc
  | .unary op operand span =>
    rw [expr] at hc
    refine lays_nested h hc fun {a b} h hc => ?_
    obtain ⟨_, m, hoperand, hemit⟩ := bind_eq_ok hc
    have hoperand := lays_expr operand h hoperand
    refine lays_instruction hoperand hemit (fits_nil (widths_opcodeOfUnary op)) fun hop hat => ?_
    rw [size_opcodeOfUnary]
    exact .unary hop hat
  | .binary op left right span =>
    rw [expr] at hc
    refine lays_nested h hc fun {a b} h hc => ?_
    obtain ⟨_, m, hleft, hc⟩ := bind_eq_ok hc
    obtain ⟨_, n, hright, hemit⟩ := bind_eq_ok hc
    have hleft := lays_expr left h hleft
    have hright := lays_expr right hleft.sound hright
    refine lays_instruction (lays_both hleft hright) hemit (fits_nil (widths_opcodeOfBinary op))
      fun ⟨_, _, hl, hr⟩ hat => ?_
    rw [size_opcodeOfBinary]
    exact .binary hl hr hat
  | .logical .and left right span => exact LaysExpr.and (lays_expr left) (lays_expr right) span h hc
  | .logical .or left right span => exact LaysExpr.or (lays_expr left) (lays_expr right) span h hc
  | .bump op operand span => exact LaysExpr.bump (lays_expr operand) op span h hc
  | .ifThen condition (.mk statements blockSpan) span =>
    exact LaysExpr.ifThen (lays_expr condition) (lays_tail .leaves statements) blockSpan span h hc
  | .ifElse condition (.mk first firstSpan) (.mk second secondSpan) span =>
    exact LaysExpr.ifElse (lays_expr condition) (lays_tail .leaves first) (lays_tail .leaves second)
      firstSpan secondSpan span h hc
  | .function name parameters (.mk body blockSpan) span =>
    exact LaysExpr.function (lays_tail .returns body) name blockSpan span h hc
  | .array elements span =>
    rw [expr] at hc
    refine lays_nested h hc fun {a b} h hc => ?_
    obtain ⟨hcount, hc⟩ := bind_checkLimit_eq_ok hc
    obtain ⟨_, m, helements, hemit⟩ := bind_eq_ok hc
    exact lays_instruction (lays_exprs elements h helements) hemit
      ⟨Nat.lt_succ_of_le hcount, trivial⟩ (.array hcount)
  | .hash pairs span =>
    rw [expr] at hc
    refine lays_nested h hc fun {a b} h hc => ?_
    obtain ⟨hcount, hc⟩ := bind_checkLimit_eq_ok hc
    obtain ⟨_, m, hpairs, hemit⟩ := bind_eq_ok hc
    exact lays_instruction (lays_entries pairs h hpairs) hemit
      ⟨Nat.lt_succ_of_le hcount, trivial⟩ (.hash hcount)
  | .call callee arguments span =>
    rw [expr] at hc
    refine lays_nested h hc fun {a b} h hc => ?_
    obtain ⟨hcount, hc⟩ := bind_checkLimit_eq_ok hc
    obtain ⟨_, m, hcallee, hc⟩ := bind_eq_ok hc
    obtain ⟨_, n, harguments, hemit⟩ := bind_eq_ok hc
    have hcallee := lays_expr callee h hcallee
    have harguments := lays_exprs arguments hcallee.sound harguments
    exact lays_instruction (lays_both hcallee harguments) hemit
      ⟨Nat.lt_succ_of_le hcount, trivial⟩ fun ⟨_, _, hcal, hargs⟩ => .call hcount hcal hargs
  | .index collection key span =>
    rw [expr] at hc
    refine lays_nested h hc fun {a b} h hc => ?_
    obtain ⟨_, m, hcollection, hc⟩ := bind_eq_ok hc
    obtain ⟨_, n, hkey, hemit⟩ := bind_eq_ok hc
    have hcollection := lays_expr collection h hcollection
    have hkey := lays_expr key hcollection.sound hkey
    exact lays_instruction (lays_both hcollection hkey) hemit trivial
      fun ⟨_, _, hcol, hk⟩ => .index hcol hk

theorem lays_exprs {a b : Compiler} (items : List Expr) (h : a.Sound)
    (hc : exprs items a = (.ok (), b)) :
    LaysAs (fun site t p t' q => ExprsAt site t p items t' q) a b := by
  match items with
  | [] =>
    cases hc
    exact ⟨h.leads, fun _ _ => rfl, Pool.verifiedFrom_size _, fun _ _ _ => .nil⟩
  | item :: rest =>
    rw [exprs] at hc
    obtain ⟨_, m, hitem, hrest⟩ := bind_eq_ok hc
    have hitem := lays_expr item h hitem
    have hrest := lays_exprs rest hitem.sound hrest
    exact (hitem.andThen hrest).imp fun _ _ ⟨hone, hall⟩ => .cons hone hall

theorem lays_entries {a b : Compiler} (pairs : List (Expr × Expr)) (h : a.Sound)
    (hc : entries pairs a = (.ok (), b)) :
    LaysAs (fun site t p t' q => EntriesAt site t p pairs t' q) a b := by
  match pairs with
  | [] =>
    cases hc
    exact ⟨h.leads, fun _ _ => rfl, Pool.verifiedFrom_size _, fun _ _ _ => .nil⟩
  | (key, value) :: rest =>
    rw [entries] at hc
    obtain ⟨_, m, hkey, hc⟩ := bind_eq_ok hc
    obtain ⟨_, n, hvalue, hrest⟩ := bind_eq_ok hc
    have hkey := lays_expr key h hkey
    have hvalue := lays_expr value hkey.sound hvalue
    have hrest := lays_entries rest hvalue.sound hrest
    exact ((hkey.andThen hvalue).andThen hrest).imp
      fun _ _ ⟨⟨hk, hv⟩, hall⟩ => .cons hk hv hall

theorem lays_stmt {a b : Compiler} (statement : Stmt) (h : a.Sound)
    (hc : stmt statement a = (.ok (), b)) :
    LaysAs (fun site t p t' q => StmtAt site t p statement t' q) a b := by
  match statement with
  | .bind name value span =>
    rw [stmt] at hc
    obtain ⟨_, c₁, hspan, hc⟩ := bind_eq_ok hc
    obtain ⟨_, c₂, hvalue, hc⟩ := bind_eq_ok hc
    obtain ⟨_, c₃, hspan', hc⟩ := bind_eq_ok hc
    have hspan := appends_setSpan h hspan
    have hvalue := lays_expr value hspan.sound hvalue
    have hspan' := appends_setSpan hvalue.sound hspan'
    exact lays_bind span (lays_within hspan hvalue hspan') hc
  | .ret value span =>
    rw [stmt] at hc
    obtain ⟨_, c₁, hspan, hc⟩ := bind_eq_ok hc
    obtain ⟨_, c₂, hvalue, hemit⟩ := bind_eq_ok hc
    have hspan := appends_setSpan h hspan
    have hvalue := lays_expr value hspan.sound hvalue
    exact lays_instruction (lays_within hspan hvalue (appends_refl hvalue.sound)) hemit trivial
      .ret
  | .retNull span =>
    rw [stmt] at hc
    obtain ⟨_, c₁, hspan, hemit⟩ := bind_eq_ok hc
    have hspan := appends_setSpan h hspan
    have hemit := appends_instruction hspan.sound hemit trivial
    refine (hspan.toLays.andThen hemit.toLays).imp fun site _ ⟨_, hat⟩ => ?_
    rw [hspan.size_eq] at hat
    rw [hemit.symbols_eq, hemit.size_eq, hspan.symbols_eq, hspan.size_eq]
    exact .retNull hat
  | .expr value span =>
    rw [stmt] at hc
    obtain ⟨_, c₁, hspan, hc⟩ := bind_eq_ok hc
    obtain ⟨_, c₂, hvalue, hemit⟩ := bind_eq_ok hc
    have hspan := appends_setSpan h hspan
    have hvalue := lays_expr value hspan.sound hvalue
    exact lays_instruction (lays_within hspan hvalue (appends_refl hvalue.sound)) hemit trivial
      .expr

theorem lays_tail (closing : Closing) (statements : List Stmt) : LaysTail closing statements := by
  intro a m b h hc hclose hopen
  match statements with
  | [] =>
    cases hc
    have hnothing := appends_nothing closing h (hopen rfl) hclose
    refine hnothing.toLays.imp fun site _ hat => ?_
    rw [hnothing.symbols_eq, hnothing.size_eq]
    exact .nil hat
  | statement :: next :: rest =>
    rw [stmts] at hc
    obtain ⟨_, n, hstmt, hc⟩ := bind_eq_ok hc
    have hstmt := lays_stmt statement h hstmt
    have htail := lays_tail closing (next :: rest) hstmt.sound hc hclose
      fun hnil => nomatch hnil
    exact (hstmt.andThen htail).imp fun site _ ⟨hs, ht⟩ => .cons hs ht
  | [.bind name value span] =>
    obtain ⟨_, n, hstmt, hnil⟩ := bind_eq_ok hc
    cases hnil
    obtain ⟨opcode, hop, hlast⟩ := lastIs_of_stmt hstmt
    have hopen : OpenEnded m := by
      rcases hop with rfl | rfl <;> exact ⟨hlast _, hlast _, hlast _⟩
    have hstmt := lays_stmt _ h hstmt
    have hnothing := appends_nothing closing hstmt.sound hopen hclose
    refine (hstmt.andThen hnothing.toLays).imp fun site _ ⟨hs, hat⟩ => ?_
    rw [hnothing.symbols_eq, hnothing.size_eq]
    exact .bind hs hat
  | [.ret value span] =>
    obtain ⟨_, n, hstmt, hnil⟩ := bind_eq_ok hc
    cases hnil
    obtain ⟨opcode, rfl, hlast⟩ := lastIs_of_stmt hstmt
    rw [close_of_not_pop closing (hlast .pop), hlast .returnValue] at hclose
    cases hclose
    exact (lays_stmt _ h hstmt).imp fun site _ hs => .ret hs
  | [.retNull span] =>
    obtain ⟨_, n, hstmt, hnil⟩ := bind_eq_ok hc
    cases hnil
    obtain ⟨opcode, rfl, hlast⟩ := lastIs_of_stmt hstmt
    rw [close_of_not_pop closing (hlast .pop), hlast .returnNull, Bool.or_comm] at hclose
    cases hclose
    exact (lays_stmt _ h hstmt).imp fun site _ hs => .retNull hs
  | [.expr value span] =>
    obtain ⟨_, n, hstmt, hnil⟩ := bind_eq_ok hc
    cases hnil
    rw [stmt] at hstmt
    obtain ⟨_, c₁, hspan, hstmt⟩ := bind_eq_ok hstmt
    obtain ⟨_, c₂, hvalue, hemit⟩ := bind_eq_ok hstmt
    have hspan := appends_setSpan h hspan
    have hvalue := lays_expr value hspan.sound hvalue
    have hlaid := lays_close_expr closing span hvalue ((bind_of_ok hemit).trans hclose)
    exact lays_within hspan hlaid (appends_refl hlaid.sound)

end

end Compile

end Simian
