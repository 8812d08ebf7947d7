import Simian.Proofs.AddedNames
import Simian.Proofs.CompiledUnits

/-!
# Slots are written before they are read

Slots are given out in turn, so what has been written at a place in the code is told by
two numbers: the first so many of the global slots, and the first so many of those that
belong to the call. `Assigned` follows code from a place to wherever it leads with these
numbers, as definite assignment does, and enters the function where a closure is made of
it: the globals known there have been written before any call of it.

The names that a table knows are the slots that have been written where it is the table,
as long as no `let` stands in a block. By recursion on the tree, the code of a direct
program is assigned then, each function among it, and whoever passes its end has written
a slot for each name.
-/
namespace Simian

/-- The first so many slots have been written. -/
structure Filled where
  globals : Nat
  /-- Slots of the running call, its parameters among them. -/
  locals : Nat
  deriving Repr, DecidableEq

namespace Filled

instance : LE Filled := ⟨fun few more => few.globals ≤ more.globals ∧ few.locals ≤ more.locals⟩

/-- How many slots have been written when this one has been, after the first so many. Only the next
slot in turn counts. -/
def upTo (slot count : Nat) : Nat := if slot = count then count + 1 else count

theorem upTo_mono (slot : Nat) {few more : Nat} (hle : few ≤ more) :
    upTo slot few ≤ upTo slot more := by
  unfold upTo
  split <;> split <;> omega

/-- With a slot below the limit no more than these have been written. -/
theorem upTo_le {slot count limit : Nat} (hs : slot < limit) (hc : count ≤ limit) :
    upTo slot count ≤ limit := by
  unfold upTo
  split <;> omega

theorem lt_upTo {slot count other : Nat} (h : other < upTo slot count) :
    other = slot ∨ other < count := by
  unfold upTo at h
  split at h <;> omega

end Filled

namespace Instruction

/-- The slot that the instruction reads, if it reads one, has been written. -/
def ReadsWithin (instruction : Instruction) (filled : Filled) : Prop :=
  match instruction.opcode with
  | .getGlobal => instruction.operand 0 < filled.globals
  | .getLocal => instruction.operand 0 < filled.locals
  | _ => True

/-- What has been written behind the instruction. -/
def fills (instruction : Instruction) (filled : Filled) : Filled :=
  match instruction.opcode with
  | .setGlobal => { filled with globals := Filled.upTo (instruction.operand 0) filled.globals }
  | .setLocal => { filled with locals := Filled.upTo (instruction.operand 0) filled.locals }
  | _ => filled

variable {instruction : Instruction} {few more : Filled}

theorem ReadsWithin.mono (h : instruction.ReadsWithin few) (hle : few ≤ more) :
    instruction.ReadsWithin more := by
  unfold ReadsWithin at h ⊢
  split at h
  · exact Nat.lt_of_lt_of_le h hle.1
  · exact Nat.lt_of_lt_of_le h hle.2
  · trivial

theorem fills_mono (hle : few ≤ more) : instruction.fills few ≤ instruction.fills more := by
  unfold fills
  split
  · exact ⟨Filled.upTo_mono _ hle.1, hle.2⟩
  · exact ⟨hle.1, Filled.upTo_mono _ hle.2⟩
  · exact hle

theorem globals_fills_le {limit : Nat}
    (hset : instruction.opcode = .setGlobal → instruction.operand 0 < limit)
    (hle : few.globals ≤ limit) : (instruction.fills few).globals ≤ limit := by
  unfold fills
  split
  next ho => exact Filled.upTo_le (hset ho) hle
  · exact hle
  · exact hle

theorem globals_fills (hg : more.globals = few.globals) :
    (instruction.fills more).globals = (instruction.fills few).globals := by
  unfold fills
  split
  · exact congrArg (Filled.upTo _) hg
  · exact hg
  · exact hg

end Instruction

/-- With these slots written at the offset of the code, every way on from there reads slots only
that have been written. Globals are written below the limit, and all of them when the end of the
code is passed. -/
inductive Assigned (pool : Array Value) : Code → Nat → Nat → Filled → Prop where
  | done {code : Code} {limit : Nat} {filled : Filled} : limit ≤ filled.globals →
    Assigned pool code limit code.size filled
  | step {code : Code} {limit offset : Nat} {filled : Filled} {instruction : Instruction} :
    code.Holds offset instruction → instruction.opcode ≠ .closure →
    instruction.ReadsWithin filled →
    (instruction.opcode = .setGlobal → instruction.operand 0 < limit) →
    (∀ next ∈ instruction.successors offset,
      Assigned pool code limit next (instruction.fills filled)) →
    Assigned pool code limit offset filled
  | closure {code : Code} {limit offset index count id : Nat} {filled : Filled}
    {body : CompiledFunction} : code.Holds offset ⟨.closure, [index, count]⟩ →
    pool[index]? = some (.compiled id body) →
    Assigned pool body.code filled.globals 0 ⟨filled.globals, body.numParameters⟩ →
    Assigned pool code limit (offset + 4) filled → Assigned pool code limit offset filled

namespace Assigned

variable {pool later : Array Value} {code : Code} {limit offset : Nat} {filled more : Filled}
  {instruction : Instruction}

theorem mono (hp : Pool.Extends pool later) (h : Assigned pool code limit offset filled) :
    Assigned later code limit offset filled := by
  induction h with
  | done hle => exact .done hle
  | step hat hne hreads hset _ ih => exact .step hat hne hreads hset ih
  | closure hat hbody _ _ ihbody ih => exact .closure hat (hp.getElem? hbody) ihbody ih

/-- Nothing is lost where more has been written of the slots of the call. -/
theorem moreLocals (h : Assigned pool code limit offset filled) (hg : more.globals = filled.globals)
    (hl : filled.locals ≤ more.locals) : Assigned pool code limit offset more := by
  induction h generalizing more with
  | done hle => exact .done (hg ▸ hle)
  | @step code limit offset filled instruction hat hne hreads hset _ ih =>
    have hle : filled ≤ more := ⟨Nat.le_of_eq hg.symm, hl⟩
    exact .step hat hne (hreads.mono hle) hset fun next hnext =>
      ih next hnext (Instruction.globals_fills hg) (Instruction.fills_mono hle).2
  | closure hat hbody hinner _ _ ih => exact .closure hat hbody (hg ▸ hinner) (ih hg hl)

/-- What is known at an instruction. -/
theorem at_holds (h : Assigned pool code limit offset filled)
    (hat : code.Holds offset instruction) :
    instruction.ReadsWithin filled ∧
      (instruction.opcode = .setGlobal → instruction.operand 0 < limit) ∧
      (∀ id body, instruction.opcode = .closure →
        pool[instruction.operand 0]? = some (.compiled id body) →
        Assigned pool body.code filled.globals 0 ⟨filled.globals, body.numParameters⟩) ∧
      ∀ next ∈ instruction.successors offset,
        Assigned pool code limit next (instruction.fills filled) := by
  cases h with
  | done => exact absurd hat.lt_size (Nat.lt_irrefl _)
  | step hother hne hreads hset hnext =>
    cases hother.unique hat
    exact ⟨hreads, hset, fun _ _ ho => absurd ho hne, hnext⟩
  | closure hother hbody hinner hnext =>
    cases hother.unique hat
    refine ⟨trivial, nofun, fun id body _ hp => ?_, fun next hn => ?_⟩
    · cases hbody.symm.trans hp
      exact hinner
    · cases List.mem_singleton.mp hn
      exact hnext

theorem le_of_done (h : Assigned pool code limit code.size filled) : limit ≤ filled.globals := by
  cases h with
  | done hle => exact hle
  | step hat => exact absurd hat.lt_size (Nat.lt_irrefl _)
  | closure hat => exact absurd hat.lt_size (Nat.lt_irrefl _)

theorem jump {target : Nat} (h : code.Holds offset ⟨.jump, [target]⟩)
    (hn : Assigned pool code limit target filled) : Assigned pool code limit offset filled :=
  .step h nofun trivial nofun fun _ hnext => List.mem_singleton.mp hnext ▸ hn

theorem fork {target : Nat} (h : code.Holds offset ⟨.jumpNotTruthy, [target]⟩)
    (hn : Assigned pool code limit (offset + 3) filled)
    (ht : Assigned pool code limit target filled) : Assigned pool code limit offset filled := by
  refine .step h nofun trivial nofun fun next hnext => ?_
  rcases List.mem_cons.mp hnext with rfl | hnext
  · exact hn
  · exact List.mem_singleton.mp hnext ▸ ht

/-- An instruction that is neither a jump nor a closure. -/
theorem before (h : code.Holds offset instruction) (hne : instruction.opcode ≠ .closure)
    (hr : instruction.ReadsWithin filled)
    (hset : instruction.opcode = .setGlobal → instruction.operand 0 < limit)
    (hs : instruction.successors offset = [offset + instruction.size])
    (hn : Assigned pool code limit (offset + instruction.size) (instruction.fills filled)) :
    Assigned pool code limit offset filled := by
  refine .step h hne hr hset fun next hnext => ?_
  rw [hs] at hnext
  exact List.mem_singleton.mp hnext ▸ hn

/-- A return. -/
theorem last (h : code.Holds offset instruction)
    (ho : instruction.opcode = .returnValue ∨ instruction.opcode = .returnNull) :
    Assigned pool code limit offset filled := by
  refine .step h ?_ ?_ ?_ fun next hnext => ?_
  · rcases ho with ho | ho <;> rw [ho] <;> nofun
  · unfold Instruction.ReadsWithin
    rcases ho with ho | ho <;> rw [ho] <;> trivial
  · rcases ho with ho | ho <;> rw [ho] <;> nofun
  · unfold Instruction.successors at hnext
    rcases ho with ho | ho <;> rw [ho] at hnext <;> cases hnext

end Assigned

/-! ### The slots that a table knows -/

namespace SymbolTable

open SymbolScope

/-- The slots of the outermost scope. -/
def globalSlots : SymbolScope → List SymbolScope → Nat
  | scope, [] => scope.slots
  | _, next :: rest => globalSlots next rest

/-- The slots that names stand for. The outermost scope has no local ones. -/
def filled (table : SymbolTable) : Filled where
  globals := globalSlots table.inner table.outer
  locals := if table.isGlobal then 0 else table.inner.slots

theorem globalSlots_of_grows (inner inner' : SymbolScope) {outer later : List SymbolScope}
    (h : List.Forall₂ SymbolScope.Grows outer later)
    (hs : inner'.slots = inner.slots ∨ outer ≠ []) :
    globalSlots inner' later = globalSlots inner outer := by
  induction h generalizing inner inner' with
  | nil => exact hs.resolve_right fun hn => hn rfl
  | cons hg _ ih => exact ih _ _ (.inl hg.slots_eq)

theorem filled_of_grows {table later : SymbolTable}
    (h : List.Forall₂ SymbolScope.Grows table.scopes later.scopes) :
    later.filled = table.filled := by
  obtain ⟨inner, outer⟩ := table
  obtain ⟨inner', outer'⟩ := later
  cases h with | cons hg ho => ?_
  have hglobals := globalSlots_of_grows inner inner' ho (.inl hg.slots_eq)
  cases ho with
  | nil => exact congrArg (Filled.mk · 0) hglobals
  | cons _ _ => exact congrArg₂ Filled.mk hglobals hg.slots_eq

theorem Adds.filled_eq {names : List String} {table later : SymbolTable}
    (h : table.Adds names later) : later.filled = table.filled := filled_of_grows h.grown.grows

/-- Whoever has room for the globals that were known has room for those that are. -/
theorem Adds.room {names : List String} {table later : SymbolTable} {limit : Nat}
    (h : table.Adds names later) (hle : table.filled.globals ≤ limit) :
    later.filled.globals ≤ limit :=
  h.filled_eq ▸ hle

theorem Widens.globals_le {names : String → Prop} {table later : SymbolTable}
    (h : table.Widens names later) : table.filled.globals ≤ later.filled.globals := by
  obtain ⟨inner, outer⟩ := table
  obtain ⟨inner', outer'⟩ := later
  have hgrows : List.Forall₂ SymbolScope.Grows outer outer' := h.outer.grows
  cases outer with
  | nil =>
    cases hgrows
    exact h.slots_le
  | cons next rest =>
    exact Nat.le_of_eq (globalSlots_of_grows inner inner' hgrows (.inr nofun)).symm

/-- The body of a function knows the globals that are known around it. -/
theorem globals_opened (table : SymbolTable) (name : Option String) (parameters : List String) :
    (table.opened name parameters).filled.globals = table.filled.globals := by
  unfold filled
  dsimp only
  rw [outer_opened]
  rfl

theorem Widens.globals_eq_of_opened {names : String → Prop} {table body : SymbolTable}
    {name : Option String} {parameters : List String}
    (h : (table.opened name parameters).Widens names body) :
    body.filled.globals = table.filled.globals := by
  have hgrows := h.outer.grows
  rw [outer_opened] at hgrows
  exact globalSlots_of_grows (table.opened name parameters).inner body.inner hgrows (.inr nofun)

theorem locals_opened_le (table : SymbolTable) (name : Option String) (parameters : List String) :
    (table.opened name parameters).filled.locals ≤ parameters.length := by
  unfold filled
  dsimp only
  split
  · exact Nat.zero_le _
  · exact slots_opened_le table name parameters

/-! ### The slots of symbols -/

end SymbolTable

/-- The slot of the symbol has been written, if it has one. -/
def Symbol.Within (symbol : Symbol) (filled : Filled) : Prop :=
  (symbol.storage = .globalSlot → symbol.index < filled.globals) ∧
    (symbol.storage = .localSlot → symbol.index < filled.locals)

theorem Symbol.within_of_other {symbol : Symbol} {filled : Filled}
    (hg : symbol.storage ≠ .globalSlot) (hl : symbol.storage ≠ .localSlot) :
    symbol.Within filled :=
  ⟨fun h => absurd h hg, fun h => absurd h hl⟩

namespace SymbolTable

open SymbolScope

variable {table later : SymbolTable} {name : String} {symbol : Symbol}

theorem Sound.within_of_own (h : table.Sound) (hs : table.inner.symbols[name]? = some symbol) :
    symbol.Within table.filled := by
  obtain ⟨inner, outer⟩ := table
  cases outer with
  | nil =>
    rcases h.storage name symbol hs with ⟨hst, hlt, _⟩ | ⟨hst, _⟩
    · refine ⟨fun _ => hlt, ?_⟩
      rw [hst]
      nofun
    · exact Symbol.within_of_other (by rw [hst]; nofun) (by rw [hst]; nofun)
  | cons next rest =>
    rcases h.1.storage name symbol hs with ⟨hst, hlt⟩ | ⟨hst, _⟩ | hst
    · refine ⟨?_, fun _ => hlt⟩
      rw [hst]
      nofun
    · exact Symbol.within_of_other (by rw [hst]; nofun) (by rw [hst]; nofun)
    · exact Symbol.within_of_other (by rw [hst]; nofun) (by rw [hst]; nofun)

/-- What a name is in the outermost scope has a slot below the count. -/
theorem lt_globalSlots {inner : SymbolScope} {outer : List SymbolScope} (h : Chained inner outer)
    (hs : lastSymbol? name (inner :: outer) = some symbol) (hg : symbol.storage = .globalSlot) :
    symbol.index < globalSlots inner outer := by
  induction outer generalizing inner with
  | nil =>
    rcases h.storage name symbol hs with ⟨_, hlt, _⟩ | ⟨hst, _⟩
    · exact hlt
    · rw [hg] at hst
      cases hst
  | cons next rest ih => exact ih h.2 hs

theorem Sound.within_of_resolve (h : table.Sound) (hr : table.resolve name = some (symbol, later)) :
    symbol.Within later.filled := by
  obtain ⟨hsound, hgrows, hfound⟩ := resolve_sound h hr
  cases hshared : symbol.storage.isShared with
  | false => exact hsound.within_of_own (hfound.own hshared)
  | true =>
    obtain ⟨_, hlast⟩ := resolveFrom_shared h hr hshared
    rw [filled_of_grows (.cons hgrows.inner hgrows.outer)]
    exact ⟨lt_globalSlots h hlast, fun hl => by rw [hl] at hshared; cases hshared⟩

theorem slots_define (h : table.Sound) (hd : table.define name = (symbol, later)) :
    later.inner.slots = Filled.upTo symbol.index table.inner.slots := by
  have hlt := (h.defines hd).index_lt h
  obtain ⟨inner, outer⟩ := table
  simp only [define, SymbolScope.define] at hd
  split at hd
  · cases hd
    exact (if_neg (Nat.ne_of_lt hlt)).symm
  · cases hd
    exact (if_pos rfl).symm

/-- The slot that a `let` writes is one more, or one that was written before. -/
theorem fills_define (h : table.Sound) (hd : table.define name = (symbol, later)) :
    later.filled = if symbol.storage = .globalSlot
      then { table.filled with globals := Filled.upTo symbol.index table.filled.globals }
      else { table.filled with locals := Filled.upTo symbol.index table.filled.locals } := by
  have hslots := slots_define h hd
  have hdef := h.defines hd
  rw [hdef.storage_eq]
  obtain ⟨inner, outer⟩ := table
  obtain ⟨inner', outer'⟩ := later
  obtain rfl : outer' = outer := hdef.outer_eq
  cases outer' with
  | nil => exact congrArg (Filled.mk · 0) hslots
  | cons next rest => exact congrArg (Filled.mk (globalSlots next rest)) hslots

end SymbolTable

/-! ### Stretches of code -/

/-- Code that goes on with the second slots written behind the stretch may go through it with the
first ones written. -/
def Site.Passes (site : Site) (limit : Nat) (before after : Filled) (p q : Nat) : Prop :=
  Assigned site.pool site.code limit q after → Assigned site.pool site.code limit p before

namespace Site

variable {site : Site} {limit p m q : Nat} {before after filled : Filled}

theorem Passes.trans {between : Filled} (h : site.Passes limit before between p m)
    (k : site.Passes limit between after m q) : site.Passes limit before after p q :=
  fun hn => h (k hn)

/-- An instruction behind a stretch that is neither a jump nor a closure. -/
theorem Passes.andThen {instruction : Instruction} (h : site.Passes limit before after p m)
    (hat : site.code.Holds m instruction) (hne : instruction.opcode ≠ .closure)
    (hr : instruction.ReadsWithin after)
    (hset : instruction.opcode = .setGlobal → instruction.operand 0 < limit)
    (hs : instruction.successors m = [m + instruction.size]) :
    site.Passes limit before (instruction.fills after) p (m + instruction.size) :=
  fun hn => h (.before hat hne hr hset hs hn)

theorem Passes.instruction {instruction : Instruction} (hat : site.code.Holds p instruction)
    (hne : instruction.opcode ≠ .closure) (hr : instruction.ReadsWithin filled)
    (hset : instruction.opcode = .setGlobal → instruction.operand 0 < limit)
    (hs : instruction.successors p = [p + instruction.size]) :
    site.Passes limit filled (instruction.fills filled) p (p + instruction.size) :=
  Assigned.before hat hne hr hset hs

theorem Passes.binary {op : BinaryOp} (h : site.Passes limit before after p m)
    (hat : site.code.Holds m ⟨Compile.opcodeOfBinary op, []⟩) :
    site.Passes limit before after p (m + 1) := by
  cases op <;> exact h.andThen hat nofun trivial nofun rfl

theorem Passes.unary {op : UnaryOp} (h : site.Passes limit before after p m)
    (hat : site.code.Holds m ⟨Compile.opcodeOfUnary op, []⟩) :
    site.Passes limit before after p (m + 1) := by
  cases op <;> exact h.andThen hat nofun trivial nofun rfl

/-! ### Constructs with jumps -/

theorem Passes.and (hl : site.Passes limit filled filled p m)
    (hat₁ : site.code.Holds m ⟨.jumpNotTruthy, [q + 7]⟩)
    (hr : site.Passes limit filled filled (m + 3) q)
    (hat₂ : site.code.Holds q ⟨.jumpNotTruthy, [q + 7]⟩)
    (hat₃ : site.code.Holds (q + 3) ⟨.pushTrue, []⟩)
    (hat₄ : site.code.Holds (q + 4) ⟨.jump, [q + 8]⟩)
    (hat₅ : site.code.Holds (q + 7) ⟨.pushFalse, []⟩) :
    site.Passes limit filled filled p (q + 8) := fun hn =>
  have hfalse := Assigned.before hat₅ nofun trivial nofun rfl hn
  have htrue := Assigned.before hat₃ nofun trivial nofun rfl (.jump hat₄ hn)
  hl (.fork hat₁ (hr (.fork hat₂ htrue hfalse)) hfalse)

theorem Passes.or (hl : site.Passes limit filled filled p m)
    (hat₁ : site.code.Holds m ⟨.jumpNotTruthy, [m + 7]⟩)
    (hat₂ : site.code.Holds (m + 3) ⟨.pushTrue, []⟩)
    (hat₃ : site.code.Holds (m + 4) ⟨.jump, [q + 8]⟩)
    (hr : site.Passes limit filled filled (m + 7) q)
    (hat₄ : site.code.Holds q ⟨.jumpNotTruthy, [q + 7]⟩)
    (hat₅ : site.code.Holds (q + 3) ⟨.pushTrue, []⟩)
    (hat₆ : site.code.Holds (q + 4) ⟨.jump, [q + 8]⟩)
    (hat₇ : site.code.Holds (q + 7) ⟨.pushFalse, []⟩) :
    site.Passes limit filled filled p (q + 8) := fun hn =>
  have hfalse := Assigned.before hat₇ nofun trivial nofun rfl hn
  have htrue := Assigned.before hat₅ nofun trivial nofun rfl (.jump hat₆ hn)
  have hfirst := Assigned.before hat₂ nofun trivial nofun rfl (.jump hat₃ hn)
  hl (.fork hat₁ hfirst (hr (.fork hat₄ htrue hfalse)))

theorem Passes.choice {n : Nat} (hc : site.Passes limit filled filled p m)
    (hat₁ : site.code.Holds m ⟨.jumpNotTruthy, [n + 3]⟩)
    (ha : site.Passes limit filled filled (m + 3) n) (hat₂ : site.code.Holds n ⟨.jump, [q]⟩)
    (hb : site.Passes limit filled filled (n + 3) q) : site.Passes limit filled filled p q :=
  fun hn => hc (.fork hat₁ (ha (.jump hat₂ hn)) (hb hn))

end Site

section
variable {site : Site} {limit p q : Nat} {filled : Filled}

theorem Loads.passes {symbol : Symbol} (h : Loads site symbol p q) (hw : symbol.Within filled) :
    site.Passes limit filled filled p q := by
  cases h with
  | global hst _ hat => exact .instruction hat nofun (hw.1 hst) nofun rfl
  | slot hst _ hat => exact .instruction hat nofun (hw.2 hst) nofun rfl
  | builtin _ _ _ hat => exact .instruction hat nofun trivial nofun rfl
  | captured _ _ _ hat => exact .instruction hat nofun trivial nofun rfl
  | self _ _ hat => exact .instruction hat nofun trivial nofun rfl

theorem LoadsAll.passes {symbols : List Symbol} (h : LoadsAll site p symbols q)
    (hw : ∀ symbol ∈ symbols, symbol.Within filled) : site.Passes limit filled filled p q := by
  induction h with
  | nil => exact id
  | cons hone _ ih =>
    exact (hone.passes (hw _ List.mem_cons_self)).trans
      (ih fun symbol hm => hw symbol (List.mem_cons_of_mem _ hm))

end

/-! ### The layout rules -/

theorem areDirectStmts_of_block {statements : List Stmt} (h : areDirectInBlock statements = true) :
    areDirectStmts statements = true := by
  induction statements with
  | nil => rfl
  | cons statement rest ih => cases statement <;> simp_all [areDirectInBlock, areDirectStmts]

open SymbolTable

mutual

/-- The code of an expression reads the slots that the table knows. -/
theorem ExprAt.passes {tree : Expr} {site : Site} {t t' : SymbolTable} {limit p q : Nat}
    (hat : ExprAt site t p tree t' q) (hs : tree.isDirect = true) (h : t.Sound)
    (hle : t.filled.globals ≤ limit) : site.Passes limit t.filled t.filled p q := by
  match hat with
  | .integer _ _ hi | .string _ _ hi => exact .instruction hi nofun trivial nofun rfl
  | @ExprAt.boolean _ _ _ value _ hi =>
    cases value <;> exact .instruction hi nofun trivial nofun rfl
  | .ident hr hl =>
    obtain ⟨_, hgrows, _⟩ := resolve_sound h hr
    have hwithin := h.within_of_resolve hr
    rw [filled_of_grows (.cons hgrows.inner hgrows.outer)] at hwithin
    exact hl.passes hwithin
  | .unary ho hi => exact (ho.passes hs h hle).unary hi
  | .bump ho _ _ hi hi' =>
    exact ((ho.passes hs h hle).andThen hi nofun trivial nofun rfl).binary hi'
  | .binary hl hr hi =>
    rw [Expr.isDirect, Bool.and_eq_true] at hs
    have hleft := hl.adds hs.1 h
    have hright := hr.passes hs.2 hleft.sound (hleft.room hle)
    rw [hleft.filled_eq] at hright
    exact ((hl.passes hs.1 h hle).trans hright).binary hi
  | .and hl hi₁ hr hi₂ hi₃ hi₄ hi₅ =>
    rw [Expr.isDirect, Bool.and_eq_true] at hs
    have hleft := hl.adds hs.1 h
    have hright := hr.passes hs.2 hleft.sound (hleft.room hle)
    rw [hleft.filled_eq] at hright
    exact (hl.passes hs.1 h hle).and hi₁ hright hi₂ hi₃ hi₄ hi₅
  | .or hl hi₁ hi₂ hi₃ hr hi₄ hi₅ hi₆ hi₇ =>
    rw [Expr.isDirect, Bool.and_eq_true] at hs
    have hleft := hl.adds hs.1 h
    have hright := hr.passes hs.2 hleft.sound (hleft.room hle)
    rw [hleft.filled_eq] at hright
    exact (hl.passes hs.1 h hle).or hi₁ hi₂ hi₃ hright hi₄ hi₅ hi₆ hi₇
  | .ifThen hc hi₁ hb hi₂ hi₃ =>
    rw [Expr.isDirect, Bool.and_eq_true] at hs
    have hcondition := hc.adds hs.1 h
    have hblock := hb.adds hs.2 hcondition.sound
    have hthen := hb.passes (areDirectStmts_of_block hs.2) hcondition.sound
      (hblock.room (hcondition.room hle)) rfl
    rw [hblock.filled_eq, hcondition.filled_eq] at hthen
    exact (hc.passes hs.1 h hle).choice hi₁ hthen hi₂ (.instruction hi₃ nofun trivial nofun rfl)
  | .ifElse hc hi₁ hb hi₂ hb' =>
    rw [Expr.isDirect, Bool.and_eq_true, Bool.and_eq_true] at hs
    have hcondition := hc.adds hs.1 h
    have hfirst := hb.adds hs.2.1 hcondition.sound
    have hsecond := hb'.adds hs.2.2 hfirst.sound
    have hthen := hb.passes (areDirectStmts_of_block hs.2.1) hcondition.sound
      (hfirst.room (hcondition.room hle)) rfl
    have helse := hb'.passes (areDirectStmts_of_block hs.2.2) hfirst.sound
      (hsecond.room (hfirst.room (hcondition.room hle))) rfl
    rw [hfirst.filled_eq, hcondition.filled_eq] at hthen
    rw [hsecond.filled_eq, hfirst.filled_eq, hcondition.filled_eq] at helse
    exact (hc.passes hs.1 h hle).choice hi₁ hthen hi₂ helse
  | @ExprAt.function _ _ t₁ t' _ _ name parameters _ _ _ _ _ compiled
      _ hb _ hpool _ _ hcaptures _ hl hloads _ hp hi =>
    rw [Expr.isDirect] at hs
    have hopened := sound_opened h name parameters
    obtain ⟨hsound, hw⟩ := hb.widens hs hopened
    have hadds := hw.adds_of_opened h hsound hl fun _ hn _ _ => hn
    have hbody := hb.returns hs hopened (Nat.le_of_eq hw.globals_eq_of_opened) rfl
    rw [hpool] at hbody
    have hlocals : Assigned site.pool compiled.code t.filled.globals 0
        ⟨t.filled.globals, parameters.length⟩ :=
      hbody.moreLocals (globals_opened t name parameters).symm (locals_opened_le t name parameters)
    have hwithin : ∀ symbol ∈ compiled.captures, symbol.Within t.filled := fun symbol hm => by
      rw [hcaptures] at hm
      rw [← hadds.filled_eq]
      exact hadds.sound.within_of_own (captures_of_leave hsound hl hm).1
    exact fun hn => hloads.passes hwithin (.closure hi hp hlocals hn)
  | .array _ he hi => exact (he.passes hs h hle).andThen hi nofun trivial nofun rfl
  | .hash _ he hi => exact (he.passes hs h hle).andThen hi nofun trivial nofun rfl
  | .call _ hc ha hi =>
    rw [Expr.isDirect, Bool.and_eq_true] at hs
    have hcallee := hc.adds hs.1 h
    have harguments := ha.passes hs.2 hcallee.sound (hcallee.room hle)
    rw [hcallee.filled_eq] at harguments
    exact ((hc.passes hs.1 h hle).trans harguments).andThen hi nofun trivial nofun rfl
  | .index hc hk hi =>
    rw [Expr.isDirect, Bool.and_eq_true] at hs
    have hcollection := hc.adds hs.1 h
    have hkey := hk.passes hs.2 hcollection.sound (hcollection.room hle)
    rw [hcollection.filled_eq] at hkey
    exact ((hc.passes hs.1 h hle).trans hkey).andThen hi nofun trivial nofun rfl

theorem ExprsAt.passes {items : List Expr} {site : Site} {t t' : SymbolTable} {limit p q : Nat}
    (hat : ExprsAt site t p items t' q) (hs : areDirectExprs items = true) (h : t.Sound)
    (hle : t.filled.globals ≤ limit) : site.Passes limit t.filled t.filled p q := by
  match hat with
  | .nil => exact id
  | .cons hi hr =>
    rw [areDirectExprs, Bool.and_eq_true] at hs
    have hitem := hi.adds hs.1 h
    have hrest := hr.passes hs.2 hitem.sound (hitem.room hle)
    rw [hitem.filled_eq] at hrest
    exact (hi.passes hs.1 h hle).trans hrest

theorem EntriesAt.passes {pairs : List (Expr × Expr)} {site : Site} {t t' : SymbolTable}
    {limit p q : Nat} (hat : EntriesAt site t p pairs t' q) (hs : areDirectEntries pairs = true)
    (h : t.Sound) (hle : t.filled.globals ≤ limit) :
    site.Passes limit t.filled t.filled p q := by
  match hat with
  | .nil => exact id
  | .cons hk hv hr =>
    rw [areDirectEntries, Bool.and_eq_true, Bool.and_eq_true] at hs
    have hkey := hk.adds hs.1 h
    have hvalue := hv.adds hs.2.1 hkey.sound
    have hsecond := hv.passes hs.2.1 hkey.sound (hkey.room hle)
    have hrest := hr.passes hs.2.2 hvalue.sound (hvalue.room (hkey.room hle))
    rw [hkey.filled_eq] at hsecond
    rw [hvalue.filled_eq, hkey.filled_eq] at hrest
    exact (hk.passes hs.1 h hle).trans (hsecond.trans hrest)

/-- Behind a statement the slot that it binds has been written too. -/
theorem StmtAt.passes {statement : Stmt} {rest : List Stmt} {site : Site} {t t' : SymbolTable}
    {limit p q : Nat} (hat : StmtAt site t p statement t' q)
    (hs : areDirectStmts (statement :: rest) = true) (h : t.Sound)
    (hle : t'.filled.globals ≤ limit) : site.Passes limit t.filled t'.filled p q := by
  obtain ⟨hsound, hw, _⟩ := hat.widens hs h
  have hmore := Nat.le_trans hw.globals_le hle
  match hat with
  | .bindGlobal he hd hst _ hi =>
    rw [areDirectStmts, Bool.and_eq_true] at hs
    have hvalue := he.adds hs.1 h
    have hbound := (hvalue.sound.defines hd).symbols
    have hwithin := hsound.within_of_own ((hbound _).trans (if_pos rfl))
    rw [fills_define hvalue.sound hd, if_pos hst, hvalue.filled_eq]
    exact (he.passes hs.1 h hmore).andThen hi nofun trivial
      (fun _ => Nat.lt_of_lt_of_le (hwithin.1 hst) hle) rfl
  | .bindLocal he hd hst _ hi =>
    rw [areDirectStmts, Bool.and_eq_true] at hs
    have hvalue := he.adds hs.1 h
    rw [fills_define hvalue.sound hd, hst, if_neg nofun, hvalue.filled_eq]
    exact (he.passes hs.1 h hmore).andThen hi nofun trivial nofun rfl
  | .ret he hi =>
    rw [areDirectStmts, Bool.and_eq_true] at hs
    exact fun _ => he.passes hs.1 h hmore (.last hi (.inl rfl))
  | .retNull hi => exact fun _ => .last hi (.inr rfl)
  | .expr he hi =>
    rw [areDirectStmts, Bool.and_eq_true] at hs
    rw [(he.adds hs.1 h).filled_eq]
    exact (he.passes hs.1 h hmore).andThen hi nofun trivial nofun rfl

/-- A block that leaves its value. -/
theorem TailAt.passes {statements : List Stmt} {closing : Closing} {site : Site}
    {t t' : SymbolTable} {limit p q : Nat} (hat : TailAt closing site t p statements t' q)
    (hs : areDirectStmts statements = true) (h : t.Sound) (hle : t'.filled.globals ≤ limit)
    (hc : closing = .leaves) : site.Passes limit t.filled t'.filled p q := by
  match hat with
  | .nil hi =>
    subst hc
    exact .instruction hi nofun trivial nofun rfl
  | .bind hst hi =>
    subst hc
    exact (hst.passes hs h hle).andThen hi nofun trivial nofun rfl
  | .ret hst | .retNull hst => exact hst.passes hs h hle
  | .value he =>
    rw [areDirectStmts, Bool.and_eq_true] at hs
    rw [(he.adds hs.1 h).filled_eq] at hle ⊢
    exact he.passes hs.1 h hle
  | .result _ _ => cases hc
  | .cons hst hrest =>
    have hsound := (hst.widens hs h).1
    have hless := (hrest.widens (areDirectStmts_rest hs) hsound).2.globals_le
    exact (hst.passes hs h (Nat.le_trans hless hle)).trans
      (hrest.passes (areDirectStmts_rest hs) hsound hle hc)

/-- The body of a function. -/
theorem TailAt.returns {statements : List Stmt} {closing : Closing} {site : Site}
    {t t' : SymbolTable} {limit p q : Nat} (hat : TailAt closing site t p statements t' q)
    (hs : areDirectStmts statements = true) (h : t.Sound) (hle : t'.filled.globals ≤ limit)
    (hc : closing = .returns) : Assigned site.pool site.code limit p t.filled := by
  match hat with
  | .nil hi =>
    subst hc
    exact .last hi (.inr rfl)
  | .bind hst hi =>
    subst hc
    exact hst.passes hs h hle (.last hi (.inr rfl))
  | .ret (.ret he hi) =>
    rw [areDirectStmts, Bool.and_eq_true] at hs
    rw [(he.adds hs.1 h).filled_eq] at hle
    exact he.passes hs.1 h hle (.last hi (.inl rfl))
  | .retNull (.retNull hi) => exact .last hi (.inr rfl)
  | .value _ => cases hc
  | .result he hi =>
    rw [areDirectStmts, Bool.and_eq_true] at hs
    rw [(he.adds hs.1 h).filled_eq] at hle
    exact he.passes hs.1 h hle (.last hi (.inl rfl))
  | .cons hst hrest =>
    have hsound := (hst.widens hs h).1
    have hless := (hrest.widens (areDirectStmts_rest hs) hsound).2.globals_le
    exact hst.passes hs h (Nat.le_trans hless hle)
      (hrest.returns (areDirectStmts_rest hs) hsound hle hc)

end

/-! ### Whole units -/

/-- The statements of a program write what they bind. The globals that are known only grow. -/
theorem StmtsAt.passes {statements : List Stmt} {site : Site} {t t' : SymbolTable} {p q : Nat}
    (hat : StmtsAt site t p statements t' q) (hs : areDirectStmts statements = true)
    (h : t.Sound) : t.filled.globals ≤ t'.filled.globals ∧
      ∀ limit, t'.filled.globals ≤ limit → site.Passes limit t.filled t'.filled p q := by
  induction hat with
  | nil => exact ⟨Nat.le_refl _, fun _ _ => id⟩
  | cons hst _ ih =>
    obtain ⟨hsound, hw, _⟩ := hst.widens hs h
    obtain ⟨hmore, hrest⟩ := ih (areDirectStmts_rest hs) hsound
    exact ⟨Nat.le_trans hw.globals_le hmore, fun limit hle =>
      (hst.passes hs h (Nat.le_trans hmore hle)).trans (hrest limit hle)⟩

theorem SymbolTable.filled_of_isGlobal {table : SymbolTable} (h : table.isGlobal = true) :
    table.filled = ⟨table.inner.slots, 0⟩ := by
  obtain ⟨inner, outer⟩ := table
  cases outer with
  | nil => rfl
  | cons next rest => cases h

/-- With all slots written that were known before the unit, its code writes every other slot before
it reads it, and has written all that are known behind the unit when it passes its end. -/
theorem Compiler.Ready.assigned {compiler later : Compiler} {tree : Program} {unit : Bytecode}
    (h : compiler.Ready) (hy : compiler.Yields tree unit later) (hd : tree.isDirect = true) :
    compiler.symbols.inner.slots ≤ later.symbols.inner.slots ∧
      Assigned unit.constants unit.code later.symbols.inner.slots 0
        ⟨compiler.symbols.inner.slots, 0⟩ := by
  obtain ⟨hmore, hpasses⟩ := hy.laid.passes hd h.symbols
  rw [filled_of_isGlobal h.isGlobal, filled_of_isGlobal hy.ready.isGlobal] at hpasses
  rw [filled_of_isGlobal h.isGlobal, filled_of_isGlobal hy.ready.isGlobal] at hmore
  exact ⟨hmore, hpasses _ (Nat.le_refl _) (.done (Nat.le_refl _))⟩

end Simian
