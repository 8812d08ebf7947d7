import Simian.Proofs.CallAgreement
import Simian.Session

/-!
# Programs beside the evaluator

A program runs statement after statement like a function body, but all functions share
its names. A `let` gives its name a slot of the globals, the same one as before if the
program has bound the name already, and no literal has closed over a name before the
program bound it. So what a name of the program means to a function stays what it is.
In the end both engines have the same value, or the same error.
-/
namespace Simian

open Scene

/-! ### Binding a name of the program -/

theorem getElem?_padded (slots : List Value) (index k : Nat) (value : Value) :
    (((slots ++ List.replicate (index + 1 - slots.length) Value.null).set index value)[k]?).getD
      .null = if k = index then value else (slots[k]?).getD .null := by
  rw [List.getElem?_set]
  by_cases hk : k = index
  · subst hk
    rw [if_pos rfl, if_pos rfl, if_pos (by simp; omega)]
    rfl
  · rw [if_neg (Ne.symm hk), if_neg hk, List.getElem?_append]
    split
    · rfl
    · rw [List.getElem?_replicate, List.getElem?_eq_none (by omega)]
      split <;> rfl

/-- Writing a slot changes that slot only. -/
theorem Globals.set_eq_ok {globals : Globals} {index : Nat} (h : index < globals.capacity)
    (value : Value) : ∃ later, Globals.set index value globals = (.ok (), later) ∧
      later.capacity = globals.capacity ∧
      ∀ k, later.get k = if k = index then .ok value else globals.get k := by
  obtain ⟨slots, capacity⟩ := globals
  have hcap : ¬capacity ≤ index := Nat.not_le_of_lt h
  refine ⟨⟨(slots ++ List.replicate (index + 1 - slots.size) Value.null).setIfInBounds index value,
    capacity⟩, by simp only [Globals.set, if_neg hcap], rfl, fun k => ?_⟩
  have hslots := getElem?_padded slots.toList index k value
  rw [Array.length_toList, ← Array.toList_appendList, ← Array.toList_setIfInBounds,
    Array.getElem?_toList, Array.getElem?_toList] at hslots
  unfold get
  dsimp only
  rw [hslots]
  by_cases hk : k = index
  · rw [if_pos hk, if_pos hk, if_neg (hk ▸ hcap)]
  · rw [if_neg hk, if_neg hk]

theorem Snapshot.execute_setGlobal {s : Snapshot} {frame : Frame} {index : Nat}
    {front : List Value} {value : Value} {globals : Globals} (h : s.values = front ++ [value])
    (hset : Globals.set index value s.globals = (.ok (), globals)) :
    s.execute frame ⟨.setGlobal, [index]⟩ = .goes { s with values := front, globals } := by
  have hoperand : Globals.set (Instruction.operand ⟨.setGlobal, [index]⟩ 0) s.top s.globals =
      (.ok (), globals) := by
    rw [top_of_values h]
    exact hset
  simp only [execute, hoperand]
  rw [dropped_of_values h]
  rfl

/-- A name of the program that has a slot keeps it. -/
theorem SymbolTable.define_eq_of_global {table : SymbolTable} {name : String} {symbol : Symbol}
    (hg : table.isGlobal = true) (hs : table.inner.symbols[name]? = some symbol)
    (hst : symbol.storage = .globalSlot) : (table.define name).1 = symbol := by
  unfold define SymbolScope.define
  rw [hg, hs]
  simp [Option.filter, hst]

/-- What a name means is the same behind a binding of another name. -/
theorem Symbol.Means.rebind {symbol : Symbol} {name other : String} {made : List Made}
    {scopes : Scopes} {globals later : Globals} {index : Nat} {value slot : Value}
    (h : symbol.Means name made scopes globals) (hlt : 0 < scopes.scopes.size)
    (hne : other ≠ name) (hindex : symbol.storage = .globalSlot → symbol.index ≠ index)
    (hget : ∀ k, later.get k = if k = index then .ok slot else globals.get k) :
    symbol.Means name made (scopes.set 0 other value) later := by
  have hbound : (scopes.set 0 other value).bound? 0 name = scopes.bound? 0 name := by
    rw [Scopes.bound?_set _ hlt, if_neg fun he => hne he.2]
  cases h with
  | slot hst hb hg ha =>
    exact .slot hst (hbound.trans hb) (by rw [hget, if_neg (hindex hst), hg]) ha
  | builtin hst hb hi hn => exact .builtin hst (hbound.trans hb) hi hn

/-- Names may come to mean something else, and other names to be settled, if what is settled
already stays what it is. -/
theorem Joint.Valid.rebind {setting later : Setting} {j : Joint} {scopes : Scopes}
    {globals : Globals} (h : j.Valid setting) (hpool : later.pool = setting.pool)
    (hbounds : later.bounds = setting.bounds)
    (hnames : ∀ name symbol, later.names name = some symbol →
      symbol.Means name j.made scopes globals)
    (hpinned : ∀ name, setting.pinned name →
      later.names name = setting.names name ∧ later.pinned name)
    (hordered : scopes.Ordered) (hsupported : ∀ m ∈ j.made, m.Supported setting j.made scopes) :
    Joint.Valid later
      ⟨j.made, { j.evaluator with scopes }, { j.machine with globals }⟩ where
  nextId := h.nextId
  nextId_machine := h.nextId_machine
  sink := h.sink
  sink_machine := h.sink_machine
  constants := h.constants.trans hpool.symm
  bounds := h.bounds.trans hbounds.symm
  ordered := hordered
  names := hnames
  ids := h.ids
  supported := fun m hm =>
    have hs := hsupported m hm
    { hs with
      laid := by
        rw [hpool, Setting.maxDepth, hbounds]
        exact hs.laid
      shared := fun name hn he => by
        obtain ⟨hlast, hp⟩ := hs.shared name hn he
        obtain ⟨hsame, hp⟩ := hpinned name hp
        exact ⟨hlast.trans hsame.symm, hp⟩ }

/-! ### Between two statements -/

/-- The names of the program are those of the table. Names that it has bound, and names that
literals have closed over before it did, keep their symbols. -/
def Setting.ofTable (pool : Array Value) (bounds : Bounds) (table : SymbolTable)
    (bound closed : List String) : Setting where
  pool := pool
  bounds := bounds
  names := fun name => table.inner.symbols[name]?
  pinned := fun name => name ∈ bound ∨ name ∈ closed

/-- The unit itself as a call that nobody has made. -/
def Bytecode.activation (unit : Bytecode) (id : Nat) : Activation where
  id := id
  body := ⟨some "<main>", unit.code, 0, 0⟩
  captured := []
  rest := []
  low := []
  site := unit.site
  code_eq := rfl
  scope := 0
  owner := none

/-- The program stands between two statements. -/
structure Bytecode.Between (unit : Bytecode) (id : Nat) (bounds : Bounds)
    (bound closed : List String) (table : SymbolTable) (ip : Nat) (j : Joint) : Prop where
  between : ∃ taken, (unit.activation id).Between
    (.ofTable unit.constants bounds table bound closed) j taken table [] ip j
  capacity : j.machine.globals.capacity = maxGlobals
  slots : ∀ name ∈ bound, ∃ symbol, table.inner.symbols[name]? = some symbol ∧
    symbol.storage = .globalSlot

/-- The next step of the machine ends the program, with the evaluator's value if that is shown. -/
def Joint.Ends (pool : Array Value) (maxDepth : Nat) (shown : Prop) (value : Value) (j : Joint) :
    Prop :=
  (∀ m ∈ j.made, m.Laid pool maxDepth) ∧
    ∃ after, j.machine.step = .ends after ∧ (shown → j.Alike value after.lastPopped)

namespace Bytecode

variable {unit : Bytecode} {id : Nat} {bounds : Bounds} {bound closed more : List String}
  {table later : SymbolTable} {ip next : Nat} {j j' : Joint} {value : Value} {shown : Prop}

/-- A unit finds its names in the outermost scope. -/
theorem finds_unit {setting : Setting} {made : List Made} {scopes : Scopes} {slots : List Value}
    (h : (unit.activation id).Finds setting made scopes table slots) :
    table.outer = [] ∧ (∀ name : String, table.inner.symbols[name]? = setting.names name) ∧
      slots = [] := by
  cases h with
  | unit _ _ houter hnames hslots => exact ⟨houter, hnames, hslots⟩
  | call ho => cases ho

namespace Between

theorem scope_lt (h : unit.Between id bounds bound closed table ip j) :
    0 < j.scopes.scopes.size :=
  h.between.elim fun _ hb => hb.scope_lt

theorem valid (h : unit.Between id bounds bound closed table ip j) :
    j.Valid (.ofTable unit.constants bounds table bound closed) :=
  h.between.elim fun _ hb => hb.valid

/-- The scene of the next statement. -/
def scene (h : unit.Between id bounds bound closed table ip j) (more : List String) : Scene where
  setting := .ofTable unit.constants bounds table bound closed
  act := unit.activation id
  pool_eq := rfl
  start := j
  scope_lt := h.scope_lt
  closed := more
  slots := []

theorem stands (h : unit.Between id bounds bound closed table ip j) (more : List String) :
    (h.scene more).Stands table 0 ip [] j :=
  h.between.elim fun _ hb => hb.stands rfl more

/-- More names may be said to keep their symbols. -/
theorem close (h : unit.Between id bounds bound closed table ip j) (more : List String) :
    unit.Between id bounds bound (closed ++ more) table ip j := by
  obtain ⟨⟨taken, hb⟩, hcapacity, hslots⟩ := h
  have hvalid : j.Valid (.ofTable unit.constants bounds table bound (closed ++ more)) :=
    hb.valid.rebind rfl rfl hb.valid.names
      (fun name hp => ⟨rfl, hp.imp_right fun hm => List.mem_append_left _ hm⟩)
      hb.valid.ordered hb.valid.supported
  obtain ⟨houter, hnames, hempty⟩ := finds_unit hb.finds
  exact ⟨⟨taken, hvalid, .unit rfl rfl houter hnames hempty, hb.sound, hb.depth, hb.calls,
    hb.frames, hb.values, hb.beyond, hb.direct⟩, hcapacity, hslots⟩

/-- Behind a statement that binds nothing. -/
theorem behind (h : unit.Between id bounds bound closed table ip j)
    (hs : (h.scene more).Stands later 0 next [] j') :
    unit.Between id bounds bound closed later next j' := by
  obtain ⟨houter, hnames, -⟩ := finds_unit hs.finds
  have hsetting : Setting.ofTable unit.constants bounds later bound closed =
      .ofTable unit.constants bounds table bound closed := by
    unfold Setting.ofTable
    congr 1
    exact funext hnames
  refine ⟨?_, (congrArg Globals.capacity hs.since.globals).trans h.capacity, fun name hn => ?_⟩
  · obtain ⟨taken, hb⟩ := h.between
    have hstands : (hb.scene rfl more).Stands later 0 next [] j' := hs
    have hbehind := hb.of_stands hstands
    rw [hsetting]
    exact ⟨_, hbehind.valid, hbehind.finds, hbehind.sound, hbehind.depth, hbehind.calls,
      hbehind.frames, hbehind.values, .refl _ _, hbehind.direct⟩
  · rw [hnames]
    exact h.slots name hn

/-- What ends the program leaves its value. -/
theorem ends (h : unit.Between id bounds bound closed table ip j)
    (hl : (h.scene more).Leaves value j') :
    Joint.Ends unit.constants bounds.maxDepth shown value j' := by
  obtain ⟨stop, extra, other, hv, hstep⟩ := hl.step
  exact ⟨fun m hm => (hl.valid.supported m hm).laid, _, hstep.trans rfl, fun _ => hv⟩

section
variable {symbol : Symbol} {name : String}

theorem sound (h : unit.Between id bounds bound closed table ip j) : table.Sound :=
  h.between.elim fun _ hb => hb.sound

theorem outer_eq (h : unit.Between id bounds bound closed table ip j) : table.outer = [] :=
  h.between.elim fun _ hb => (finds_unit hb.finds).1

theorem isGlobal (h : unit.Between id bounds bound closed table ip j) :
    table.isGlobal = true := by
  unfold SymbolTable.isGlobal
  rw [h.outer_eq]
  rfl

/-- A `let` gives its name a slot of the globals. -/
theorem storage_define (h : unit.Between id bounds bound closed table ip j)
    (hdef : table.define name = (symbol, later)) : symbol.storage = .globalSlot := by
  rw [(h.sound.defines hdef).storage_eq, h.isGlobal]
  rfl

/-- A `let` changes no symbol that is to stay. -/
theorem symbols_define (h : unit.Between id bounds bound closed table ip j)
    (hdef : table.define name = (symbol, later)) (hfree : name ∉ closed) {other : String}
    (hother : other ∈ bound ∨ other ∈ closed) :
    later.inner.symbols[other]? = table.inner.symbols[other]? := by
  rw [(h.sound.defines hdef).symbols]
  split
  next he =>
    subst he
    obtain ⟨found, hfound, hstorage⟩ := h.slots name (hother.resolve_right hfree)
    have hagain := SymbolTable.define_eq_of_global h.isGlobal hfound hstorage
    rw [hdef] at hagain
    rw [hfound, ← hagain]
  · rfl

/-- Behind a `let` all names mean on one engine what they mean on the other. -/
theorem means_define (h : unit.Between id bounds bound closed table ip j)
    (hdef : table.define name = (symbol, later)) (hlt : symbol.index < maxGlobals)
    {other : Value} (hv : j.Alike value other) {globals : Globals}
    (hget : ∀ k, globals.get k =
      if k = symbol.index then .ok other else j.machine.globals.get k)
    {n : String} {found : Symbol} (hn : later.inner.symbols[n]? = some found) :
    Symbol.Means found n j.made (j.scopes.set 0 name value) globals := by
  have hd := h.sound.defines hdef
  have hst := h.storage_define hdef
  have hown : later.inner.symbols[name]? = some symbol := by rw [hd.symbols, if_pos rfl]
  by_cases he : name = n
  · subst he
    cases hown.symm.trans hn
    exact .slot hst (by rw [Scopes.bound?_set _ h.scope_lt, if_pos ⟨rfl, rfl⟩])
      (by rw [hget, if_pos rfl]) hv
  · have hbefore := hd.symbols n
    rw [if_neg he, hn] at hbefore
    refine (h.valid.names n found hbefore.symm).rebind h.scope_lt he (fun hg hi => he ?_) hget
    have hsound := hd.sound h.sound fun _ => hlt
    obtain ⟨inner, outer⟩ := later
    obtain rfl : outer = [] := hd.outer_eq.trans h.outer_eq
    exact SymbolScope.Outermost.apart hsound name n symbol found hown hn hst hg hi.symm

end

/-- Behind the value of a `let` the evaluator binds the name and the machine fills its slot. -/
theorem bindGlobal {t₁ t' : SymbolTable} {symbol : Symbol} {name : String}
    {left : Value → Joint → Prop} (h : unit.Between id bounds bound closed table ip j)
    (hs : (h.scene more).Gives t₁ 0 next [] value j') (hdef : t₁.define name = (symbol, t'))
    (hlt : symbol.index < maxGlobals) (hload : unit.code.Holds next ⟨.setGlobal, [symbol.index]⟩)
    (hfree : name ∉ closed) :
    Joint.Agrees bounds.Apart left j' (Eval.bind 0 name value j'.evaluator) fun _ later =>
      unit.Between id bounds (name :: bound) closed t' (next + 3) later := by
  obtain ⟨other, hs⟩ := hs
  have hd := hs.sound.defines hdef
  have hbehind := h.behind (hs.moved (next + 3) (List.forall_mem_nil _) j'.machine.lastPopped)
  obtain ⟨globals, hset, hcapacity, hget⟩ := Globals.set_eq_ok
    (show symbol.index < j'.machine.globals.capacity from hbehind.capacity ▸ hlt) other
  have hstep := (hs.step_eq hload).trans (Snapshot.execute_setGlobal hs.values_concat hset)
  obtain ⟨taken, hb⟩ := hbehind.between
  have hvalid : Joint.Valid (.ofTable unit.constants bounds t' (name :: bound) closed) _ :=
    hb.valid.rebind rfl rfl (fun _ _ => hbehind.means_define hdef hlt hs.alike_last hget)
    (fun n hn => ⟨hbehind.symbols_define hdef hfree hn, hn.imp_left (List.mem_cons_of_mem _)⟩)
    (hb.valid.ordered.set 0 name value)
    (Activation.supported_set hb.valid.ordered hb.valid.supported fun _ _ _ hz => absurd rfl hz)
  refine .step hstep (.here ⟨j'.made, ⟨taken, hvalid, .unit rfl rfl
    (hd.outer_eq.trans hbehind.outer_eq) (fun _ => rfl) rfl, hd.sound hs.sound fun _ => hlt,
    hb.depth, hb.calls, rfl, rfl, .refl _ _, hb.direct⟩, hcapacity.trans hbehind.capacity,
    fun n hn => ?_⟩)
  rw [hd.symbols]
  split
  · exact ⟨symbol, rfl, hbehind.storage_define hdef⟩
  next hne =>
    exact hbehind.slots n ((List.mem_cons.mp hn).resolve_left fun he => hne he.symm)

end Between

end Bytecode

open Bytecode

/-! ### Statements -/

section
variable {call : Value → List Value → Eval Value} {unit : Bytecode} {id : Nat} {bounds : Bounds}
  {bound closed : List String} {t t' : SymbolTable} {p q : Nat} {j : Joint} {shown : Prop}

/-- The value of a statement of the program. -/
theorem ExprAt.ofProgram {tree : Expr} (hat : ExprAt unit.site t p tree t' q)
    (hcall : CallsAgree bounds (unit.activation id) call) (hs : tree.isSettled = true)
    (hd : tree.isDistinct = true)
    (hclosed : ∀ name ∈ tree.closed, name ∈ bound ∨ name ∈ closed)
    (hlevels : tree.nesting ≤ bounds.maxDepth)
    (h : unit.Between id bounds bound closed t p j) :
    Joint.Agrees bounds.Apart (Joint.Ends unit.constants bounds.maxDepth shown) j
      (Eval.expr call 0 tree j.evaluator)
      ((h.scene tree.closed).Gives t' 0 q []) := by
  have hadmits : (h.scene tree.closed).Admits 0 tree.free tree.closed tree.nesting :=
    ⟨fun _ _ _ ho => (by cases ho), fun _ hn => hn, fun _ => hclosed, by
      show 0 + tree.nesting ≤ bounds.maxDepth
      omega⟩
  exact (hat.agrees hcall (c := h.scene tree.closed) rfl hs hd hadmits (h.stands _)).imp_left
    fun _ _ => h.ends

/-- A statement of the program. One that binds nothing has a value, which the machine has taken
off the stack. -/
theorem StmtAt.ofProgram {statement : Stmt} {rest : List Stmt}
    (hat : StmtAt unit.site t p statement t' q)
    (hcall : CallsAgree bounds (unit.activation id) call)
    (hs : areSettledAtTop bound closed (statement :: rest) = true)
    (hd : statement.isDistinct = true) (hlevels : statement.nesting ≤ bounds.maxDepth)
    (h : unit.Between id bounds bound closed t p j) :
    Joint.Agrees bounds.Apart (Joint.Ends unit.constants bounds.maxDepth shown) j
      (Eval.stmt call 0 statement j.evaluator)
      fun result later =>
        (∃ bound' closed', areSettledAtTop bound' closed' rest = true ∧
          unit.Between id bounds bound' closed' t' q later) ∧
        (statement.binds? = none →
          later.Alike (result.getD .null) later.machine.lastPopped ∧ result ≠ none) := by
  have hclosed : ∀ (value : Expr) (name : String), name ∈ value.closed → name ∈ bound ∨
      name ∈ closed ++ value.closed.filter (!bound.contains ·) := by
    intro value name hn
    by_cases hb : name ∈ bound
    · exact .inl hb
    · exact .inr (List.mem_append_right _ (List.mem_filter.mpr ⟨hn, by simpa using hb⟩))
  have hclose : ∀ value : Expr, unit.Between id bounds bound
      (closed ++ value.closed.filter (!bound.contains ·)) t p j := fun value => h.close _
  match hat with
  | .bindGlobal he hdef hst hi hload =>
    rw [areSettledAtTop, Bool.and_eq_true, Bool.and_eq_true] at hs
    rw [Eval.stmt]
    refine (he.ofProgram hcall hs.1 hd (hclosed _) hlevels (hclose _)).bind ?_
    intro value j' hgives
    have hfree := hs.2.1
    rw [Bool.not_eq_true', List.contains_eq_mem, decide_eq_false_iff_not] at hfree
    refine ((hclose _).bindGlobal hgives hdef hi hload hfree).bind ?_
    intro _ later hbetween
    exact .here ⟨later.made, ⟨_, _, hs.2.2, hbetween⟩, fun hb => by cases hb⟩
  | .bindLocal he hdef hst _ _ =>
    rw [areSettledAtTop, Bool.and_eq_true, Bool.and_eq_true] at hs
    rw [Eval.stmt]
    refine (he.ofProgram hcall hs.1 hd (hclosed _) hlevels (hclose _)).bind ?_
    rintro value j' ⟨other, hstands⟩
    cases hst.symm.trans (((hclose _).behind (hstands.moved q (List.forall_mem_nil _)
      j'.machine.lastPopped)).storage_define hdef)
  | .ret he hret =>
    rw [areSettledAtTop, Bool.and_eq_true] at hs
    rw [Eval.stmt]
    refine (he.ofProgram hcall hs.1 hd (hclosed _) hlevels (hclose _)).bind ?_
    rintro value j' ⟨other, hstands⟩
    exact .here ⟨j'.made, (hclose _).ends (hstands.leaves hret)⟩
  | .retNull hret =>
    rw [Eval.stmt]
    exact .here ⟨j.made, h.ends ((h.stands []).leaves_null hret)⟩
  | .expr he hpop =>
    rw [areSettledAtTop, Bool.and_eq_true] at hs
    rw [Eval.stmt]
    refine (he.ofProgram hcall hs.1 hd (hclosed _) hlevels (hclose _)).bind ?_
    rintro value j' ⟨other, hstands⟩
    refine Snapshot.Meets.imp (hstands.drop hpop) ?_
    rintro s ⟨hlater, hlast⟩
    exact ⟨j'.made, ⟨_, _, hs.2, (hclose _).behind hlater⟩, fun _ =>
      ⟨hlast ▸ hstands.alike_last, Option.some_ne_none _⟩⟩

/-- The last statement shows its value, unless it is a `let`. -/
theorem showsValue_cons {statement : Stmt} {rest : List Stmt} (hrest : rest ≠ []) :
    Session.showsValue ⟨statement :: rest⟩ = Session.showsValue ⟨rest⟩ := by
  unfold Session.showsValue
  rw [List.getLast?_cons_of_ne_nil hrest]

theorem binds?_of_showsValue {statement : Stmt} (h : Session.showsValue ⟨[statement]⟩ = true) :
    statement.binds? = none := by
  cases statement with
  | bind => cases h
  | _ => rfl

/-- The statements of a program come to the same on both engines. -/
theorem StmtsAt.ofProgram {statements : List Stmt} (hat : StmtsAt unit.site t p statements t' q)
    (hcall : CallsAgree bounds (unit.activation id) call)
    (hs : areSettledAtTop bound closed statements = true)
    (hd : areDistinctStmts statements = true)
    (hlevels : nestingOfStmts statements ≤ bounds.maxDepth)
    (hend : unit.code.decode? q = none) (h : unit.Between id bounds bound closed t p j)
    {last : Value} (hlast : statements = [] → shown → j.Alike last j.machine.lastPopped)
    (hshown : statements ≠ [] → shown → Session.showsValue ⟨statements⟩ = true) :
    Joint.Agrees bounds.Apart (Joint.Ends unit.constants bounds.maxDepth shown) j
      (Eval.programStmts call last statements j.evaluator)
      (Joint.Ends unit.constants bounds.maxDepth shown) := by
  induction hat generalizing bound closed j last with
  | nil =>
    rw [Eval.programStmts]
    obtain ⟨taken, hb⟩ := h.between
    exact .here ⟨j.made, fun m hm => (hb.valid.supported m hm).laid, _,
      Snapshot.step_at_end hb.frames hend, hlast rfl⟩
  | @cons t t₁ t' p m q statement rest hst hrest ih =>
    rw [areDistinctStmts, Bool.and_eq_true] at hd
    rw [Eval.programStmts]
    refine (hst.ofProgram hcall hs hd.1 (Nat.le_trans (Nat.le_max_left _ _) hlevels) h).bind ?_
    rintro result later ⟨⟨bound', closed', hs', hbetween⟩, hvalue⟩
    refine ih hs' hd.2 (Nat.le_trans (Nat.le_max_right _ _) hlevels) hend hbetween
      (fun he hsh => ?_) fun hne hsh => ?_
    · subst he
      obtain ⟨halike, hsome⟩ := hvalue (binds?_of_showsValue (hshown (List.cons_ne_nil _ _) hsh))
      cases result with
      | none => exact absurd rfl hsome
      | some value => exact halike
    · rw [← showsValue_cons hne]
      exact hshown (List.cons_ne_nil _ _) hsh

end

end Simian
