import Simian.Proofs.JointStates

/-!
# What keeps functions supported

Functions stay supported when scopes are opened and more functions are made. A look-up in
the running call gives what its slots and captured values have, and a function made there
is supported from the start: what the call itself has or has captured is what the table of
names says, and any other name belongs to the program.
-/
namespace Simian

open SymbolScope

namespace Snapshot

variable {s : Snapshot} {frame : Frame} {index : Nat} {value : Value}

theorem execute_constant (h : s.constants[index]? = some value) :
    s.execute frame ⟨.constant, [index]⟩ = s.push value := by
  have hoperand : s.constants[Instruction.operand ⟨.constant, [index]⟩ 0]? = some value := h
  simp only [execute, hoperand]

theorem execute_getGlobal (h : s.globals.get index = .ok value) :
    s.execute frame ⟨.getGlobal, [index]⟩ = s.push value := by
  have hoperand : s.globals.get (Instruction.operand ⟨.getGlobal, [index]⟩ 0) = .ok value := h
  simp only [execute, hoperand]

theorem execute_getLocal (h : s.values[frame.base + index]? = some value) :
    s.execute frame ⟨.getLocal, [index]⟩ = s.push value := by
  have hoperand : s.values[frame.base + Instruction.operand ⟨.getLocal, [index]⟩ 0]? =
    some value := h
  simp only [execute, hoperand, Option.getD_some]

theorem execute_getBuiltin {builtin : Builtin} (h : Builtin.ofIndex? index = some builtin) :
    s.execute frame ⟨.getBuiltin, [index]⟩ = s.push (.builtin builtin) := by
  have hoperand : Builtin.ofIndex? (Instruction.operand ⟨.getBuiltin, [index]⟩ 0) =
    some builtin := h
  simp only [execute, hoperand]

theorem execute_getFree (h : frame.captured[index]? = some value) :
    s.execute frame ⟨.getFree, [index]⟩ = s.push value := by
  have hoperand : frame.captured[Instruction.operand ⟨.getFree, [index]⟩ 0]? = some value := h
  simp only [execute, Frame.capture, hoperand]

theorem execute_closure {count id : Nat} {body : CompiledFunction}
    (h : s.constants[index]? = some (.compiled id body)) :
    s.execute frame ⟨.closure, [index, count]⟩ =
      ({ s.without count with nextId := s.nextId + 1 } : Snapshot).push
        (.closure s.nextId body (s.topValues count)) := by
  have hoperand : s.constants[Instruction.operand ⟨.closure, [index, count]⟩ 0]? =
    some (.compiled id body) := h
  simp only [execute, makeClosure, hoperand]
  rfl

end Snapshot

section
variable {setting : Setting} {made later : List Made} {scopes wider : Scopes}

/-- More functions and more scopes change nothing for a function that is there. -/
theorem Made.Supported.mono {m : Made} (h : m.Supported setting made scopes) (hm : made <+: later)
    (hs : ∀ k < scopes.scopes.size, wider.scopes[k]? = scopes.scopes[k]?)
    (hle : scopes.scopes.size ≤ wider.scopes.size) : m.Supported setting later wider where
  laid := h.laid
  scope_lt := Nat.lt_of_lt_of_le h.scope_lt hle
  kept := fun name hn => by
    have := h.scope_lt
    rw [Scopes.local?_congr fun k hk => hs k (by omega)]
    exact h.kept name hn
  owned := h.owned
  shared := h.shared
  around := by
    intro name hn hz
    obtain ⟨bindings, outer, hat, howner⟩ := h.around name hn hz
    refine ⟨bindings, outer, by rw [hs _ h.scope_lt, hat], fun hb => ?_⟩
    obtain ⟨owner, ho, hrest⟩ := howner hb
    exact ⟨owner, hm.subset ho, hrest⟩

theorem Scopes.bound?_congr {k : Nat} {name : String}
    (hs : wider.scopes[k]? = scopes.scopes[k]?) : wider.bound? k name = scopes.bound? k name := by
  unfold Scopes.bound?
  rw [hs]

theorem Symbol.Means.mono {symbol : Symbol} {name : String} {globals : Globals}
    (h : symbol.Means name made scopes globals) (hm : made <+: later)
    (hs : wider.scopes[0]? = scopes.scopes[0]?) : symbol.Means name later wider globals := by
  cases h with
  | slot hst hb hg ha =>
    exact .slot hst ((Scopes.bound?_congr hs).trans hb) hg
      (ha.mono fun _ _ _ => Made.making_mono hm)
  | builtin hst hb hi hn => exact .builtin hst ((Scopes.bound?_congr hs).trans hb) hi hn

theorem SameLocals.mono {tree : TreeFunction} {bindings : Std.ExtHashMap String Value}
    {scope : SymbolScope} {slots : List Value} {of more : Making}
    (h : SameLocals of tree bindings scope slots)
    (hm : ∀ tree body values, of tree body values → more tree body values) :
    SameLocals more tree bindings scope slots where
  slot := fun name symbol hs hst =>
    let ⟨value, other, hb, hat, ha⟩ := h.slot name symbol hs hst
    ⟨value, other, hb, hat, ha.mono hm⟩
  self := h.self
  other := h.other

/-- What a scope captures more does not change what it owns. -/
theorem SameLocals.grows {tree : TreeFunction} {bindings : Std.ExtHashMap String Value}
    {scope wider : SymbolScope} {slots : List Value} {of : Making}
    (h : SameLocals of tree bindings scope slots) (hg : scope.Grows wider) :
    SameLocals of tree bindings wider slots where
  slot := by
    intro name symbol hs hst
    rcases hg.added name symbol hs with hs | ⟨_, hc⟩
    · exact h.slot name symbol hs hst
    · rw [hst] at hc
      cases hc
  self := by
    intro name symbol hs hst
    rcases hg.added name symbol hs with hs | ⟨_, hc⟩
    · exact h.self name symbol hs hst
    · rw [hst] at hc
      cases hc
  other := fun name hn => h.other name fun ho => hn ((hg.owns_iff name).mpr ho)

theorem Activation.Finds.mono {act : Activation} {table : SymbolTable} {slots : List Value}
    (h : act.Finds setting made scopes table slots) (hm : made <+: later)
    (hs : wider.scopes[act.scope]? = scopes.scopes[act.scope]?) :
    act.Finds setting later wider table slots := by
  cases h with
  | unit ho hz houter hn hslots => exact .unit ho hz houter hn hslots
  | call ho hmem hsite hz hat hg ha hl hlength =>
    exact .call ho (hm.subset hmem) hsite hz (hs.trans hat) hg
      (ha.mono fun _ _ _ => Made.making_mono hm) (hl.mono fun _ _ _ => Made.making_mono hm) hlength

/-- The scope of the program gets nothing new, and the scopes around a call only captured names. -/
theorem Activation.Finds.grows {act : Activation} {table table' : SymbolTable} {slots : List Value}
    (h : act.Finds setting made scopes table slots) (hsound : table'.Sound)
    (hg : List.Forall₂ SymbolScope.Grows table.scopes table'.scopes) :
    act.Finds setting made scopes table' slots := by
  cases h with
  | unit ho hz houter hn hslots =>
    have hlast := lastSymbol?_eq hg rfl hsound
    obtain ⟨inner, outer⟩ := table
    obtain ⟨inner', outer'⟩ := table'
    cases hg with
    | cons _ hrest =>
      subst houter
      cases hrest
      exact .unit ho hz rfl (fun name => (hlast name).trans (hn name)) hslots
  | call ho hmem hsite hz hat hg' ha hl hlength =>
    obtain ⟨inner, outer⟩ := table
    obtain ⟨inner', outer'⟩ := table'
    cases hg with
    | cons hinner hrest =>
      exact .call ho hmem hsite hz hat (SymbolTable.forall₂_grows_trans hg' hrest) ha
        (hl.grows hinner) hlength

theorem Joint.Valid.getElem?_of_mem {j : Joint} (h : j.Valid setting) {m : Made} (hm : m ∈ j.made) :
    j.made[m.tree.id]? = some m := by
  obtain ⟨k, hk⟩ := List.getElem?_of_mem hm
  rw [h.ids k m hk, hk]

theorem Builtin.ofName?_name (builtin : Builtin) :
    Builtin.ofName? builtin.name = some builtin := by
  cases builtin <;> rfl

end

namespace Scene

/-- The name is bound in the scope of the call, or it is free in the literal of its function. -/
def Sees (c : Scene) (name : String) : Prop :=
  ∀ m, c.act.owner = some m →
    name ∈ m.free ∨ c.start.scopes.bound? c.act.scope name ≠ none

variable {c : Scene} {table : SymbolTable} {depth ip : Nat} {pending : List (Value × Value)}
  {j : Joint} {name : String}

section
variable {m : Made} {bindings : Std.ExtHashMap String Value}

/-- A look-up in a call ends in its own scope or goes on where the function was made. -/
theorem Stands.local?_eq (h : c.Stands table depth ip pending j)
    (hat : j.scopes.scopes[c.act.scope]? = some ⟨bindings, some m.tree.scope⟩)
    (hz : c.act.scope ≠ 0) : j.scopes.local? c.act.scope name =
      (bindings[name]?).or (j.scopes.local? m.tree.scope name) := by
  obtain ⟨outer, ho, hlt⟩ := h.valid.ordered.outer _ _ hat hz
  cases ho
  exact Scopes.local?_of_getElem? hat hlt

/-- What the scope of a call does not bind is free in the literal, and means what it meant when the
function was made. -/
theorem Stands.kept (h : c.Stands table depth ip pending j) (hs : c.Sees name)
    (ho : c.act.owner = some m) (hm : m ∈ j.made)
    (hat : j.scopes.scopes[c.act.scope]? = some ⟨bindings, some m.tree.scope⟩)
    (hb : bindings[name]? = none) :
    name ∈ m.free ∧ j.scopes.local? m.tree.scope name = m.env name := by
  rcases hs m ho with hfree | hbound
  · exact ⟨hfree, (h.valid.supported m hm).kept name hfree⟩
  · rw [← Scopes.bound?_congr (h.since.scopes _ c.scope_lt), Scopes.bound?, hat] at hbound
    exact absurd hb hbound

end

/-- A name that means nothing in the scopes of calls belongs to the program. -/
theorem Stands.of_local?_none (h : c.Stands table depth ip pending j) (hs : c.Sees name)
    (hn : j.scopes.local? c.act.scope name = none) :
    lastSymbol? name table.scopes = c.setting.names name ∧
      (c.act.owner = none ∨ c.setting.pinned name) := by
  have hsound := h.sound
  cases h.finds with
  | unit ho _ houter hnames _ =>
    obtain ⟨inner, outer⟩ := table
    subst houter
    exact ⟨hnames name, .inl ho⟩
  | @call m _ ho hmem _ hz hat hg _ hl _ =>
    rw [h.local?_eq hat hz, Option.or_eq_none_iff] at hn
    obtain ⟨hfree, hkept⟩ := h.kept hs ho hmem hat hn.1
    obtain ⟨hlast, hpinned⟩ :=
      (h.valid.supported _ hmem).shared name hfree (hkept.symm.trans hn.2)
    refine ⟨?_, .inr hpinned⟩
    obtain ⟨inner, outer⟩ := table
    cases outer with
    | nil => cases hg
    | cons next rest => exact (lastSymbol?_eq hg rfl hsound.2 name).trans hlast

/-- A name that means something in the scopes of calls belongs to a function around. -/
theorem Stands.of_local?_some (h : c.Stands table depth ip pending j) (hs : c.Sees name)
    (hn : j.scopes.local? c.act.scope name ≠ none) : SomeOwns name table.scopes := by
  cases h.finds with
  | unit _ hz _ _ _ => exact absurd (by rw [hz, Scopes.local?_zero]) hn
  | @call m bindings ho hmem _ hz hat hg _ hl _ =>
    obtain ⟨inner, outer⟩ := table
    cases outer with
    | nil => cases hg
    | cons next rest =>
      by_cases howns : inner.Owns name
      · exact .inl howns
      · have hb := hl.other name howns
        obtain ⟨hfree, hkept⟩ := h.kept hs ho hmem hat hb
        rw [h.local?_eq hat hz, hb, Option.none_or, hkept] at hn
        exact .inr ((someOwns_iff hg name).mpr ((h.valid.supported _ hmem).owned name hfree hn))

/-! ### Steps of the machine -/

theorem Stands.step_eq (h : c.Stands table depth ip pending j) {instruction : Instruction}
    (hat : c.act.site.code.Holds ip instruction) : j.machine.step =
      (j.machine.placed (c.act.frame (ip + instruction.size) :: c.act.rest)
        j.machine.values).execute (c.act.frame (ip + instruction.size)) instruction :=
  Snapshot.step_of_holds h.frames (by rw [← c.act.code_eq] at hat; exact hat)

/-- The machine goes on at another offset with other operands. -/
theorem Stands.moved (h : c.Stands table depth ip pending j) (next : Nat)
    {operands : List (Value × Value)} (ha : ∀ pair ∈ operands, j.Alike pair.1 pair.2)
    (lastPopped : Value) :
    c.Stands table depth next operands ⟨j.made, j.evaluator,
      { j.machine.placed (c.act.frame next :: c.act.rest)
          (c.act.low ++ (c.slots ++ operands.map Prod.snd)) with lastPopped }⟩ where
  valid := ⟨h.valid.nextId, h.valid.nextId_machine, h.valid.sink, h.valid.sink_machine,
    h.valid.constants, h.valid.bounds, h.valid.ordered, h.valid.names, h.valid.ids,
    h.valid.supported⟩
  finds := h.finds
  sound := h.sound
  since := ⟨h.since.made, h.since.size_le, h.since.scopes, h.since.globals, h.since.born⟩
  depth := h.depth
  calls := h.calls
  frames := rfl
  values := rfl
  alike := ha

theorem alike_push {of : Making} {operands : List (Value × Value)}
    (h : ∀ pair ∈ operands, Alike of pair.1 pair.2) {value other : Value}
    (hv : Alike of value other) :
    ∀ pair ∈ operands ++ [(value, other)], Alike of pair.1 pair.2 := by
  intro pair hm
  rcases List.mem_append.mp hm with hm | hm
  · exact h pair hm
  · cases List.mem_singleton.mp hm
    exact hv

/-- An instruction that leaves some of the operands and pushes a value like the evaluator's. -/
theorem Stands.pushOnto (h : c.Stands table depth ip pending j) {instruction : Instruction}
    (hat : c.act.site.code.Holds ip instruction) {operands : List (Value × Value)}
    (ha : ∀ pair ∈ operands, j.Alike pair.1 pair.2) {value other : Value}
    (he : (j.machine.placed (c.act.frame (ip + instruction.size) :: c.act.rest)
        j.machine.values).execute (c.act.frame (ip + instruction.size)) instruction =
      (j.machine.placed (c.act.frame (ip + instruction.size) :: c.act.rest)
        (c.act.low ++ (c.slots ++ operands.map Prod.snd))).push other)
    (hv : j.Alike value other) : j.machine.Meets c.setting.Apart fun s =>
      c.Stands table depth (ip + instruction.size) (operands ++ [(value, other)])
        ⟨j.made, j.evaluator, s⟩ := by
  refine .push ((h.step_eq hat).trans he) (.here ?_)
  have hmoved := h.moved (ip + instruction.size) (alike_push ha hv) j.machine.lastPopped
  rw [List.map_append, ← List.append_assoc c.slots, ← List.append_assoc c.act.low] at hmoved
  exact hmoved

/-- An instruction that pushes a value like the evaluator's. -/
theorem Stands.push (h : c.Stands table depth ip pending j) {instruction : Instruction}
    (hat : c.act.site.code.Holds ip instruction) {value other : Value}
    (he : (j.machine.placed (c.act.frame (ip + instruction.size) :: c.act.rest)
        j.machine.values).execute (c.act.frame (ip + instruction.size)) instruction =
      (j.machine.placed (c.act.frame (ip + instruction.size) :: c.act.rest)
        j.machine.values).push other)
    (hv : j.Alike value other) : j.machine.Meets c.setting.Apart fun s =>
      c.Stands table depth (ip + instruction.size) (pending ++ [(value, other)])
        ⟨j.made, j.evaluator, s⟩ :=
  h.pushOnto hat h.alike (by rw [he, ← h.values]) hv

/-- An instruction that does an operation on the last operands, as the evaluator does. -/
theorem Stands.settle (h : c.Stands table depth ip pending j) {instruction : Instruction}
    (hat : c.act.site.code.Holds ip instruction) {operands : List (Value × Value)}
    (ha : ∀ pair ∈ operands, j.Alike pair.1 pair.2)
    {outcome result : Except OperationError Value}
    (he : (j.machine.placed (c.act.frame (ip + instruction.size) :: c.act.rest)
        j.machine.values).execute (c.act.frame (ip + instruction.size)) instruction =
      (j.machine.placed (c.act.frame (ip + instruction.size) :: c.act.rest)
        (c.act.low ++ (c.slots ++ operands.map Prod.snd))).settle result)
    (hr : SameOutcome j.Alike outcome result) :
    c.Agrees j (Eval.ofOperation outcome j.evaluator) fun value later => ∃ other,
      c.Stands table depth (ip + instruction.size) (operands ++ [(value, other)]) later := by
  cases outcome with
  | ok value =>
    cases result with
    | error error => exact hr.elim
    | ok other => exact (h.pushOnto hat ha he hr).imp fun s hs => ⟨j.made, other, hs⟩
  | error error =>
    cases result with
    | ok other => exact hr.elim
    | error fault => exact .inr (.here ⟨_, _, (h.step_eq hat).trans he, .inl hr⟩)

/-! ### Loads -/

/-- A name that the innermost scope has is loaded as what it means in the scopes of calls. -/
theorem Stands.load_own (h : c.Stands table depth ip pending j) {symbol : Symbol} {next : Nat}
    (hs : c.Sees symbol.name) (hsymbol : table.inner.symbols[symbol.name]? = some symbol)
    (hshared : symbol.storage.isShared = false) (hl : Loads c.act.site symbol ip next) :
    ∃ value other, j.scopes.local? c.act.scope symbol.name = some value ∧
      j.Alike value other ∧ j.machine.Meets c.setting.Apart fun s =>
        c.Stands table depth next (pending ++ [(value, other)]) ⟨j.made, j.evaluator, s⟩ := by
  cases h.finds with
  | unit _ _ houter _ _ =>
    have hsound := h.sound
    obtain ⟨inner, outer⟩ := table
    subst houter
    rcases SymbolScope.Outermost.storage hsound _ _ hsymbol with ⟨hk, _⟩ | ⟨hk, _⟩ <;>
    · rw [hk] at hshared
      cases hshared
  | @call m bindings ho hmem hsite hz hat hg ha hlocals hlength =>
    rw [h.local?_eq hat hz]
    cases hl with
    | global hst | builtin hst =>
      rw [hst] at hshared
      cases hshared
    | slot hst hlt hload =>
      obtain ⟨value, other, hb, hslot, hv⟩ := hlocals.slot _ _ hsymbol hst
      refine ⟨value, other, by rw [hb, Option.some_or], hv, h.push hload ?_ hv⟩
      have hlt := (List.getElem?_eq_some_iff.mp hslot).1
      have hget : j.machine.values[c.act.low.length + symbol.index]? = some other := by
        rw [h.values, List.getElem?_append_right (by omega), Nat.add_sub_cancel_left,
          List.getElem?_append_left hlt, hslot]
      exact Snapshot.execute_getLocal hget
    | self hst _ hload =>
      have hb := hlocals.self _ _ hsymbol hst
      exact ⟨_, _, by rw [hb, Option.some_or], ha, h.push hload rfl ha⟩
    | @captured found hst hfound hname hload =>
      have hb : bindings[symbol.name]? = none := by
        refine hlocals.other _ ?_
        rintro ⟨other, hother, hown⟩
        rw [hsymbol] at hother
        cases hother
        rw [hst] at hown
        exact absurd hown (by decide)
      obtain ⟨hfree, hkept⟩ := h.kept hs ho hmem hat hb
      obtain ⟨_, values, ⟨m', hm', _, _, hcaptured⟩, hall⟩ := ha.of_closure
      cases (h.valid.getElem?_of_mem hmem).symm.trans hm'
      rw [← hsite] at hcaptured
      have hvalue := congrArg (·[symbol.index]?) hcaptured
      simp only [List.getElem?_map, hfound, Option.map_some, hname] at hvalue
      rcases hall.getElem? symbol.index with ⟨hnone, _⟩ | ⟨value, other, hv, hother, halike⟩
      · rw [hnone] at hvalue
        cases hvalue
      · rw [hv, Option.map_some, Option.some_inj] at hvalue
        exact ⟨value, other, by rw [hb, Option.none_or, hkept, hvalue], halike,
          h.push hload (Snapshot.execute_getFree hother) halike⟩

/-- A name that belongs to no function around is loaded as what it means in the program. -/
theorem Stands.load_shared (h : c.Stands table depth ip pending j) {symbol : Symbol} {next : Nat}
    (hnames : c.setting.names symbol.name = some symbol) (hl : Loads c.act.site symbol ip next) :
    ∃ value other, (j.scopes.bound? 0 symbol.name = some value ∨
        j.scopes.bound? 0 symbol.name = none ∧
          ∃ builtin, Builtin.ofName? symbol.name = some builtin ∧ value = .builtin builtin) ∧
      j.Alike value other ∧ j.machine.Meets c.setting.Apart fun s =>
        c.Stands table depth next (pending ++ [(value, other)]) ⟨j.made, j.evaluator, s⟩ := by
  cases h.valid.names _ _ hnames with
  | @slot value other hst hb hg hv =>
    cases hl with
    | global _ hlt hload =>
      exact ⟨value, other, .inl hb, hv, h.push hload (Snapshot.execute_getGlobal hg) hv⟩
    | slot hst' | builtin hst' | captured hst' | self hst' =>
      rw [hst] at hst'
      cases hst'
  | @builtin builtin hst hb hi hn =>
    cases hl with
    | builtin _ hi' _ hload =>
      cases hi.symm.trans hi'
      exact ⟨.builtin builtin, .builtin builtin,
        .inr ⟨hb, builtin, hn ▸ Builtin.ofName?_name builtin, rfl⟩, .builtin _,
        h.push hload (Snapshot.execute_getBuiltin hi) (.builtin _)⟩
    | global hst' | slot hst' | captured hst' | self hst' =>
      rw [hst] at hst'
      cases hst'

end Scene

end Simian
