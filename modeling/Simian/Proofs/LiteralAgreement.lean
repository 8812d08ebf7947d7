import Simian.Proofs.InstructionAgreement

/-!
# Names and function literals beside the evaluator

A name gives the same value on both engines. A function literal makes a function and a
closure, and what the closure captures is what the names mean to the evaluator then.
-/
namespace Simian

open SymbolScope

namespace SymbolTable

theorem captures_define (table : SymbolTable) (name : String) :
    (table.define name).2.inner.captures = table.inner.captures := by
  unfold define SymbolScope.define
  dsimp only
  split <;> rfl

theorem captures_foldl_define (parameters : List String) (table : SymbolTable) :
    (parameters.foldl (fun table parameter => (table.define parameter).2) table).inner.captures =
      table.inner.captures := by
  induction parameters generalizing table with
  | nil => rfl
  | cons parameter rest ih => rw [List.foldl_cons, ih, captures_define]

/-- A function has captured nothing before its body. -/
theorem captures_opened (table : SymbolTable) (own : Option String) (parameters : List String) :
    (table.opened own parameters).inner.captures = #[] := by
  unfold opened
  rw [captures_foldl_define]
  cases own <;> rfl

end SymbolTable

namespace Scene

variable {c : Scene} {table later : SymbolTable} {depth ip next : Nat}
  {pending : List (Value × Value)} {j : Joint} {name : String}

theorem Stands.grows (h : c.Stands table depth ip pending j) (hs : later.Sound)
    (hg : List.Forall₂ SymbolScope.Grows table.scopes later.scopes) :
    c.Stands later depth ip pending j :=
  { h with
    finds := h.finds.grows hs hg
    sound := hs }

/-! ### Names -/

theorem lookUp_of_some {scope : Nat} {evaluator : Evaluator} {value : Value}
    (h : evaluator.scopes.find? scope name = some value) :
    Eval.lookUp scope name evaluator = (.ok value, evaluator) := by
  unfold Eval.lookUp
  rw [Attempt.bind_of_ok (show Eval.onScopes _ evaluator =
    (.ok (evaluator.scopes.find? scope name), evaluator) from rfl), h]
  rfl

theorem lookUp_of_none {scope : Nat} {evaluator : Evaluator} {builtin : Builtin}
    (h : evaluator.scopes.find? scope name = none) (hb : Builtin.ofName? name = some builtin) :
    Eval.lookUp scope name evaluator = (.ok (.builtin builtin), evaluator) := by
  unfold Eval.lookUp
  rw [Attempt.bind_of_ok (show Eval.onScopes _ evaluator =
    (.ok (evaluator.scopes.find? scope name), evaluator) from rfl), h, hb]
  rfl

theorem Stands.find?_eq (h : c.Stands table depth ip pending j) :
    j.scopes.find? c.act.scope name =
      (j.scopes.local? c.act.scope name).or (j.scopes.bound? 0 name) :=
  h.valid.ordered.find?_eq (Nat.lt_of_lt_of_le c.scope_lt h.since.size_le)

theorem Stands.lookUp (h : c.Stands table depth ip pending j) (hs : c.Sees name)
    {symbol : Symbol} (hr : table.resolve name = some (symbol, later))
    (hl : Loads c.act.site symbol ip next) :
    c.Agrees j (Eval.lookUp c.act.scope name j.evaluator) (c.Gives later depth next pending) := by
  obtain ⟨hsound, _, hfound⟩ := SymbolTable.resolve_sound h.sound hr
  have hgrown := h.grows hsound (SymbolTable.grownBy_resolve h.sound hr).grows
  obtain rfl := hfound.name_eq
  cases hshared : symbol.storage.isShared with
  | false =>
    obtain ⟨value, other, hlocal, _, hmeets⟩ :=
      hgrown.load_own hs (hfound.own hshared) hshared hl
    rw [lookUp_of_some (h.find?_eq.trans (by rw [hlocal, Option.some_or]))]
    exact hmeets.imp fun s hs => ⟨j.made, other, hs⟩
  | true =>
    obtain ⟨howns, hlast⟩ := SymbolTable.resolveFrom_shared h.sound hr hshared
    have hnone : j.scopes.local? c.act.scope symbol.name = none :=
      not_not.mp fun hne => howns (h.of_local?_some hs hne)
    have hnames := (h.of_local?_none hs hnone).1.symm.trans hlast
    obtain ⟨value, other, hvalue, _, hmeets⟩ := hgrown.load_shared hnames hl
    have hfind : j.scopes.find? c.act.scope symbol.name = j.scopes.bound? 0 symbol.name := by
      rw [h.find?_eq, hnone, Option.none_or]
    rcases hvalue with hbound | ⟨hbound, builtin, hname, rfl⟩
    · rw [lookUp_of_some (hfind.trans hbound)]
      exact hmeets.imp fun s hs => ⟨j.made, other, hs⟩
    · rw [lookUp_of_none (hfind.trans hbound) hname]
      exact hmeets.imp fun s hs => ⟨j.made, other, hs⟩

/-! ### Function literals -/

/-- The values to capture are loaded one after the other. -/
theorem Stands.loadAll {symbols : List Symbol} (h : c.Stands table depth ip pending j)
    (hs : ∀ symbol ∈ symbols, c.Sees symbol.name ∧
      table.inner.symbols[symbol.name]? = some symbol ∧ symbol.storage.isShared = false)
    (hl : LoadsAll c.act.site ip symbols next) : j.machine.Meets c.setting.Apart fun s => ∃ loaded,
      symbols.map (fun symbol => j.scopes.local? c.act.scope symbol.name) =
        (loaded.map Prod.fst).map some ∧
      c.Stands table depth next (pending ++ loaded) ⟨j.made, j.evaluator, s⟩ := by
  induction symbols generalizing ip pending j with
  | nil =>
    cases hl
    exact .here ⟨[], rfl, by rwa [List.append_nil]⟩
  | cons symbol rest ih =>
    cases hl with
    | cons hfirst hrest =>
      obtain ⟨hsees, hat, hshared⟩ := hs symbol List.mem_cons_self
      obtain ⟨value, other, hvalue, _, hmeets⟩ := h.load_own hsees hat hshared hfirst
      refine hmeets.bind fun s hstands => ?_
      refine (ih hstands (fun symbol hm => hs symbol (List.mem_cons_of_mem _ hm)) hrest).imp ?_
      rintro t ⟨loaded, hloaded, hlast⟩
      refine ⟨(value, other) :: loaded, ?_, by rwa [List.append_assoc] at hlast⟩
      rw [List.map_cons, hvalue, hloaded]
      rfl

/-- Both engines make a function that is supported. -/
theorem Stands.make (h : c.Stands table depth ip pending j) {m : Made}
    (hid : m.tree.id = j.made.length) (hscope : m.tree.scope = c.act.scope)
    (hm : m.Supported c.setting j.made j.scopes) (hc : ∀ name ∈ m.free, name ∈ c.closed) :
    c.Stands table depth ip pending
      ⟨j.made ++ [m], { j.evaluator with nextId := j.evaluator.nextId + 1 },
        { j.machine with nextId := j.machine.nextId + 1 }⟩ := by
  have hprefix : j.made <+: j.made ++ [m] := List.prefix_append _ _
  have hsame : ∀ k < j.scopes.scopes.size, j.scopes.scopes[k]? = j.scopes.scopes[k]? :=
    fun _ _ => rfl
  have hmono : ∀ tree body values, Made.making j.made tree body values →
      Made.making (j.made ++ [m]) tree body values := fun _ _ _ => Made.making_mono hprefix
  refine ⟨⟨?_, ?_, h.valid.sink, h.valid.sink_machine, h.valid.constants, h.valid.bounds,
      h.valid.ordered, fun name symbol hn => (h.valid.names name symbol hn).mono hprefix rfl, ?_,
      ?_⟩, h.finds.mono hprefix rfl, h.sound, ⟨h.since.made.trans hprefix, h.since.size_le,
      h.since.scopes, h.since.globals, ?_⟩, h.depth, h.calls, h.frames, h.values,
    fun pair hp => (h.alike pair hp).mono hmono⟩
  · rw [List.length_append, ← h.valid.nextId]
    rfl
  · show j.machine.nextId + 1 = _
    rw [h.valid.nextId_machine, List.length_append]
    rfl
  · intro k other hk
    rw [List.getElem?_append] at hk
    split at hk
    · exact h.valid.ids k other hk
    · obtain ⟨hlt, rfl⟩ := List.getElem?_eq_some_iff.mp hk
      rw [List.length_singleton] at hlt
      simp only [List.getElem_singleton]
      omega
  · intro other ho
    rcases List.mem_append.mp ho with ho | ho
    · exact (h.valid.supported other ho).mono hprefix hsame (Nat.le_refl _)
    · cases List.mem_singleton.mp ho
      exact hm.mono hprefix hsame (Nat.le_refl _)
  · intro other ho
    rcases List.mem_append.mp ho with ho | ho
    · exact h.since.born other ho
    · cases List.mem_singleton.mp ho
      exact .inr (.inr ⟨hscope, hc⟩)

/-- What a literal that stands in the running call depends on is as it should be. -/
theorem Stands.supports (h : c.Stands table depth ip pending j) {m : Made}
    (hl : m.Laid c.setting.pool c.setting.maxDepth) (hscope : m.tree.scope = c.act.scope)
    (htable : m.table = table) (henv : m.env = fun name => j.scopes.local? c.act.scope name)
    (hs : ∀ name ∈ m.free, c.Sees name)
    (hp : c.act.owner = none → ∀ name ∈ m.free, c.setting.pinned name) :
    m.Supported c.setting j.made j.scopes where
  laid := hl
  scope_lt := by
    rw [hscope]
    exact Nat.lt_of_lt_of_le c.scope_lt h.since.size_le
  kept := fun name _ => by rw [hscope, henv]
  owned := fun name hn hne => by
    rw [henv] at hne
    rw [htable]
    exact h.of_local?_some (hs name hn) hne
  shared := by
    intro name hn hnone
    rw [henv] at hnone
    obtain ⟨hlast, hpinned⟩ := h.of_local?_none (hs name hn) hnone
    rw [htable]
    exact ⟨hlast, hpinned.elim (fun ho => hp ho name hn) id⟩
  around := by
    intro name hn hz
    rw [hscope] at hz ⊢
    cases h.finds with
    | unit _ hzero _ _ _ => exact absurd hzero hz
    | @call owner bindings ho hmem _ _ hat _ _ _ _ =>
      exact ⟨bindings, owner.tree.scope, hat, fun hb =>
        ⟨owner, hmem, rfl, (h.kept (hs name hn) ho hmem hat hb).1⟩⟩

/-- A function literal whose body is laid out. -/
theorem Stands.literal (h : c.Stands table depth ip pending j) {own : Option String}
    {parameters : List String} {body : Block} {t₁ : SymbolTable} {inner : Site} {q index id : Nat}
    (hbody : TailAt .returns inner (table.opened own parameters) 0 body.statements t₁
      inner.code.size)
    (hfun : inner.inFunction = true) (hpool : inner.pool = c.act.site.pool)
    (hlocals : inner.locals = t₁.inner.slots)
    (hcaptures : inner.captures = t₁.inner.captures.toList)
    (hleave : t₁.leave? = some later) (hload : LoadsAll c.act.site ip inner.captures q)
    (hindex : c.act.site.pool[index]? =
      some (.compiled id ⟨own, inner.code, inner.locals, parameters.length⟩))
    (hat : c.act.site.code.Holds q ⟨.closure, [index, inner.captures.length]⟩)
    (hsettled : areSettledInBody [] body.statements = true) (hnodup : parameters.Nodup)
    (hdistinct : areDistinctStmts body.statements = true)
    (hnesting : nestingOfStmts body.statements ≤ c.setting.maxDepth)
    {free : List String} (hfree : ∀ name, name ∈ free ↔
      name ∈ freeInStmts body.statements ∧ name ∉ parameters ∧ own ≠ some name)
    (hs : ∀ name ∈ free, c.Sees name) (hc : ∀ name ∈ free, name ∈ c.closed)
    (hp : c.act.owner = none → ∀ name ∈ free, c.setting.pinned name) :
    c.Agrees j (Eval.makeFunction c.act.scope own parameters body j.evaluator)
      (c.Gives later depth (q + 4) pending) := by
  obtain ⟨hsound, hwidens⟩ := hbody.widens (areDirectStmts_of_settled hsettled)
    (SymbolTable.sound_opened h.sound own parameters)
  have hadds : table.Adds free later := hwidens.adds_of_opened h.sound hsound hleave
    fun name hn hm ho => (hfree name).mpr ⟨hn, hm, ho⟩
  have hcaptured : ∀ symbol ∈ inner.captures, c.Sees symbol.name ∧
      later.inner.symbols[symbol.name]? = some symbol ∧ symbol.storage.isShared = false := by
    intro symbol hm
    rw [hcaptures] at hm
    refine ⟨?_, SymbolTable.captures_of_leave hsound hleave hm⟩
    rcases hwidens.captured symbol hm with hm | ⟨hname, hnone⟩
    · rw [SymbolTable.captures_opened] at hm
      cases hm
    · exact hs _ ((hfree _).mpr ⟨hname, SymbolTable.not_mem_of_opened h.sound hnone⟩)
  let m : Made := ⟨⟨j.evaluator.nextId, own, parameters, body, c.act.scope⟩, table, inner,
    fun name => j.scopes.local? c.act.scope name⟩
  have hmfree : ∀ name, name ∈ m.free → name ∈ free := by
    intro name hn
    simp only [Made.free, List.mem_filter, Bool.and_eq_true, bne_iff_ne, Bool.not_eq_true',
      List.contains_eq_mem, decide_eq_false_iff_not] at hn
    exact (hfree name).mpr ⟨hn.1, hn.2.2, hn.2.1⟩
  have hm : m.Supported c.setting j.made j.scopes := by
    refine h.supports ⟨h.sound, hpool.trans c.pool_eq, hfun, ⟨t₁, hbody, hlocals⟩, hsettled, hnodup,
      hdistinct, hnesting⟩ rfl rfl rfl (fun name hn => hs name (hmfree name hn))
      fun ho name hn => hp ho name (hmfree name hn)
  refine Snapshot.Meets.bind ((h.grows hadds.sound hadds.grown.grows).loadAll hcaptured hload) ?_
  rintro s ⟨loaded, hloaded, hstands⟩
  have hmade := hstands.make (m := m) h.valid.nextId rfl hm fun name hn => hc name (hmfree name hn)
  have hcount : inner.captures.length = loaded.length := by
    have hlength := congrArg List.length hloaded
    simpa only [List.length_map] using hlength
  have hid : s.nextId = m.tree.id + 1 := by
    rw [show m.tree.id = j.made.length from h.valid.nextId]
    exact hstands.valid.nextId_machine
  have hclosure : Alike (Made.making (j.made ++ [m])) (.function m.tree)
      (.closure s.nextId m.compiled (loaded.map Prod.snd)) := by
    rw [hid]
    refine .function ⟨m, ?_, rfl, rfl, hloaded⟩ ?_
    · show (j.made ++ [m])[j.evaluator.nextId]? = some m
      rw [h.valid.nextId, List.getElem?_concat_length]
    · rw [allAlike_iff, List.forall₂_map_left_iff, List.forall₂_map_right_iff, List.forall₂_same]
      exact fun pair hp => hmade.alike pair (List.mem_append_right _ hp)
  have hstep := hstands.step_eq hat
  obtain ⟨htop, hrest⟩ := hstands.top_many _
  rw [Snapshot.execute_closure (hstands.valid.constants.symm ▸ c.pool_eq ▸ hindex), hcount, htop,
    hrest] at hstep
  have hmoved := hmade.moved (q + 4) (alike_push hmade.alike_front hclosure) s.lastPopped
  rw [List.map_append, ← List.append_assoc c.slots, ← List.append_assoc c.act.low] at hmoved
  exact .push hstep (.here ⟨j.made ++ [m], _, hmoved⟩)

end Scene

end Simian
