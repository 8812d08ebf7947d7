import Simian.Proofs.ExpressionAgreement
import Simian.Proofs.LocalAgreement

/-!
# Function bodies beside the evaluator

A body runs statement after statement. A `let` binds a name in the scope of the call and
fills a slot of its frame. No function made in the call so far has that name free, so all
of them stay supported. In the end the call is left with the same value on both engines.
-/
namespace Simian

open Scene

/-- The second state comes from the first by running a call that has this scope. -/
structure Joint.Beyond (scope : Nat) (start j : Joint) : Prop where
  made : start.made <+: j.made
  size_le : start.scopes.scopes.size ≤ j.scopes.scopes.size
  scopes : ∀ k < scope, j.scopes.scopes[k]? = start.scopes.scopes[k]?
  globals : j.machine.globals = start.machine.globals
  born : ∀ m ∈ j.made, m ∈ start.made ∨ scope ≤ m.tree.scope

theorem Joint.Beyond.refl (scope : Nat) (j : Joint) : Joint.Beyond scope j j :=
  ⟨List.prefix_refl _, Nat.le_refl _, fun _ _ => rfl, rfl, fun _ hm => .inl hm⟩

theorem Joint.Beyond.since {scope : Nat} {closed : List String} {start j later : Joint}
    (h : Joint.Beyond scope start j) (hlt : scope < j.scopes.scopes.size)
    (hs : Joint.Since scope closed j later) : Joint.Beyond scope start later where
  made := h.made.trans hs.made
  size_le := Nat.le_trans h.size_le hs.size_le
  scopes := fun k hk => (hs.scopes k (by omega)).trans (h.scopes k hk)
  globals := hs.globals.trans h.globals
  born := by
    intro m hm
    rcases hs.born m hm with hm | hle | ⟨he, _⟩
    · exact h.born m hm
    · exact .inr (by omega)
    · exact .inr (Nat.le_of_eq he.symm)

theorem Snapshot.execute_setLocal {s : Snapshot} {frame : Frame} {index : Nat} {front : List Value}
    {value : Value} (h : s.values = front ++ [value]) (hlt : frame.base + index < front.length) :
    s.execute frame ⟨.setLocal, [index]⟩ =
      .goes { s with values := front.set (frame.base + index) value } := by
  show (if frame.base + index < s.dropped.values.length then
    Turn.goes { s.dropped with values := s.dropped.values.set (frame.base + index) s.top }
    else _) = _
  rw [top_of_values h, dropped_of_values h]
  exact if_pos hlt

namespace Activation

/-- The running call stands between two statements of its body. Functions that were made in it so
far take only some names from around. -/
structure Between (act : Activation) (setting : Setting) (start : Joint) (closed : List String)
    (table : SymbolTable) (slots : List Value) (ip : Nat) (j : Joint) : Prop where
  valid : j.Valid setting
  finds : act.Finds setting j.made j.scopes table slots
  sound : table.Sound
  depth : j.evaluator.depth = 0
  calls : j.evaluator.calls = act.calls
  frames : j.machine.calls = act.frame ip :: act.rest
  values : j.machine.values = act.low ++ slots
  beyond : Joint.Beyond act.scope start j
  direct : ∀ m ∈ j.made, m.tree.scope = act.scope → ∀ name ∈ m.free, name ∈ closed

/-- The next step of the machine ends the call with the value. -/
structure Left (act : Activation) (setting : Setting) (start : Joint) (value : Value) (j : Joint) :
    Prop where
  valid : j.Valid setting
  beyond : Joint.Beyond act.scope start j
  calls : j.evaluator.calls = act.calls
  step : ∃ ip extra other, j.Alike value other ∧ j.machine.step =
    (j.machine.placed (act.frame ip :: act.rest) (act.low ++ extra)).leave other

variable {act : Activation} {setting : Setting} {start : Joint} {closed : List String}
  {table later : SymbolTable} {slots : List Value} {ip : Nat} {j : Joint} {m : Made}

theorem Between.scope_lt (h : act.Between setting start closed table slots ip j) :
    act.scope < j.scopes.scopes.size := by
  cases h.finds with
  | unit _ hz _ _ _ =>
    rw [hz]
    exact h.valid.ordered.size_pos
  | call _ _ _ _ hat _ _ _ _ => exact (Array.getElem?_eq_some_iff.mp hat).1

/-- The scene of the next statement. -/
def Between.scene (h : act.Between setting start closed table slots ip j)
    (hp : act.site.pool = setting.pool) (more : List String) : Scene where
  setting := setting
  act := act
  pool_eq := hp
  start := j
  scope_lt := h.scope_lt
  closed := more
  slots := slots

theorem Between.stands (h : act.Between setting start closed table slots ip j)
    (hp : act.site.pool = setting.pool) (more : List String) :
    (h.scene hp more).Stands table 0 ip [] j where
  valid := h.valid
  finds := h.finds
  sound := h.sound
  since := ⟨List.prefix_refl _, Nat.le_refl _, fun _ _ => rfl, rfl, fun _ hm => .inl hm⟩
  depth := h.depth
  calls := h.calls
  frames := h.frames
  values := by
    rw [List.map_nil, List.append_nil]
    exact h.values
  alike := nofun

/-- Behind a statement that binds nothing. -/
theorem Between.of_stands (h : act.Between setting start closed table slots ip j)
    {hp : act.site.pool = setting.pool} {more : List String} {next : Nat} {j' : Joint}
    (hs : (h.scene hp more).Stands later 0 next [] j') :
    act.Between setting start (closed ++ more) later slots next j' where
  valid := hs.valid
  finds := hs.finds
  sound := hs.sound
  depth := hs.depth
  calls := hs.calls
  frames := hs.frames
  values := by
    have hvalues := hs.values
    rwa [List.map_nil, List.append_nil] at hvalues
  beyond := h.beyond.since h.scope_lt hs.since
  direct := by
    intro m hm hscope name hn
    have hlt := h.scope_lt
    rcases hs.since.born m hm with hm | hle | ⟨_, hc⟩
    · exact List.mem_append_left _ (h.direct m hm hscope name hn)
    · have hle : j.scopes.scopes.size ≤ m.tree.scope := hle
      omega
    · exact List.mem_append_right _ (hc name hn)

theorem Left.of_leaves (h : act.Between setting start closed table slots ip j)
    {hp : act.site.pool = setting.pool} {more : List String} {value : Value} {j' : Joint}
    (hl : (h.scene hp more).Leaves value j') : act.Left setting start value j' where
  valid := hl.valid
  beyond := h.beyond.since h.scope_lt hl.since
  calls := hl.calls
  step := hl.step

/-! ### Binding a name -/

/-- A `let` leaves every function supported that does not depend on the name. -/
theorem supported_set {made : List Made} {scopes : Scopes} {scope : Nat} {name : String}
    {value : Value} (ho : scopes.Ordered) (hall : ∀ m ∈ made, m.Supported setting made scopes)
    (hd : ∀ m ∈ made, m.tree.scope = scope → scope ≠ 0 → name ∉ m.free) :
    ∀ m ∈ made, m.Supported setting made (scopes.set scope name value) := by
  intro m hm
  have h := hall m hm
  refine ⟨h.laid, by rw [Scopes.size_set]; exact h.scope_lt, fun other hn => ?_, h.owned, h.shared,
    fun other hn hz => ?_⟩
  · rw [← h.kept other hn]
    let safe : Nat → Prop := fun k => k = 0 ∨ ∃ m ∈ made, m.tree.scope = k ∧ other ∈ m.free
    have hsafe : safe m.tree.scope := .inr ⟨m, hm, rfl, hn⟩
    refine Scopes.local?_set (fun k (hk : safe k) hz => ?_) hsafe
    obtain ⟨m', hm', rfl, hn'⟩ := hk.resolve_left hz
    obtain ⟨bindings, outer, hat, howner⟩ := (hall m' hm').around other hn' hz
    obtain ⟨outer', ho', hlt⟩ := ho.outer _ _ hat hz
    cases ho'
    refine ⟨fun he hname => ?_, bindings, outer, hat, hlt, fun hb => ?_⟩
    · exact hd m' hm' he (he ▸ hz) (hname ▸ hn')
    · obtain ⟨owner, hm'', hscope, hn''⟩ := howner hb
      exact .inr ⟨owner, hm'', hscope, hn''⟩
  · obtain ⟨bindings, outer, hat, howner⟩ := h.around other hn hz
    have hset := Scopes.getElem?_set scopes scope m.tree.scope name value
    rw [hat, Option.map_some] at hset
    split at hset
    · refine ⟨_, _, hset, fun hb => howner ?_⟩
      rw [Std.ExtHashMap.getElem?_insert] at hb
      split at hb
      · cases hb
      · exact hb
    · exact ⟨_, _, hset, howner⟩

theorem getElem?_set_ne {scopes : Scopes} {scope k : Nat} {name : String} {value : Value}
    (hne : scope ≠ k) : (scopes.set scope name value).scopes[k]? = scopes.scopes[k]? := by
  rw [Scopes.getElem?_set]
  simp [hne]

theorem Finds.isGlobal_eq {made : List Made} {scopes : Scopes}
    (h : act.Finds setting made scopes table slots) (ho : act.owner = some m) :
    table.isGlobal = false := by
  cases h with
  | unit hn => cases ho.symm.trans hn
  | call _ _ _ _ _ hg =>
    obtain ⟨inner, outer⟩ := table
    cases hg
    rfl

/-- In the same step the evaluator binds a name and the machine fills the slot of the name. -/
theorem Between.define {t t' : SymbolTable} {symbol : Symbol} {name : String} {value other : Value}
    (h : act.Between setting start closed t slots ip j) (ho : act.owner = some m)
    (hd : SymbolTable.Defines t name symbol t') (hlt : symbol.index < act.site.locals)
    (hfree : name ∉ closed) (hv : j.Alike value other) :
    act.Between setting start closed t' (slots.set symbol.index other) ip
      ⟨j.made, { j.evaluator with scopes := j.scopes.set act.scope name value },
        { j.machine with values := act.low ++ slots.set symbol.index other }⟩ := by
  cases h.finds with
  | unit hn => cases ho.symm.trans hn
  | @call m' bindings ho' hmem hsite hz hat hg ha hl hlength =>
    have hglobal := h.finds.isGlobal_eq ho
    have hst : symbol.storage = .localSlot := by
      rw [hd.storage_eq, hglobal]
      rfl
    refine ⟨⟨h.valid.nextId, h.valid.nextId_machine, h.valid.sink, h.valid.sink_machine,
      h.valid.constants, h.valid.bounds, h.valid.ordered.set _ _ _, ?names, h.valid.ids,
      supported_set h.valid.ordered h.valid.supported fun m hm hscope _ hn =>
        hfree (h.direct m hm hscope name hn)⟩,
      .call ho' hmem hsite hz ?scope (hd.outer_eq ▸ hg) ha (hl.define h.sound hd hglobal
        (hlength ▸ hlt) hv) (by rw [List.length_set, hlength]),
      hd.sound h.sound (fun hs => by rw [hst] at hs; cases hs), h.depth, h.calls, h.frames, rfl,
      ⟨h.beyond.made, ?size, ?older, h.beyond.globals, h.beyond.born⟩, h.direct⟩
    case names =>
      exact fun other symbol hs =>
        (h.valid.names other symbol hs).mono (List.prefix_refl _) (getElem?_set_ne hz)
    case scope => rw [Scopes.getElem?_set, hat, Option.map_some, if_pos rfl]
    case size =>
      rw [Scopes.size_set]
      exact h.beyond.size_le
    case older =>
      exact fun k hk => (getElem?_set_ne (by omega)).trans (h.beyond.scopes k hk)

/-- Behind the value of a `let`. -/
theorem Between.bindLocal {t t₁ t' : SymbolTable} {symbol : Symbol} {name : String}
    {value : Value} {more : List String} {j' : Joint} {left : Value → Joint → Prop}
    (h : act.Between setting start closed t slots ip j) {hp : act.site.pool = setting.pool}
    {next : Nat} (hs : (h.scene hp more).Gives t₁ 0 next [] value j') (ho : act.owner = some m)
    (hd : SymbolTable.Defines t₁ name symbol t') (hlt : symbol.index < act.site.locals)
    (hload : act.site.code.Holds next ⟨.setLocal, [symbol.index]⟩)
    (hfree : name ∉ closed ++ more) :
    Joint.Agrees setting.Apart left j' (Eval.bind act.scope name value j'.evaluator) fun _ later =>
      (∃ slots', act.Between setting start (closed ++ more) t' slots' (next + 2) later) ∧
        later.scopes = j'.scopes.set act.scope name value := by
  obtain ⟨other, hs⟩ := hs
  have hmoved := h.of_stands (hs.moved (next + 2) (List.forall_mem_nil _) j'.machine.lastPopped)
  have hbetween := hmoved.define ho hd hlt hfree hs.alike_last
  have hplace : act.low.length + symbol.index < (act.low ++ slots).length := by
    cases h.finds with
    | unit hn => cases ho.symm.trans hn
    | call _ _ _ _ _ _ _ _ hlength =>
      rw [List.length_append]
      omega
  have hvalues : j'.machine.values = (act.low ++ slots) ++ [other] := by
    rw [hs.values_concat, List.map_nil, List.append_nil]
    rfl
  have hset : (act.low ++ slots).set (act.low.length + symbol.index) other =
      act.low ++ slots.set symbol.index other := by
    rw [List.set_append_right _ _ (by omega), Nat.add_sub_cancel_left]
  have hstep := (hs.step_eq hload).trans (Snapshot.execute_setLocal hvalues hplace)
  rw [show (act.low ++ slots).set (((h.scene hp more).act.frame _).base + symbol.index) other = _
    from hset] at hstep
  exact .step hstep (.here ⟨j'.made, ⟨_, hbetween⟩, rfl⟩)

end Activation

open Activation

/-! ### Statements -/

section
variable {call : Value → List Value → Eval Value} {act : Activation} {setting : Setting}
  {start : Joint} {closed : List String} {slots : List Value} {j : Joint} {m : Made} {site : Site}
  {t t' : SymbolTable} {p q : Nat}

/-- What a statement of a body refers to is there. -/
theorem Activation.Between.admits {tree : Expr}
    (h : act.Between setting start closed t slots p j) (hp : act.site.pool = setting.pool)
    (ho : act.owner = some m)
    (hfree : ∀ name ∈ tree.free, name ∈ m.free ∨ j.scopes.bound? act.scope name ≠ none)
    (hlevels : tree.nesting ≤ setting.maxDepth) :
    (h.scene hp tree.closed).Admits 0 tree.free tree.closed tree.nesting where
  sees := by
    intro name hn m' ho'
    cases ho.symm.trans ho'
    exact hfree name hn
  closes := fun _ hn => hn
  pinned := fun hnone => by cases ho.symm.trans hnone
  levels := by
    show 0 + tree.nesting ≤ setting.maxDepth
    omega

/-- The value of a statement of a body. -/
theorem ExprAt.body {tree : Expr} (hat : ExprAt site t p tree t' q)
    (hcall : CallsAgree setting.bounds act call)
    (hsite : act.site = site) (hp : act.site.pool = setting.pool) (ho : act.owner = some m)
    (hs : tree.isSettled = true) (hd : tree.isDistinct = true)
    (hfree : ∀ name ∈ tree.free, name ∈ m.free ∨ j.scopes.bound? act.scope name ≠ none)
    (hlevels : tree.nesting ≤ setting.maxDepth)
    (h : act.Between setting start closed t slots p j) :
    Joint.Agrees setting.Apart (act.Left setting start) j
      (Eval.expr call act.scope tree j.evaluator)
      ((h.scene hp tree.closed).Gives t' 0 q []) :=
  (hat.agrees hcall (c := h.scene hp tree.closed) hsite hs hd (h.admits hp ho hfree hlevels)
    (h.stands hp _)).imp_left fun _ _ => Left.of_leaves h

/-- Evaluating an expression binds nothing in the scope of the call. -/
theorem Activation.Between.bound?_eq {hp : act.site.pool = setting.pool} {more : List String}
    {depth next : Nat} {pending : List (Value × Value)} {table : SymbolTable} {j' : Joint}
    (h : act.Between setting start closed t slots p j)
    (hs : (h.scene hp more).Stands table depth next pending j') (name : String) :
    j'.scopes.bound? act.scope name = j.scopes.bound? act.scope name :=
  Scopes.bound?_congr (hs.since.scopes _ h.scope_lt)

theorem StmtAt.body {statement : Stmt} {rest : List Stmt} (hat : StmtAt site t p statement t' q)
    (hcall : CallsAgree setting.bounds act call) (hsite : act.site = site)
    (hp : act.site.pool = setting.pool)
    (ho : act.owner = some m) (hs : areSettledInBody closed (statement :: rest) = true)
    (hd : statement.isDistinct = true)
    (hfree : ∀ name ∈ freeInStmts [statement],
      name ∈ m.free ∨ j.scopes.bound? act.scope name ≠ none)
    (hlevels : statement.nesting ≤ setting.maxDepth)
    (h : act.Between setting start closed t slots p j) :
    Joint.Agrees setting.Apart (act.Left setting start) j
      (Eval.stmt call act.scope statement j.evaluator)
      fun result later =>
        (∃ slots', act.Between setting start (closed ++ statement.closed) t' slots' q later) ∧
        (statement.binds? ≠ none → result = none) ∧
        ∀ name, statement.binds? = some name ∨ j.scopes.bound? act.scope name ≠ none →
          later.scopes.bound? act.scope name ≠ none := by
  match hat with
  | .bindGlobal he hdef hst hi hload =>
    rw [areSettledInBody, Bool.and_eq_true] at hs
    rw [Eval.stmt]
    refine (he.body hcall hsite hp ho hs.1 hd
      (fun name hn => hfree name (List.mem_append_left _ hn)) hlevels h).bind ?_
    rintro value j' ⟨other, hstands⟩
    rw [(hstands.sound.defines hdef).storage_eq, hstands.finds.isGlobal_eq ho] at hst
    cases hst
  | .bindLocal he hdef hst hlt hload =>
    rw [areSettledInBody, Bool.and_eq_true, Bool.and_eq_true] at hs
    rw [Eval.stmt]
    refine (he.body hcall hsite hp ho hs.1 hd
      (fun name hn => hfree name (List.mem_append_left _ hn)) hlevels h).bind ?_
    rintro value j' hgives
    obtain ⟨other, hstands⟩ := hgives
    refine Joint.Agrees.bind (h.bindLocal ⟨other, hstands⟩ ho (hstands.sound.defines hdef)
      (hsite ▸ hlt) (hsite ▸ hload) (by simpa using hs.2.1)) ?_
    rintro _ later ⟨hbetween, hscopes⟩
    refine .here ⟨later.made, hbetween, fun _ => rfl, fun name hn => ?_⟩
    have hlt := Nat.lt_of_lt_of_le h.scope_lt hstands.since.size_le
    rw [hscopes, Scopes.bound?_set _ hlt, h.bound?_eq hstands]
    split
    · nofun
    next hne => exact hn.resolve_left fun he => hne ⟨rfl, Option.some_inj.mp he⟩
  | .ret he hret =>
    rw [areSettledInBody, Bool.and_eq_true] at hs
    rw [Eval.stmt]
    refine (he.body hcall hsite hp ho hs.1 hd
      (fun name hn => hfree name (List.mem_append_left _ hn)) hlevels h).bind ?_
    rintro value j' ⟨other, hstands⟩
    exact .here ⟨j'.made, Left.of_leaves h (hstands.leaves (hsite ▸ hret))⟩
  | .retNull hret =>
    rw [Eval.stmt]
    exact .here ⟨j.made, Left.of_leaves h ((h.stands hp []).leaves_null (hsite ▸ hret))⟩
  | .expr he hpop =>
    rw [areSettledInBody, Bool.and_eq_true] at hs
    rw [Eval.stmt]
    refine (he.body hcall hsite hp ho hs.1 hd
      (fun name hn => hfree name (List.mem_append_left _ hn)) hlevels h).bind ?_
    rintro value j' ⟨other, hstands⟩
    refine Snapshot.Meets.imp (hstands.drop (hsite ▸ hpop)) ?_
    rintro s ⟨hlater, _⟩
    refine ⟨j'.made, ⟨slots, h.of_stands hlater⟩, nofun, fun name hn => ?_⟩
    rw [h.bound?_eq hlater]
    exact hn.resolve_left nofun

/-- Statements up to a return leave the call with the same value on both engines. -/
theorem TailAt.body {closing : Closing} {statements : List Stmt} {closed : List String}
    {slots : List Value} {j : Joint} {t t' : SymbolTable} {p q : Nat}
    (hat : TailAt closing site t p statements t' q) (hcall : CallsAgree setting.bounds act call)
    (hclosing : closing = .returns) (hsite : act.site = site) (hp : act.site.pool = setting.pool)
    (ho : act.owner = some m) (hs : areSettledInBody closed statements = true)
    (hd : areDistinctStmts statements = true)
    (hfree : ∀ name ∈ freeInStmts statements,
      name ∈ m.free ∨ j.scopes.bound? act.scope name ≠ none)
    (hlevels : nestingOfStmts statements ≤ setting.maxDepth)
    (h : act.Between setting start closed t slots p j) {last : Value}
    (hlast : statements = [] → last = .null) :
    Joint.Agrees setting.Apart (act.Left setting start) j
      (Eval.stmts call act.scope last statements j.evaluator)
      (act.Left setting start) := by
  match hat with
  | .nil hnull =>
    rw [Eval.stmts, hlast rfl]
    rw [hclosing] at hnull
    exact .here ⟨j.made, Left.of_leaves h ((h.stands hp []).leaves_null (hsite ▸ hnull))⟩
  | .bind hst hnull =>
    rw [areDistinctStmts, Bool.and_eq_true] at hd
    rw [Eval.stmts]
    refine (hst.body hcall hsite hp ho hs hd.1 hfree
      (Nat.le_trans (Nat.le_max_left _ _) hlevels) h).bind ?_
    rintro result later ⟨⟨slots', hbetween⟩, hnone, _⟩
    rw [hnone (Option.some_ne_none _), Eval.stmts]
    rw [hclosing] at hnull
    exact .here ⟨later.made,
      Left.of_leaves hbetween ((hbetween.stands hp []).leaves_null (hsite ▸ hnull))⟩
  | .ret (.ret he hret) =>
    rw [areSettledInBody, Bool.and_eq_true] at hs
    rw [areDistinctStmts, Bool.and_eq_true] at hd
    rw [Eval.stmts, Eval.stmt]
    refine Joint.Agrees.bind (?_ : Joint.Agrees _ _ j _ fun _ _ => False) fun _ _ hf => hf.elim
    refine (he.body hcall hsite hp ho hs.1 hd.1
      (fun name hn => hfree name (List.mem_append_left _ hn))
      (Nat.le_trans (Nat.le_max_left _ _) hlevels) h).bind ?_
    rintro value j' ⟨other, hstands⟩
    exact .here ⟨j'.made, Left.of_leaves h (hstands.leaves (hsite ▸ hret))⟩
  | .retNull (.retNull hret) =>
    rw [Eval.stmts, Eval.stmt]
    exact .here ⟨j.made, Left.of_leaves h ((h.stands hp []).leaves_null (hsite ▸ hret))⟩
  | .value he => cases hclosing
  | .result he hret =>
    rw [areSettledInBody, Bool.and_eq_true] at hs
    rw [areDistinctStmts, Bool.and_eq_true] at hd
    rw [Eval.stmts, Eval.stmt]
    refine Joint.Agrees.bind (?_ : Joint.Agrees _ _ j _ fun result later =>
      ∃ value, result = some value ∧ act.Left setting start value later) ?_
    · refine (he.body hcall hsite hp ho hs.1 hd.1
        (fun name hn => hfree name (List.mem_append_left _ hn))
        (Nat.le_trans (Nat.le_max_left _ _) hlevels) h).bind ?_
      rintro value j' ⟨other, hstands⟩
      exact .here ⟨j'.made, value, rfl, Left.of_leaves h (hstands.leaves (hsite ▸ hret))⟩
    · rintro _ later ⟨value, rfl, hleft⟩
      rw [Eval.stmts]
      exact .here ⟨later.made, hleft⟩
  | @TailAt.cons _ _ _ _ _ _ _ _ statement _ _ hst hrest =>
    rw [areDistinctStmts, Bool.and_eq_true] at hd
    rw [Eval.stmts]
    refine (hst.body hcall hsite hp ho hs hd.1
      (fun name hn => hfree name (mem_freeInStmts_cons.mpr (.inl hn)))
      (Nat.le_trans (Nat.le_max_left _ _) hlevels) h).bind ?_
    rintro result later ⟨⟨slots', hbetween⟩, _, hbound⟩
    refine hrest.body hcall hclosing hsite hp ho (areSettledInBody_rest hs) hd.2 (fun name hn => ?_)
      (Nat.le_trans (Nat.le_max_right _ _) hlevels) hbetween
      fun he => absurd he (List.cons_ne_nil _ _)
    by_cases he : statement.binds? = some name
    · exact .inr (hbound name (.inl he))
    · exact (hfree name (mem_freeInStmts_cons.mpr (.inr ⟨hn, he⟩))).imp id fun hb =>
        hbound name (.inr hb)

end

end Simian
