import Simian.Proofs.CompileScripts
import Simian.Proofs.LexicalScoping

/-!
# Slots and captures of well-kept tables

After any history of bindings, look-ups, and scopes entered and left, every scope of the table is
tidy: names with slots have slots of their own, captures have names of their own, and each capture
is a symbol that the next scope outward still offers (`History.tidy_run`). A name may move from a
capture to a slot while the capture stays in its list, so what keeps captures apart is that a name
which was captured never leaves the scope.

A slot is lost when its name is given to a built-in function or to the function itself. In a
history without such a step the slots are dense: every one belongs to a name. All histories of a
compiler are of this kind (`Script.spared`, `Compiler.spared_afterAll`).
-/
namespace Simian

/-- Whether a name that is stored there has a slot of its own. -/
def Storage.isSlot : Storage → Bool
  | .globalSlot | .localSlot => true
  | .builtin | .captured | .self => false

namespace SymbolScope

/-- The slot belongs to the name. -/
def Holds (scope : SymbolScope) (name : String) (index : Nat) : Prop :=
  ∃ symbol, scope.symbols[name]? = some symbol ∧ symbol.storage.isSlot = true ∧
    symbol.index = index

/-- The scope has what a scope inside it needs in order to capture the symbol. -/
structure Offers (scope : SymbolScope) (symbol : Symbol) : Prop where
  symbols : scope.symbols[symbol.name]? = some symbol
  in_range : symbol.storage = .localSlot ∧ symbol.index < scope.slots ∨
    symbol.storage = .captured ∧ symbol.index < scope.captures.size ∨
    symbol.storage = .self

/-- What every scope keeps, beside those around it. -/
structure Tidy (scope : SymbolScope) (outer : List SymbolScope) : Prop where
  name_eq : ∀ (name : String) (symbol : Symbol), scope.symbols[name]? = some symbol →
    symbol.name = name
  /-- Slots of the outermost scope are global, and all others are local. -/
  slot : ∀ (name : String) (symbol : Symbol), scope.symbols[name]? = some symbol →
    symbol.storage.isSlot = true →
    symbol.storage = (if outer.isEmpty then .globalSlot else .localSlot) ∧
      symbol.index < scope.slots
  apart : ∀ (a b : String) (index : Nat), scope.Holds a index → scope.Holds b index → a = b
  captures_nodup : (scope.captures.toList.map Symbol.name).Nodup
  captured : ∀ (name : String) (symbol : Symbol), scope.symbols[name]? = some symbol →
    symbol.storage = .captured →
    ∃ found, scope.captures[symbol.index]? = some found ∧ found.name = symbol.name
  /-- A captured name stays in the scope, whatever else it is bound to later. -/
  known : ∀ found ∈ scope.captures.toList, (scope.symbols[found.name]?).isSome
  offered : ∀ found ∈ scope.captures.toList, ∃ next rest, outer = next :: rest ∧ next.Offers found

/-- Every slot belongs to a name. -/
def Dense (scope : SymbolScope) : Prop := ∀ index < scope.slots, ∃ name, scope.Holds name index

variable {scope later next : SymbolScope} {outer wider rest : List SymbolScope} {name : String}
  {symbol found : Symbol} {index : Nat}

/-! ### Growing -/

theorem Holds.mono (h : scope.Holds name index) (hg : scope.Grows later) :
    later.Holds name index := by
  obtain ⟨symbol, hs, hslot, hi⟩ := h
  exact ⟨symbol, hg.symbols name symbol hs, hslot, hi⟩

theorem Dense.mono (h : scope.Dense) (hg : scope.Grows later) : later.Dense := by
  intro index hi
  obtain ⟨name, hholds⟩ := h index (hg.slots_eq ▸ hi)
  exact ⟨name, hholds.mono hg⟩

theorem Grows.size_le (h : scope.Grows later) : scope.captures.size ≤ later.captures.size := by
  obtain ⟨more, hmore⟩ := h.captures
  rw [← Array.length_toList, ← Array.length_toList, hmore, List.length_append]
  exact Nat.le_add_right _ _

theorem Offers.mono (h : scope.Offers symbol) (hg : scope.Grows later) : later.Offers symbol where
  symbols := hg.symbols symbol.name symbol h.symbols
  in_range := by
    rcases h.in_range with ⟨hl, hi⟩ | ⟨hc, hi⟩ | hs
    · exact .inl ⟨hl, hg.slots_eq ▸ hi⟩
    · exact .inr (.inl ⟨hc, Nat.lt_of_lt_of_le hi hg.size_le⟩)
    · exact .inr (.inr hs)

/-- The scopes around a tidy scope may grow. -/
theorem Tidy.mono (h : scope.Tidy outer) (hg : List.Forall₂ Grows outer wider) :
    scope.Tidy wider where
  name_eq := h.name_eq
  slot := by
    have hempty : wider.isEmpty = outer.isEmpty := by cases hg <;> rfl
    rw [hempty]
    exact h.slot
  apart := h.apart
  captures_nodup := h.captures_nodup
  captured := h.captured
  known := h.known
  offered := by
    intro found hf
    obtain ⟨next, rest, rfl, hoffers⟩ := h.offered found hf
    cases hg with | cons hnext => ?_
    exact ⟨_, _, rfl, hoffers.mono hnext⟩

/-- Whatever is not shared can be captured from where it is. -/
theorem Tidy.offers (h : scope.Tidy outer) (hs : scope.symbols[name]? = some symbol)
    (hsh : symbol.storage.isShared = false) : scope.Offers symbol := by
  refine ⟨(h.name_eq name symbol hs).symm ▸ hs, ?_⟩
  cases hst : symbol.storage with
  | globalSlot | builtin =>
    rw [hst] at hsh
    cases hsh
  | localSlot => exact .inl ⟨rfl, (h.slot name symbol hs (by rw [hst]; rfl)).2⟩
  | captured =>
    obtain ⟨found, hf, -⟩ := h.captured name symbol hs hst
    exact .inr (.inl ⟨rfl, (Array.getElem?_eq_some_iff.mp hf).1⟩)
  | self => exact .inr (.inr rfl)

/-! ### Binding and capturing -/

theorem not_holds_empty (name : String) (index : Nat) : ¬ empty.Holds name index := by
  rintro ⟨symbol, hs, -⟩
  rw [empty, Std.ExtHashMap.getElem?_empty] at hs
  cases hs

theorem tidy_empty (outer : List SymbolScope) : empty.Tidy outer := by
  have hnone : ∀ name : String, empty.symbols[name]? = none :=
    fun name => Std.ExtHashMap.getElem?_empty
  refine ⟨?_, ?_, fun a _ index ha => absurd ha (not_holds_empty a index), List.nodup_nil,
    ?_, ?_, ?_⟩
  · intro name symbol hs; rw [hnone] at hs; cases hs
  · intro name symbol hs; rw [hnone] at hs; cases hs
  · intro name symbol hs; rw [hnone] at hs; cases hs
  · intro found hf; cases hf
  · intro found hf; cases hf

theorem dense_empty : empty.Dense := fun _ hi => absurd hi (Nat.not_lt_zero _)

theorem symbols_insert_self (scope : SymbolScope) (symbol : Symbol) :
    (scope.insert symbol).symbols[symbol.name]? = some symbol := by
  rw [SymbolTable.symbols_insert, if_pos rfl]

theorem symbols_insert_of_ne (h : symbol.name ≠ name) :
    (scope.insert symbol).symbols[name]? = scope.symbols[name]? := by
  rw [SymbolTable.symbols_insert, if_neg h]

/-- A slot of the scope with a new symbol is that symbol's or an old one of another name. -/
theorem holds_insert_iff : (scope.insert symbol).Holds name index ↔
    symbol.name = name ∧ symbol.storage.isSlot = true ∧ symbol.index = index ∨
      symbol.name ≠ name ∧ scope.Holds name index := by
  by_cases he : symbol.name = name
  · subst he
    rw [Holds, symbols_insert_self]
    simp
  · rw [Holds, Holds, symbols_insert_of_ne he]
    simp [he]

theorem isSome_insert (h : (scope.symbols[name]?).isSome) :
    ((scope.insert symbol).symbols[name]?).isSome := by
  rw [SymbolTable.symbols_insert]
  split
  · rfl
  · exact h

/-- A name may be given a symbol that is good for the scope. Its slot, if it is one, is new. -/
theorem Tidy.insert (h : scope.Tidy outer)
    (hslot : symbol.storage.isSlot = true →
      symbol.storage = (if outer.isEmpty then .globalSlot else .localSlot) ∧
        symbol.index < scope.slots ∧ ∀ other, ¬ scope.Holds other symbol.index)
    (hcaptured : symbol.storage ≠ .captured) : (scope.insert symbol).Tidy outer where
  name_eq := by
    intro name other hs
    rw [SymbolTable.symbols_insert] at hs
    split at hs
    next he => cases hs; exact he
    · exact h.name_eq name other hs
  slot := by
    intro name other hs hst
    rw [SymbolTable.symbols_insert] at hs
    split at hs
    · cases hs; exact ⟨(hslot hst).1, (hslot hst).2.1⟩
    · exact h.slot name other hs hst
  apart := by
    intro a b index ha hb
    rcases holds_insert_iff.mp ha with ⟨rfl, hst, rfl⟩ | ⟨-, ha⟩
    · rcases holds_insert_iff.mp hb with ⟨he, -, -⟩ | ⟨-, hb⟩
      · exact he
      · exact absurd hb ((hslot hst).2.2 b)
    · rcases holds_insert_iff.mp hb with ⟨rfl, hst, rfl⟩ | ⟨-, hb⟩
      · exact absurd ha ((hslot hst).2.2 a)
      · exact h.apart a b index ha hb
  captures_nodup := h.captures_nodup
  captured := by
    intro name other hs hst
    rw [SymbolTable.symbols_insert] at hs
    split at hs
    · cases hs; exact absurd hst hcaptured
    · exact h.captured name other hs hst
  known := fun found hf => isSome_insert (h.known found hf)
  offered := h.offered

theorem Tidy.insert_unslotted (h : scope.Tidy outer) (hslot : symbol.storage.isSlot = false)
    (hcaptured : symbol.storage ≠ .captured) : (scope.insert symbol).Tidy outer :=
  h.insert (fun hst => Bool.noConfusion (hslot.symm.trans hst)) hcaptured

/-- Slots may be taken ahead of their names. -/
theorem Tidy.take (h : scope.Tidy outer) : Tidy { scope with slots := scope.slots + 1 } outer :=
  { h with slot := fun name symbol hs hst =>
      ⟨(h.slot name symbol hs hst).1, Nat.lt_succ_of_lt (h.slot name symbol hs hst).2⟩ }

/-- What `define` does: the name has its slot already, or it is given the next one. -/
theorem Tidy.define_cases (h : scope.Tidy outer) {storage : Storage}
    (hst : storage = if outer.isEmpty then .globalSlot else .localSlot) (name : String) :
    (scope.define storage name).2 = scope ∨
    (∀ index, ¬ scope.Holds name index) ∧ (scope.define storage name).2 =
      { scope with slots := scope.slots + 1 }.insert ⟨name, storage, scope.slots⟩ := by
  rw [define]
  cases hf : (scope.symbols[name]?).filter (·.storage == storage) with
  | some symbol => exact .inl rfl
  | none =>
    refine .inr ⟨?_, rfl⟩
    rintro index ⟨symbol, hs, hslot, -⟩
    have hne := Option.filter_eq_none_iff.mp hf symbol hs
    rw [(h.slot name symbol hs hslot).1, hst] at hne
    exact hne (beq_self_eq_true _)

theorem isSlot_of_eq {storage : Storage}
    (hst : storage = if outer.isEmpty then .globalSlot else .localSlot) :
    storage.isSlot = true := by
  rw [hst]
  split <;> rfl

theorem Tidy.define (h : scope.Tidy outer) {storage : Storage}
    (hst : storage = if outer.isEmpty then .globalSlot else .localSlot) (name : String) :
    (scope.define storage name).2.Tidy outer := by
  rcases h.define_cases hst name with hsame | ⟨-, hnew⟩
  · rw [hsame]
    exact h
  · rw [hnew]
    refine h.take.insert (fun _ => ⟨hst, Nat.lt_succ_self _, ?_⟩) fun hc => ?_
    · rintro other ⟨symbol, hs, hslot, hi⟩
      exact absurd hi (Nat.ne_of_lt (h.slot other symbol hs hslot).2)
    · have hslot := isSlot_of_eq hst
      rw [show storage = .captured from hc] at hslot
      cases hslot

theorem Dense.define (h : scope.Dense) (ht : scope.Tidy outer) {storage : Storage}
    (hst : storage = if outer.isEmpty then .globalSlot else .localSlot) (name : String) :
    (scope.define storage name).2.Dense := by
  rcases ht.define_cases hst name with hsame | ⟨hfree, hnew⟩
  · rw [hsame]
    exact h
  · rw [hnew]
    intro index hi
    rcases Nat.lt_succ_iff_lt_or_eq.mp hi with hi | rfl
    · obtain ⟨other, hholds⟩ := h index hi
      have hne : name ≠ other := by
        rintro rfl
        exact hfree index hholds
      exact ⟨other, holds_insert_iff.mpr (.inr ⟨hne, hholds⟩)⟩
    · exact ⟨name, holds_insert_iff.mpr (.inl ⟨rfl, isSlot_of_eq hst, rfl⟩)⟩

/-- A symbol without a slot loses no slot, unless its name had one. -/
theorem Dense.insert (h : scope.Dense) (hfree : ∀ index, ¬ scope.Holds symbol.name index) :
    (scope.insert symbol).Dense := by
  intro index hi
  obtain ⟨name, hholds⟩ := h index hi
  exact ⟨name, holds_insert_iff.mpr (.inr ⟨fun he => hfree index (he ▸ hholds), hholds⟩)⟩

theorem Tidy.capture (h : scope.Tidy (next :: rest)) (hn : scope.symbols[found.name]? = none)
    (hf : next.Offers found) : (scope.capture found).2.Tidy (next :: rest) := by
  have hsize : (scope.capture found).2.captures[scope.captures.size]? = some found :=
    Array.getElem?_push_size
  have htail : (scope.capture found).2.captures.toList = scope.captures.toList ++ [found] := by
    rw [captures_capture, Array.toList_push]
  have hgrows := grows_capture hn
  refine ⟨?_, ?_, ?_, ?_, ?_, ?_, ?_⟩
  · intro name symbol hs
    rw [symbols_capture] at hs
    split at hs
    next he => cases hs; exact he
    · exact h.name_eq name symbol hs
  · intro name symbol hs hst
    rw [symbols_capture] at hs
    split at hs
    · cases hs; cases hst
    · exact h.slot name symbol hs hst
  · -- The new name has no slot.
    have hold : ∀ (name : String) (index : Nat), (scope.capture found).2.Holds name index →
        scope.Holds name index := by
      rintro name index ⟨symbol, hs, hst, hi⟩
      rw [symbols_capture] at hs
      split at hs
      · cases hs; cases hst
      · exact ⟨symbol, hs, hst, hi⟩
    exact fun a b index ha hb => h.apart a b index (hold a index ha) (hold b index hb)
  · rw [htail, List.map_append, List.nodup_append]
    refine ⟨h.captures_nodup, List.pairwise_singleton _ _, ?_⟩
    rintro other ho last hl rfl
    obtain ⟨earlier, hearlier, rfl⟩ := List.mem_map.mp ho
    have hknown := h.known earlier hearlier
    rw [List.mem_singleton.mp hl, hn] at hknown
    cases hknown
  · intro name symbol hs hst
    rw [symbols_capture] at hs
    split at hs
    next => cases hs; exact ⟨found, hsize, rfl⟩
    · obtain ⟨earlier, hearlier, hname⟩ := h.captured name symbol hs hst
      exact ⟨earlier, (Keeps.getElem? hgrows.captures hearlier), hname⟩
  · intro other ho
    rw [htail] at ho
    rcases List.mem_append.mp ho with ho | ho
    · obtain ⟨symbol, hs⟩ := Option.isSome_iff_exists.mp (h.known other ho)
      rw [hgrows.symbols other.name symbol hs]
      rfl
    · rw [List.mem_singleton.mp ho, symbols_capture, if_pos rfl]
      rfl
  · intro other ho
    rw [htail] at ho
    rcases List.mem_append.mp ho with ho | ho
    · exact h.offered other ho
    · rw [List.mem_singleton.mp ho]
      exact ⟨next, rest, rfl, hf⟩

/-! ### Chains of scopes -/

/-- Each scope is tidy beside those around it. -/
def Orderly : List SymbolScope → Prop
  | [] => True
  | scope :: outer => scope.Tidy outer ∧ Orderly outer

theorem Orderly.tidy {scopes : List SymbolScope} (h : Orderly scopes)
    (hs : scope :: outer <:+ scopes) : scope.Tidy outer := by
  induction scopes with
  | nil => cases List.suffix_nil.mp hs
  | cons inner others ih =>
    rcases List.suffix_cons_iff.mp hs with he | hs
    · cases he
      exact h.1
    · exact ih h.2 hs

end SymbolScope

namespace SymbolTable

open SymbolScope

/-- Looking a name up leaves all scopes tidy, and what is found can be captured. By induction
outward: what the next scope finds is what this one captures. -/
theorem orderly_resolveFrom {name : String} {outer : List SymbolScope} {inner : SymbolScope}
    {symbol : Symbol} {table : SymbolTable} (h : Orderly (inner :: outer))
    (hr : resolveFrom name inner outer = some (symbol, table)) :
    Orderly table.scopes ∧ List.Forall₂ SymbolScope.Grows (inner :: outer) table.scopes ∧
      symbol.name = name ∧ (symbol.storage.isShared = false → table.inner.Offers symbol) := by
  induction outer generalizing inner symbol table with
  | nil =>
    cases hs : inner.symbols[name]? with
    | none =>
      rw [resolveFrom, hs] at hr
      cases hr
    | some own =>
      rw [resolveFrom_of_inner hs] at hr
      cases hr
      exact ⟨h, forall₂_grows_refl _, h.1.name_eq name symbol hs, h.1.offers hs⟩
  | cons next rest ih =>
    cases hs : inner.symbols[name]? with
    | some own =>
      rw [resolveFrom_of_inner hs] at hr
      cases hr
      exact ⟨h, forall₂_grows_refl _, h.1.name_eq name symbol hs, h.1.offers hs⟩
    | none =>
      cases hout : resolveFrom name next rest with
      | none =>
        rw [resolveFrom_of_missing hs hout] at hr
        cases hr
      | some answer =>
        obtain ⟨found, mid⟩ := answer
        obtain ⟨horderly, hgrows, hname, hoffers⟩ := ih h.2 hout
        have htidy := h.1.mono hgrows
        cases hsh : found.storage.isShared with
        | true =>
          rw [resolveFrom_of_shared hs hout hsh] at hr
          cases hr
          refine ⟨⟨htidy, horderly⟩, .cons (.refl _) hgrows, hname, fun hnot => ?_⟩
          exact Bool.noConfusion (hsh.symm.trans hnot)
        | false =>
          rw [resolveFrom_of_own hs hout hsh] at hr
          cases hr
          subst hname
          refine ⟨⟨htidy.capture hs (hoffers hsh), horderly⟩, .cons (grows_capture hs) hgrows,
            rfl, fun _ => ⟨?_, .inr (.inl ⟨rfl, ?_⟩)⟩⟩
          · rw [symbols_capture]
            exact if_pos rfl
          · rw [captures_capture, Array.size_push]
            exact Nat.lt_succ_self _

/-- The step gives no name of a slot to something that has none. -/
def Spares (table : SymbolTable) : Naming → Prop
  | .builtin _ name | .ownName name => ∀ index, ¬ table.inner.Holds name index
  | .define _ | .resolve _ | .enter | .leave => True

end SymbolTable

namespace History

open SymbolScope

/-- The steps spare every slot that there is when it is their turn. -/
def Sparing (history : History) : List Naming → Prop
  | [] => True
  | naming :: rest => history.table.Spares naming ∧ (history.step naming).Sparing rest

variable {history : History}

theorem orderly_step (h : Orderly history.table.scopes) (naming : Naming) :
    Orderly (history.step naming).table.scopes := by
  obtain ⟨⟨inner, outer⟩, accounts⟩ := history
  cases naming with
  | define name => exact ⟨h.1.define rfl name, h.2⟩
  | builtin index name => exact ⟨h.1.insert_unslotted rfl Storage.noConfusion, h.2⟩
  | ownName name => exact ⟨h.1.insert_unslotted rfl Storage.noConfusion, h.2⟩
  | resolve name =>
    rw [step]
    dsimp only
    cases hr : SymbolTable.resolve ⟨inner, outer⟩ name with
    | none => exact h
    | some answer =>
      obtain ⟨symbol, later⟩ := answer
      exact (SymbolTable.orderly_resolveFrom h hr).1
  | enter => exact ⟨tidy_empty _, h⟩
  | leave =>
    cases outer with
    | nil => exact h
    | cons next rest => exact h.2

theorem dense_of_grows {scopes later : List SymbolScope} (hg : List.Forall₂ Grows scopes later)
    (h : ∀ scope ∈ scopes, scope.Dense) : ∀ scope ∈ later, scope.Dense := by
  induction hg with
  | nil => exact h
  | cons hgrows _ ih =>
    rw [List.forall_mem_cons] at h ⊢
    exact ⟨h.1.mono hgrows, ih h.2⟩

/-- A step that spares the slots keeps all scopes dense. -/
theorem dense_step (ho : Orderly history.table.scopes)
    (h : ∀ scope ∈ history.table.scopes, scope.Dense) {naming : Naming}
    (hspares : history.table.Spares naming) :
    ∀ scope ∈ (history.step naming).table.scopes, scope.Dense := by
  obtain ⟨⟨inner, outer⟩, accounts⟩ := history
  obtain ⟨hinner, houter⟩ := List.forall_mem_cons.mp h
  cases naming with
  | define name => exact List.forall_mem_cons.mpr ⟨hinner.define ho.1 rfl name, houter⟩
  | builtin index name => exact List.forall_mem_cons.mpr ⟨hinner.insert hspares, houter⟩
  | ownName name => exact List.forall_mem_cons.mpr ⟨hinner.insert hspares, houter⟩
  | resolve name =>
    rw [step]
    dsimp only
    cases hr : SymbolTable.resolve ⟨inner, outer⟩ name with
    | none => exact h
    | some answer =>
      obtain ⟨symbol, later⟩ := answer
      exact dense_of_grows (SymbolTable.orderly_resolveFrom ho hr).2.1 h
  | enter => exact List.forall_mem_cons.mpr ⟨dense_empty, h⟩
  | leave =>
    cases outer with
    | nil => exact h
    | cons next rest => exact houter

theorem orderly_foldl (h : Orderly history.table.scopes) (steps : List Naming) :
    Orderly (steps.foldl step history).table.scopes := by
  induction steps generalizing history with
  | nil => exact h
  | cons naming steps ih => exact ih (orderly_step h naming)

theorem dense_foldl (ho : Orderly history.table.scopes)
    (h : ∀ scope ∈ history.table.scopes, scope.Dense) {steps : List Naming}
    (hsparing : history.Sparing steps) :
    ∀ scope ∈ (steps.foldl step history).table.scopes, scope.Dense := by
  induction steps generalizing history with
  | nil => exact h
  | cons naming steps ih =>
    exact ih (orderly_step ho naming) (dense_step ho h hsparing.1) hsparing.2

theorem orderly_start : Orderly start.table.scopes := ⟨tidy_empty [], trivial⟩

/-- In every scope of a table, whatever was done with the table, slots and captures are well-kept.
If no slot's name was given to a built-in function or to a function itself, then every slot up to
their count belongs to exactly one name. -/
theorem tidy_run (steps : List Naming) {scope : SymbolScope} {outer : List SymbolScope}
    (h : scope :: outer <:+ (run steps).table.scopes) :
    scope.Tidy outer ∧
      (start.Sparing steps → ∀ index < scope.slots, ∃! name, scope.Holds name index) := by
  have htidy := (orderly_foldl orderly_start steps).tidy h
  refine ⟨htidy, fun hsparing index hi => ?_⟩
  have hstart : ∀ scope ∈ start.table.scopes, scope.Dense :=
    List.forall_mem_singleton.mpr dense_empty
  have hdense := dense_foldl orderly_start hstart hsparing scope (h.mem List.mem_cons_self)
  obtain ⟨name, hname⟩ := hdense index hi
  exact ⟨name, hname, fun other hother => htidy.apart other name index hother hname⟩

/-- A name is captured before it is given a slot. -/
def moved : List Naming :=
  [.builtin 0 "len", .enter, .ownName "f", .define "x", .enter, .resolve "x", .define "x"]

theorem sparing_moved : start.Sparing moved :=
  ⟨not_holds_empty _, trivial, not_holds_empty _, trivial, trivial, trivial, trivial, trivial⟩

theorem slots_moved : (run moved).table.inner.slots = 1 ∧
    (run moved).table.inner.captures = #[⟨"x", .localSlot, 0⟩] := by
  simp [moved, run, step, hand, start, empty, SymbolTable.empty, SymbolTable.enter,
    SymbolTable.defineBuiltin, SymbolTable.defineSelf, SymbolTable.define, SymbolTable.isGlobal,
    SymbolTable.resolve, SymbolTable.resolveFrom, SymbolScope.define, SymbolScope.insert,
    SymbolScope.capture]
  exact ⟨rfl, rfl⟩

theorem tidy_run_moved :
    start.Sparing moved ∧ (run moved).table.inner.captures = #[⟨"x", .localSlot, 0⟩] ∧
      (run moved).table.inner.Tidy (run moved).table.outer ∧
      ∃! name, (run moved).table.inner.Holds name 0 := by
  have hsuffix : (run moved).table.inner :: (run moved).table.outer <:+
      (run moved).table.scopes := List.suffix_rfl
  obtain ⟨htidy, hdense⟩ := tidy_run moved hsuffix
  exact ⟨sparing_moved, slots_moved.2, htidy,
    hdense sparing_moved 0 (slots_moved.1 ▸ Nat.one_pos)⟩

end History

/-! ### Tables of a compiler -/

namespace SymbolTable

open SymbolScope

/-- The table comes about by steps that spare all slots. -/
def Spared (table : SymbolTable) : Prop :=
  ∃ steps, History.start.Sparing steps ∧ (History.run steps).table = table

/-- The table alone decides what a step does to it. -/
theorem table_step {a b : History} (h : a.table = b.table) (naming : Naming) :
    (a.step naming).table = (b.step naming).table := by
  obtain ⟨table, _⟩ := a
  obtain rfl : table = b.table := h
  cases naming with
  | define | builtin | ownName | enter => rfl
  | resolve name =>
    rw [History.step, History.step]
    dsimp only
    cases b.table.resolve name <;> rfl
  | leave =>
    rw [History.step, History.step]
    dsimp only
    cases b.table.leave? <;> rfl

theorem sparing_concat {history : History} {steps : List Naming} {naming : Naming}
    (h : history.Sparing steps) (hs : (steps.foldl History.step history).table.Spares naming) :
    history.Sparing (steps ++ [naming]) := by
  induction steps generalizing history with
  | nil => exact ⟨hs, trivial⟩
  | cons first rest ih => exact ⟨h.1, ih h.2 hs⟩

namespace Spared

variable {table later : SymbolTable}

theorem empty : Spared .empty := ⟨[], trivial, rfl⟩

theorem step (h : table.Spared) (naming : Naming) (hs : table.Spares naming) :
    (History.step ⟨table, []⟩ naming).table.Spared := by
  obtain ⟨steps, hsparing, rfl⟩ := h
  refine ⟨steps ++ [naming], sparing_concat hsparing hs, ?_⟩
  have hsame : (History.run steps).table = (⟨(History.run steps).table, []⟩ : History).table := rfl
  rw [History.run, List.foldl_concat]
  exact table_step hsame naming

theorem define (h : table.Spared) (name : String) : (table.define name).2.Spared :=
  h.step (.define name) trivial

theorem resolve (h : table.Spared) {name : String} {symbol : Symbol}
    (hr : table.resolve name = some (symbol, later)) : later.Spared := by
  have hstep := h.step (.resolve name) trivial
  rw [History.step] at hstep
  dsimp only at hstep
  rw [hr] at hstep
  exact hstep

theorem leave (h : table.Spared) : (table.leave?.getD table).Spared := by
  have hstep := h.step .leave trivial
  rw [History.step] at hstep
  dsimp only at hstep
  cases hl : table.leave? with
  | none => exact h
  | some later =>
    rw [hl] at hstep
    exact hstep

/-- The own name of a function comes before its parameters, when its scope is still empty. -/
theorem opened (h : table.Spared) (name : Option String) (parameters : List String) :
    (table.opened name parameters).Spared := by
  have henter : table.enter.Spared := h.step .enter trivial
  have hparameters (first : SymbolTable) (hf : first.Spared) : Spared
      (parameters.foldl (fun table parameter => (table.define parameter).2) first) := by
    induction parameters generalizing first with
    | nil => exact hf
    | cons parameter rest ih => exact ih _ (hf.define parameter)
  cases name with
  | none => exact hparameters _ henter
  | some name => exact hparameters _ (henter.step (.ownName name) (not_holds_empty name))

/-- Built-in functions may be bound as long as no name has a slot. -/
theorem builtins (h : table.Spared) (hnone : ∀ name index, ¬ table.inner.Holds name index)
    (builtins : List (Builtin × Nat)) : Spared (builtins.foldl
      (fun symbols (builtin, index) => (symbols.defineBuiltin index builtin.name).2) table) := by
  induction builtins generalizing table with
  | nil => exact h
  | cons entry rest ih =>
    refine ih (h.step (.builtin entry.2 entry.1.name) (hnone _)) fun name index hholds => ?_
    rcases holds_insert_iff.mp hholds with ⟨-, hslot, -⟩ | ⟨-, hholds⟩
    · cases hslot
    · exact hnone name index hholds

end Spared

end SymbolTable

namespace Compile

open Attempt

/-- The step spares the slots of the table that it works on, also when it fails. -/
def SparesSlots {α : Type} (work : Compile α) : Prop :=
  ∀ compiler : Compiler, compiler.symbols.Spared → (work compiler).2.symbols.Spared

namespace SparesSlots

variable {α β : Type}

theorem of_same {work : Compile α} (h : ∀ compiler, (work compiler).2.symbols = compiler.symbols) :
    SparesSlots work := fun compiler hs => by
  rw [h]
  exact hs

theorem bind {first : Compile α} {next : α → Compile β} (hf : SparesSlots first)
    (hn : ∀ value, SparesSlots (next value)) : SparesSlots (first >>= next) := by
  intro compiler h
  have hfirst := hf compiler h
  rw [bind_apply]
  cases hr : first compiler with
  | mk result between =>
    rw [hr] at hfirst
    cases result with
    | error error => exact hfirst
    | ok value => exact hn value between hfirst

theorem onBuilder (change : CodeBuilder → α × CodeBuilder) : SparesSlots (onBuilder change) :=
  of_same fun _ => by rw [onBuilder_apply]

theorem fail (cause : CompileError.Cause) : SparesSlots (failHere cause : Compile α) :=
  of_same fun _ => rfl

theorem checkLimit (count limit : Nat) (cause : Nat → CompileError.Cause) :
    SparesSlots (checkLimit count limit cause) := by
  unfold Compile.checkLimit
  split
  · exact fail _
  · exact of_same fun _ => rfl

theorem loadSymbol (symbol : Symbol) : SparesSlots (loadSymbol symbol) := by
  rw [loadSymbol_eq]
  exact onBuilder _

theorem storeSymbol (symbol : Symbol) : SparesSlots (storeSymbol symbol) := by
  unfold Compile.storeSymbol
  cases symbol.storage with
  | globalSlot | localSlot =>
    dsimp only
    split
    · exact onBuilder _
    · exact fail _
  | builtin | captured | self => exact fail _

theorem addConstant (value : Value) : SparesSlots (addConstant value) := of_same fun compiler => by
  unfold Compile.addConstant
  split
  · rfl
  · unfold pushConstant
    dsimp only
    split <;> rfl

theorem leaveBuilder : SparesSlots leaveBuilder := of_same fun compiler => by
  obtain ⟨constants, places, symbols, builder, enclosing, depth, span, maxDepth⟩ := compiler
  unfold Compile.leaveBuilder
  cases enclosing <;> dsimp only <;> split <;> rfl

theorem loadName (name : String) : SparesSlots (loadName name) := by
  refine bind (fun compiler h => ?_) fun found => ?_
  · rw [onSymbols_apply]
    cases hr : compiler.symbols.resolve name with
    | none => exact h
    | some answer => exact h.resolve hr
  · cases found with
    | none => exact fail _
    | some symbol => exact loadSymbol symbol

theorem define (name : String) : SparesSlots (onSymbols (·.define name)) := fun compiler h => by
  rw [onSymbols_apply]
  exact h.define name

theorem nested {span : Span} {body : Compile Unit} (h : SparesSlots body) :
    SparesSlots (nested span body) := by
  intro compiler hs
  unfold Compile.nested
  split
  · exact hs
  · exact h { compiler with depth := compiler.depth + 1, span } hs

theorem packFunction (name : Option String) (parameters : List String) (span : Span) :
    SparesSlots (packFunction name parameters span) := by
  have hleave : SparesSlots leaveScope := bind
    (fun compiler h => by rw [onSymbols_apply]; exact h.leave) fun _ => leaveBuilder
  have hloads (symbols : List Symbol) : SparesSlots (symbols.forM Compile.loadSymbol) := by
    induction symbols with
    | nil => exact of_same fun _ => rfl
    | cons symbol rest ih => exact bind (loadSymbol symbol) fun _ => ih
  refine bind (of_same fun _ => rfl) fun compiler => bind hleave fun code =>
    bind (of_same fun _ => rfl) fun _ => ?_
  split
  · exact fail _
  · refine bind (checkLimit _ _ _) fun _ => bind (hloads _) fun _ => bind ?_ fun _ => onBuilder _
    exact fun compiler => addConstant (.compiled compiler.constants.size _) compiler

end SparesSlots

end Compile

/-- Whatever a part of the compilation does to a table, it spares the slots there. -/
theorem Script.spared {α : Type} {work : Compile α} (script : Script work) :
    Compile.SparesSlots work := by
  induction script with
  | quiet h =>
    refine .of_same fun compiler => ?_
    obtain ⟨value, span, labels, hw⟩ := h compiler
    rw [hw]
  | bind _ _ hf hn => exact .bind hf hn
  | nested _ _ h => exact .nested h
  | limited count limit cause wanted hcause rest hrest =>
    by_cases hle : count ≤ limit
    · exact .bind (.checkLimit _ _ _) fun _ => hrest hle
    · rw [Compile.checkLimit, if_pos (Nat.lt_of_not_le hle)]
      exact .of_same fun _ => rfl
  | emit | jump | dropPop | returnPop => exact .onBuilder _
  | constant key _ hrest =>
    exact .bind (.addConstant _) fun _ => .bind (.onBuilder _) fun _ => hrest
  | load name => exact .loadName name
  | bindName name => exact .bind (.define name) .storeSymbol
  | openFunction name parameters =>
    intro compiler h
    rw [Compile.openFunction_apply]
    exact h.opened name parameters
  | packFunction name parameters span => exact .packFunction name parameters span

namespace Compiler

theorem spared_create (maxDepth : Nat) : (create maxDepth).symbols.Spared :=
  SymbolTable.Spared.empty.builtins SymbolScope.not_holds_empty _

/-- Between units, the table of a compiler has come about by steps that spare all slots. -/
theorem spared_afterAll {compiler : Compiler} (h : compiler.symbols.Spared)
    (trees : List Program) : (compiler.afterAll trees).symbols.Spared := by
  have hprogram (tree : Program) : Compile.SparesSlots (Compile.program tree) :=
    .bind (.of_same fun _ => rfl) fun _ => .bind (Script.stmts tree.statements).spared fun _ =>
      .bind .leaveBuilder fun _ => .of_same fun _ => rfl
  induction trees generalizing compiler with
  | nil => exact h
  | cons tree rest ih =>
    have hspared := hprogram tree compiler h
    refine ih ?_
    unfold Compiler.compile
    dsimp only
    cases hr : Compile.program tree compiler with
    | mk result later =>
      rw [hr] at hspared
      cases result with
      | ok unit => exact hspared
      | error error => exact h

end Compiler

end Simian
