import Mathlib.Data.List.Forall2
import Simian.Bytecode.Compiler

/-!
# Well-formed chains of scopes

`SymbolTable.Sound` says what a table of names keeps from one operation to the next:
every name has its own slot below the count, every captured name has its place in the
list of captures, and every capture is a symbol that the next scope outward still has
under its name. Looking a name up grows the scopes it passes through and changes no
symbol that is there (`SymbolScope.Grows`).
-/
namespace Simian

/-- Whether the storage is the same place from within every function. -/
def Storage.isShared : Storage → Bool
  | .globalSlot | .builtin => true
  | .localSlot | .captured | .self => false

namespace SymbolScope

/-- Symbols of one storage class have slots of their own. -/
def Apart (scope : SymbolScope) (storage : Storage) : Prop :=
  ∀ (a b : String) (s t : Symbol), scope.symbols[a]? = some s → scope.symbols[b]? = some t →
    s.storage = storage → t.storage = storage → s.index = t.index → a = b

/-- The scope that holds the globals and the built-in functions. -/
structure Outermost (scope : SymbolScope) : Prop where
  name_eq : ∀ (name : String) (symbol : Symbol), scope.symbols[name]? = some symbol →
    symbol.name = name
  storage : ∀ (name : String) (symbol : Symbol), scope.symbols[name]? = some symbol →
    symbol.storage = .globalSlot ∧ symbol.index < scope.slots ∧ symbol.index < maxGlobals ∨
    symbol.storage = .builtin ∧
      ∃ builtin, Builtin.ofIndex? symbol.index = some builtin ∧ builtin.name = name
  apart : scope.Apart .globalSlot
  captures_eq : scope.captures = #[]

/-- The scope of a function that stands in the scope `next`. -/
structure Inside (scope next : SymbolScope) : Prop where
  name_eq : ∀ (name : String) (symbol : Symbol), scope.symbols[name]? = some symbol →
    symbol.name = name
  storage : ∀ (name : String) (symbol : Symbol), scope.symbols[name]? = some symbol →
    symbol.storage = .localSlot ∧ symbol.index < scope.slots ∨
    symbol.storage = .captured ∧
      (∃ found, scope.captures[symbol.index]? = some found ∧ found.name = name) ∨
    symbol.storage = .self
  apart : scope.Apart .localSlot
  captures : ∀ found ∈ scope.captures.toList,
    next.symbols[found.name]? = some found ∧ found.storage.isShared = false

/-- Each scope lies well in the next, and the last one is outermost. -/
def Chained : SymbolScope → List SymbolScope → Prop
  | scope, [] => Outermost scope
  | scope, next :: rest => Inside scope next ∧ Chained next rest

/-- The second scope has the symbols of the first, and others only as captured names. -/
structure Grows (scope later : SymbolScope) : Prop where
  slots_eq : later.slots = scope.slots
  captures : ∃ more, later.captures.toList = scope.captures.toList ++ more
  symbols : ∀ (name : String) (symbol : Symbol), scope.symbols[name]? = some symbol →
    later.symbols[name]? = some symbol
  added : ∀ (name : String) (symbol : Symbol), later.symbols[name]? = some symbol →
    scope.symbols[name]? = some symbol ∨
      scope.symbols[name]? = none ∧ symbol.storage = .captured

theorem Grows.refl (scope : SymbolScope) : Grows scope scope :=
  ⟨rfl, ⟨[], (List.append_nil _).symm⟩, fun _ _ h => h, fun _ _ h => .inl h⟩

theorem Grows.trans {a b c : SymbolScope} (hab : Grows a b) (hbc : Grows b c) : Grows a c where
  slots_eq := hbc.slots_eq.trans hab.slots_eq
  captures := by
    obtain ⟨front, hf⟩ := hab.captures
    obtain ⟨back, hb⟩ := hbc.captures
    exact ⟨front ++ back, by rw [hb, hf, List.append_assoc]⟩
  symbols := fun name symbol h => hbc.symbols name symbol (hab.symbols name symbol h)
  added := by
    intro name symbol h
    rcases hbc.added name symbol h with h | ⟨h, hs⟩
    · exact hab.added name symbol h
    · cases ha : a.symbols[name]? with
      | none => exact .inr ⟨rfl, hs⟩
      | some other =>
        rw [hab.symbols name other ha] at h
        cases h

/-- A scope stays well inside one that grows. -/
theorem Inside.mono {scope next later : SymbolScope} (h : Inside scope next)
    (hg : Grows next later) : Inside scope later :=
  { h with
    captures := fun found hf =>
      ⟨hg.symbols found.name found (h.captures found hf).1, (h.captures found hf).2⟩ }

/-! ### Capturing -/

section capture
variable {scope next : SymbolScope} {found : Symbol}

theorem symbols_capture (name : String) : (scope.capture found).2.symbols[name]? =
    if found.name = name then some ⟨found.name, .captured, scope.captures.size⟩
    else scope.symbols[name]? := by
  show (scope.symbols.insert found.name _)[name]? = _
  rw [Std.ExtHashMap.getElem?_insert]
  simp

theorem captures_capture : (scope.capture found).2.captures = scope.captures.push found := rfl

theorem grows_capture (hn : scope.symbols[found.name]? = none) :
    Grows scope (scope.capture found).2 where
  slots_eq := rfl
  captures := ⟨[found], by rw [captures_capture, Array.toList_push]⟩
  symbols := by
    intro name symbol h
    rw [symbols_capture, if_neg (by rintro rfl; rw [hn] at h; cases h)]
    exact h
  added := by
    intro name symbol h
    rw [symbols_capture] at h
    split at h
    next he =>
      cases h
      exact .inr ⟨he ▸ hn, rfl⟩
    · exact .inl h

theorem Inside.capture (h : Inside scope next) (hf : next.symbols[found.name]? = some found)
    (hs : found.storage.isShared = false) : Inside (scope.capture found).2 next where
  name_eq := by
    intro name symbol hn
    rw [symbols_capture] at hn
    split at hn
    next he => cases hn; exact he
    · exact h.name_eq name symbol hn
  storage := by
    intro name symbol hn
    rw [symbols_capture] at hn
    rw [captures_capture]
    split at hn
    next he =>
      cases hn
      exact .inr (.inl ⟨rfl, found, Array.getElem?_push_size, he⟩)
    · rcases h.storage name symbol hn with hl | ⟨hc, old, ho, hname⟩ | hself
      · exact .inl hl
      · refine .inr (.inl ⟨hc, old, ?_, hname⟩)
        rw [Array.getElem?_push_lt (Array.getElem?_eq_some_iff.mp ho).1]
        exact congrArg some (Array.getElem?_eq_some_iff.mp ho).2
      · exact .inr (.inr hself)
  apart := by
    intro a b s t ha hb hsl htl hi
    rw [symbols_capture] at ha hb
    split at ha
    · cases ha; cases hsl
    · split at hb
      · cases hb; cases htl
      · exact h.apart a b s t ha hb hsl htl hi
  captures := by
    intro other ho
    rw [captures_capture, Array.toList_push] at ho
    rcases List.mem_append.mp ho with ho | ho
    · exact h.captures other ho
    · cases List.mem_singleton.mp ho
      exact ⟨hf, hs⟩

end capture

end SymbolScope

namespace SymbolTable

open SymbolScope

def Sound (table : SymbolTable) : Prop := Chained table.inner table.outer

/-- Every scope of the first table has grown to the one at its place in the second. -/
structure Grows (table later : SymbolTable) : Prop where
  inner : table.inner.Grows later.inner
  outer : List.Forall₂ SymbolScope.Grows table.outer later.outer

theorem Grows.refl (table : SymbolTable) : Grows table table :=
  ⟨.refl _, List.forall₂_same.mpr fun scope _ => .refl scope⟩

theorem forall₂_grows_trans : ∀ {a b c : List SymbolScope}, List.Forall₂ SymbolScope.Grows a b →
    List.Forall₂ SymbolScope.Grows b c → List.Forall₂ SymbolScope.Grows a c
  | _, _, _, .nil, .nil => .nil
  | _, _, _, .cons h₁ t₁, .cons h₂ t₂ => .cons (h₁.trans h₂) (forall₂_grows_trans t₁ t₂)

/-! ### Looking names up -/

/-- What a symbol that a look-up found is good for. A shared symbol lies in the outermost scope,
and any other is in the innermost one. -/
structure Found (name : String) (symbol : Symbol) (table : SymbolTable) : Prop where
  name_eq : symbol.name = name
  own : symbol.storage.isShared = false → table.inner.symbols[name]? = some symbol
  global : symbol.storage = .globalSlot → symbol.index < maxGlobals
  builtin : symbol.storage = .builtin →
    ∃ builtin, Builtin.ofIndex? symbol.index = some builtin ∧ builtin.name = name

theorem found_inside {name : String} {symbol : Symbol} {inner next : SymbolScope}
    {rest : List SymbolScope} (h : Inside inner next) (hs : inner.symbols[name]? = some symbol) :
    Found name symbol ⟨inner, next :: rest⟩ := by
  refine ⟨h.name_eq name symbol hs, fun _ => hs, fun hg => ?_, fun hb => ?_⟩
  · rcases h.storage name symbol hs with ⟨hl, _⟩ | ⟨hc, _⟩ | hself <;> simp_all
  · rcases h.storage name symbol hs with ⟨hl, _⟩ | ⟨hc, _⟩ | hself <;> simp_all

theorem found_outermost {name : String} {symbol : Symbol} {inner : SymbolScope}
    (h : Outermost inner) (hs : inner.symbols[name]? = some symbol) :
    Found name symbol ⟨inner, []⟩ := by
  refine ⟨h.name_eq name symbol hs, fun _ => hs, fun hg => ?_, fun hb => ?_⟩
  · rcases h.storage name symbol hs with ⟨_, _, hl⟩ | ⟨hc, _⟩
    · exact hl
    · rw [hg] at hc; cases hc
  · rcases h.storage name symbol hs with ⟨hc, _⟩ | ⟨_, hex⟩
    · rw [hb] at hc; cases hc
    · exact hex

/-- Looking a name up keeps the chain well-formed and grows its scopes. By induction outward: what
the next scope finds for the name is what this one captures. -/
theorem resolveFrom_sound {name : String} : ∀ {outer : List SymbolScope} {inner : SymbolScope}
    {symbol : Symbol} {table : SymbolTable}, Chained inner outer →
    resolveFrom name inner outer = some (symbol, table) →
    table.Sound ∧ Grows ⟨inner, outer⟩ table ∧ Found name symbol table := by
  intro outer
  induction outer with
  | nil =>
    intro inner symbol table hc h
    simp only [resolveFrom, Option.map_eq_some_iff, Prod.mk.injEq] at h
    obtain ⟨s, hs, rfl, rfl⟩ := h
    exact ⟨hc, .refl _, found_outermost hc hs⟩
  | cons next rest ih =>
    intro inner symbol table hc h
    rw [resolveFrom] at h
    split at h
    next s hs =>
      cases h
      exact ⟨hc, .refl _, found_inside hc.1 hs⟩
    next hnone =>
      split at h
      · cases h
      next found mid hmid =>
        obtain ⟨hsound, hgrows, hfound⟩ := ih hc.2 hmid
        have hin := hc.1.mono hgrows.inner
        have houter := List.Forall₂.cons hgrows.inner hgrows.outer
        split at h
        case h_1 hst | h_2 hst =>
          cases h
          exact ⟨⟨hin, hsound⟩, ⟨.refl _, houter⟩,
            { hfound with own := fun hsh => by rw [hst] at hsh; cases hsh }⟩
        all_goals
          next hst =>
          cases h
          have hsh : found.storage.isShared = false := by rw [hst]; rfl
          have hn : found.name = name := hfound.name_eq
          have hown : mid.inner.symbols[found.name]? = some found := by
            rw [hn]; exact hfound.own hsh
          refine ⟨⟨hin.capture hown hsh, hsound⟩, ⟨grows_capture (hn ▸ hnone), houter⟩, ?_⟩
          refine ⟨hn, fun _ => ?_, fun hg => ?_, fun hb => ?_⟩
          · show (inner.capture found).2.symbols[name]? = _
            rw [symbols_capture, if_pos hn]
          · cases hg
          · cases hb

theorem resolve_sound {name : String} {table later : SymbolTable} {symbol : Symbol}
    (h : table.Sound) (hr : table.resolve name = some (symbol, later)) :
    later.Sound ∧ table.Grows later ∧ Found name symbol later :=
  resolveFrom_sound h hr

theorem Sound.captures_eq {table : SymbolTable} (h : table.Sound) (hg : table.isGlobal = true) :
    table.inner.captures = #[] := by
  obtain ⟨inner, outer⟩ := table
  cases outer with
  | nil => exact SymbolScope.Outermost.captures_eq h
  | cons next rest => cases hg

/-- Each class of storage that a look-up can end in, with the bound on its index. -/
theorem Sound.storage_of_found {table : SymbolTable} {name : String} {symbol : Symbol}
    (h : table.Sound) (hf : Found name symbol table) :
    (symbol.storage = .globalSlot ∧ symbol.index < maxGlobals) ∨
    (symbol.storage = .builtin ∧
      ∃ builtin, Builtin.ofIndex? symbol.index = some builtin ∧ builtin.name = symbol.name) ∨
    (symbol.storage = .localSlot ∧ table.isGlobal = false ∧ symbol.index < table.inner.slots) ∨
    (symbol.storage = .captured ∧
      ∃ found, table.inner.captures[symbol.index]? = some found ∧ found.name = symbol.name) ∨
    (symbol.storage = .self ∧ table.isGlobal = false) := by
  cases hst : symbol.storage with
  | globalSlot => exact .inl ⟨rfl, hf.global hst⟩
  | builtin => exact .inr (.inl ⟨rfl, by rw [hf.name_eq]; exact hf.builtin hst⟩)
  | localSlot | captured | self =>
    have hown := hf.own (by rw [hst]; rfl)
    obtain ⟨inner, outer⟩ := table
    cases outer with
    | nil =>
      rcases SymbolScope.Outermost.storage h name symbol hown with ⟨hk, _⟩ | ⟨hk, _⟩ <;>
        · rw [hst] at hk
          cases hk
    | cons next rest =>
      have hin := h.1.storage name symbol hown
      rw [hst, ← hf.name_eq] at hin
      simp_all [isGlobal]

/-! ### Binding names -/

theorem sound_enter {table : SymbolTable} (h : table.Sound) : table.enter.Sound := by
  have hempty : ∀ name : String, table.enter.inner.symbols[name]? = none :=
    fun name => Std.ExtHashMap.getElem?_empty
  refine ⟨⟨?_, ?_, ?_, ?_⟩, h⟩
  · intro name symbol hs; rw [hempty] at hs; cases hs
  · intro name symbol hs; rw [hempty] at hs; cases hs
  · intro a b s t hs; rw [hempty] at hs; cases hs
  · intro found hf; cases hf

theorem symbols_insert (scope : SymbolScope) (symbol : Symbol) (name : String) :
    (scope.insert symbol).symbols[name]? =
      if symbol.name = name then some symbol else scope.symbols[name]? := by
  show (scope.symbols.insert symbol.name symbol)[name]? = _
  rw [Std.ExtHashMap.getElem?_insert]
  simp

theorem sound_defineSelf {table : SymbolTable} (name : String) (h : table.Sound)
    (ho : table.outer ≠ []) : (table.defineSelf name).2.Sound := by
  obtain ⟨inner, outer⟩ := table
  cases outer with
  | nil => exact absurd rfl ho
  | cons next rest =>
    obtain ⟨hin, hrest⟩ := h
    have hsym : ∀ other : String, (defineSelf ⟨inner, next :: rest⟩ name).2.inner.symbols[other]? =
      if name = other then some ⟨name, .self, 0⟩ else inner.symbols[other]? :=
        symbols_insert inner _
    refine ⟨⟨?_, ?_, ?_, hin.captures⟩, hrest⟩
    · intro other symbol hs
      rw [hsym] at hs
      split at hs
      next he => cases hs; exact he
      · exact hin.name_eq other symbol hs
    · intro other symbol hs
      rw [hsym] at hs
      split at hs
      · cases hs; exact .inr (.inr rfl)
      · exact hin.storage other symbol hs
    · intro a b s t ha hb hsl htl hi
      rw [hsym] at ha hb
      split at ha
      · cases ha; cases hsl
      · split at hb
        · cases hb; cases htl
        · exact hin.apart a b s t ha hb hsl htl hi

/-- What a `let` or a parameter does to the innermost scope. -/
structure Defines (table : SymbolTable) (name : String) (symbol : Symbol)
    (later : SymbolTable) : Prop where
  name_eq : symbol.name = name
  storage_eq : symbol.storage = if table.isGlobal then .globalSlot else .localSlot
  outer_eq : later.outer = table.outer
  captures_eq : later.inner.captures = table.inner.captures
  slots_le : table.inner.slots ≤ later.inner.slots
  index_lt : table.Sound → symbol.index < later.inner.slots
  symbols : ∀ other : String, later.inner.symbols[other]? =
    if name = other then some symbol else table.inner.symbols[other]?
  /-- The slot is a new one, or the one that the name had before. -/
  fresh : symbol.index = table.inner.slots ∨ table.inner.symbols[name]? = some symbol

theorem defines_define (table : SymbolTable) (name : String)
    (hname : ∀ symbol, table.inner.symbols[name]? = some symbol → symbol.name = name) :
    Defines table name (table.define name).1 (table.define name).2 := by
  obtain ⟨inner, outer⟩ := table
  simp only [define, SymbolScope.define]
  generalize hst : (if isGlobal ⟨inner, outer⟩ = true then Storage.globalSlot
    else Storage.localSlot) = storage
  cases hf : (inner.symbols[name]?).filter (·.storage == storage) with
  | some symbol =>
    obtain ⟨hs, hst'⟩ := Option.filter_eq_some_iff.mp hf
    have hst' : symbol.storage = storage := by simpa using hst'
    refine ⟨hname symbol hs, hst'.trans hst.symm, rfl, rfl, Nat.le_refl _, fun h => ?_,
      fun other => ?_, .inr hs⟩
    · cases outer with
      | nil =>
        have ht : symbol.storage = .globalSlot := by rw [hst', ← hst]; rfl
        rcases h.storage name symbol hs with ⟨_, hl, _⟩ | ⟨hb, _⟩
        · exact hl
        · rw [ht] at hb; cases hb
      | cons next rest =>
        have ht : symbol.storage = .localSlot := by rw [hst', ← hst]; rfl
        rcases h.1.storage name symbol hs with ⟨_, hl⟩ | ⟨hc, _⟩ | hself
        · exact hl
        · rw [ht] at hc; cases hc
        · rw [ht] at hself; cases hself
    · show inner.symbols[other]? = if name = other then some symbol else inner.symbols[other]?
      by_cases he : name = other
      · rw [if_pos he, ← he, hs]
      · rw [if_neg he]
  | none =>
    refine ⟨rfl, hst.symm, rfl, rfl, Nat.le_succ _, fun _ => Nat.lt_succ_self _, fun other => ?_,
      .inl rfl⟩
    exact symbols_insert { inner with slots := inner.slots + 1 } _ other

/-- The slot that a name gets belongs to no other name. -/
theorem Defines.apart {table later : SymbolTable} {name : String} {symbol : Symbol}
    (hd : Defines table name symbol later) (hap : table.inner.Apart symbol.storage)
    (hbelow : ∀ (other : String) (s : Symbol), table.inner.symbols[other]? = some s →
      s.storage = symbol.storage → s.index < table.inner.slots) :
    later.inner.Apart symbol.storage := by
  have hown : ∀ (other : String) (s : Symbol), table.inner.symbols[other]? = some s →
      s.storage = symbol.storage → s.index = symbol.index → name = other := by
    intro other s hs hst hi
    rcases hd.fresh with hf | hf
    · have := hbelow other s hs hst
      omega
    · exact hap name other symbol s hf hs rfl hst hi.symm
  intro a b s t ha hb hsl htl hi
  rw [hd.symbols] at ha hb
  split at ha
  next hea =>
    cases ha
    split at hb
    next heb => exact hea.symm.trans heb
    · exact hea.symm.trans (hown b t hb htl hi.symm)
  · split at hb
    next heb =>
      cases hb
      exact (hown a s ha hsl hi).symm.trans heb
    · exact hap a b s t ha hb hsl htl hi

/-- Binding keeps the chain well-formed as long as a new global fits its operand. -/
theorem Defines.sound {table later : SymbolTable} {name : String} {symbol : Symbol}
    (hd : Defines table name symbol later) (h : table.Sound)
    (hlimit : symbol.storage = .globalSlot → symbol.index < maxGlobals) : later.Sound := by
  obtain ⟨inner, outer⟩ := table
  obtain ⟨inner', outer'⟩ := later
  have hlt := hd.index_lt h
  have hap := hd.apart
  obtain ⟨hname, hst, houter, hcap, hslots, -, hsym, -⟩ := hd
  obtain rfl : outer = outer' := houter.symm
  dsimp only at hcap hslots hsym hlt hap
  cases outer with
  | nil =>
    have hst : symbol.storage = .globalSlot := hst
    refine ⟨fun other s hs => ?_, fun other s hs => ?_, hst ▸ hap (hst ▸ h.apart) ?_,
      hcap.trans (SymbolScope.Outermost.captures_eq h)⟩
    · rw [hsym] at hs
      split at hs
      next he => cases hs; exact hname.trans he
      · exact h.name_eq other s hs
    · rw [hsym] at hs
      split at hs
      · cases hs; exact .inl ⟨hst, hlt, hlimit hst⟩
      · rcases h.storage other s hs with ⟨h1, h2, h3⟩ | hb
        · exact .inl ⟨h1, Nat.lt_of_lt_of_le h2 hslots, h3⟩
        · exact .inr hb
    · intro other s hs hg
      rw [hst] at hg
      rcases h.storage other s hs with ⟨_, hl, _⟩ | ⟨hb, _⟩
      · exact hl
      · rw [hg] at hb; cases hb
  | cons next rest =>
    have hst : symbol.storage = .localSlot := hst
    obtain ⟨hin, hrest⟩ := h
    refine ⟨⟨fun other s hs => ?_, fun other s hs => ?_, hst ▸ hap (hst ▸ hin.apart) ?_, ?_⟩,
      hrest⟩
    · rw [hsym] at hs
      split at hs
      next he => cases hs; exact hname.trans he
      · exact hin.name_eq other s hs
    · rw [hsym] at hs
      rw [hcap]
      split at hs
      · cases hs; exact .inl ⟨hst, hlt⟩
      · rcases hin.storage other s hs with ⟨h1, h2⟩ | hb
        · exact .inl ⟨h1, Nat.lt_of_lt_of_le h2 hslots⟩
        · exact .inr hb
    · intro other s hs hg
      rw [hst] at hg
      rcases hin.storage other s hs with ⟨_, hl⟩ | ⟨hb, _⟩ | hb
      · exact hl
      · rw [hg] at hb; cases hb
      · rw [hg] at hb; cases hb
    · rw [hcap]; exact hin.captures

end SymbolTable

end Simian
