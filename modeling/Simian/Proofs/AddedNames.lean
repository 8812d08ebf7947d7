import Simian.Proofs.ConstructLayout
import Simian.Proofs.SettledPrograms

/-!
# What names an expression adds

Laying out an expression of a direct program binds nothing, so the scopes around it grow
by captured names only. Each of these occurs free in the expression, and no scope that is
passed through on the way outward has the name (`GrownBy`). So what a function captures
are names that occur free in its literal. A statement of a function body may also give its
name a slot (`Widens`).

A name that some function around has in a slot, or as its own name, is the same after
growing as before. Names that resolve to a global slot or a built-in function are none of
these.
-/
namespace Simian

namespace SymbolScope

/-- The scope grows by symbols and captures for these names, which it does not have. -/
structure GrowsBy (names : String → Prop) (scope later : SymbolScope) : Prop where
  grows : scope.Grows later
  named : ∀ (name : String) (symbol : Symbol), later.symbols[name]? = some symbol →
    scope.symbols[name]? = none → names name
  captured : ∀ symbol ∈ later.captures.toList, symbol ∈ scope.captures.toList ∨
    names symbol.name ∧ scope.symbols[symbol.name]? = none

variable {names more : String → Prop} {a b c : SymbolScope}

theorem Grows.none_of_none (h : Grows a b) {name : String} (hn : b.symbols[name]? = none) :
    a.symbols[name]? = none := by
  cases ha : a.symbols[name]? with
  | none => rfl
  | some symbol =>
    rw [h.symbols name symbol ha] at hn
    cases hn

theorem GrowsBy.refl (scope : SymbolScope) : GrowsBy names scope scope where
  grows := .refl scope
  named := fun name symbol hs hn => by
    rw [hn] at hs
    cases hs
  captured := fun _ h => .inl h

theorem GrowsBy.trans (hab : GrowsBy names a b) (hbc : GrowsBy names b c) : GrowsBy names a c where
  grows := hab.grows.trans hbc.grows
  named := by
    intro name symbol hs hn
    cases hb : b.symbols[name]? with
    | none => exact hbc.named name symbol hs hb
    | some other => exact hab.named name other hb hn
  captured := by
    intro symbol hs
    rcases hbc.captured symbol hs with hs | ⟨hname, hn⟩
    · exact hab.captured symbol hs
    · exact .inr ⟨hname, hab.grows.none_of_none hn⟩

theorem GrowsBy.mono (h : GrowsBy names a b)
    (hm : ∀ name, a.symbols[name]? = none → names name → more name) : GrowsBy more a b where
  grows := h.grows
  named := fun name symbol hs hn => hm name hn (h.named name symbol hs hn)
  captured := fun symbol hs =>
    (h.captured symbol hs).imp id fun hadded => ⟨hm _ hadded.2 hadded.1, hadded.2⟩

theorem growsBy_capture {scope : SymbolScope} {found : Symbol}
    (hn : scope.symbols[found.name]? = none) :
    GrowsBy (· = found.name) scope (scope.capture found).2 where
  grows := grows_capture hn
  named := by
    intro name symbol hs hnone
    rw [symbols_capture] at hs
    split at hs
    next he => exact he.symm
    · rw [hnone] at hs
      cases hs
  captured := by
    intro symbol hs
    rw [captures_capture, Array.toList_push] at hs
    rcases List.mem_append.mp hs with hs | hs
    · exact .inl hs
    · cases List.mem_singleton.mp hs
      exact .inr ⟨rfl, hn⟩

end SymbolScope

/-- The scopes grow by these names, each outward from the first scope that does not have it. -/
inductive GrownBy : (String → Prop) → List SymbolScope → List SymbolScope → Prop where
  | nil {names : String → Prop} : GrownBy names [] []
  | cons {names : String → Prop} {scope later : SymbolScope} {outer wider : List SymbolScope} :
    scope.GrowsBy names later →
    GrownBy (fun name => names name ∧ scope.symbols[name]? = none) outer wider →
    GrownBy names (scope :: outer) (later :: wider)

namespace GrownBy

variable {names more : String → Prop} {a b c : List SymbolScope}

theorem refl (scopes : List SymbolScope) : GrownBy names scopes scopes := by
  induction scopes generalizing names with
  | nil => exact .nil
  | cons scope outer ih => exact .cons (.refl scope) ih

theorem mono (h : GrownBy names a b) (hm : ∀ name, names name → more name) : GrownBy more a b := by
  induction h generalizing more with
  | nil => exact .nil
  | cons hg _ ih =>
    exact .cons (hg.mono fun name _ => hm name) (ih fun name hn => ⟨hm name hn.1, hn.2⟩)

theorem trans (hab : GrownBy names a b) (hbc : GrownBy names b c) : GrownBy names a c := by
  induction hab generalizing c with
  | nil => exact hbc
  | cons hg _ ih =>
    cases hbc with
    | cons hg' ho =>
      exact .cons (hg.trans hg')
        (ih (ho.mono fun name hn => ⟨hn.1, hg.grows.none_of_none hn.2⟩))

theorem grows (h : GrownBy names a b) : List.Forall₂ SymbolScope.Grows a b := by
  induction h with
  | nil => exact .nil
  | cons hg _ ih => exact .cons hg.grows ih

end GrownBy

namespace SymbolTable

/-- The scopes of the table, the innermost first. -/
def scopes (table : SymbolTable) : List SymbolScope := table.inner :: table.outer

theorem grownBy_resolveFrom {name : String} {outer : List SymbolScope} :
    ∀ {inner : SymbolScope} {symbol : Symbol} {table : SymbolTable},
      SymbolScope.Chained inner outer → resolveFrom name inner outer = some (symbol, table) →
      GrownBy (· = name) (inner :: outer) table.scopes := by
  induction outer with
  | nil =>
    intro inner symbol table hc h
    simp only [resolveFrom, Option.map_eq_some_iff, Prod.mk.injEq] at h
    obtain ⟨s, hs, rfl, rfl⟩ := h
    exact .refl _
  | cons next rest ih =>
    intro inner symbol table hc h
    rw [resolveFrom] at h
    split at h
    · cases h
      exact .refl _
    next hnone =>
      split at h
      · cases h
      next found mid hmid =>
        have hrest : GrownBy (fun other => other = name ∧ inner.symbols[other]? = none)
            (next :: rest) mid.scopes :=
          (ih hc.2 hmid).mono fun other ho => ⟨ho, ho ▸ hnone⟩
        split at h
        case h_1 | h_2 =>
          cases h
          exact .cons (.refl _) hrest
        all_goals
          cases h
          have hname := (resolveFrom_sound hc.2 hmid).2.2.name_eq
          subst hname
          exact .cons (SymbolScope.growsBy_capture hnone) hrest

theorem grownBy_resolve {name : String} {table later : SymbolTable} {symbol : Symbol}
    (h : table.Sound) (hr : table.resolve name = some (symbol, later)) :
    GrownBy (· = name) table.scopes later.scopes :=
  grownBy_resolveFrom h hr

/-! ### Names that functions around have -/

end SymbolTable

namespace SymbolScope

/-- The name has a slot of the scope's function, or it is the function's own name. -/
def Owns (scope : SymbolScope) (name : String) : Prop :=
  ∃ symbol, scope.symbols[name]? = some symbol ∧
    (symbol.storage = .localSlot ∨ symbol.storage = .self)

theorem Grows.owns_iff {a b : SymbolScope} (h : Grows a b) (name : String) :
    b.Owns name ↔ a.Owns name := by
  constructor
  · rintro ⟨symbol, hs, hst⟩
    rcases h.added name symbol hs with hs | ⟨_, hc⟩
    · exact ⟨symbol, hs, hst⟩
    · rw [hc] at hst
      exact absurd hst (by decide)
  · rintro ⟨symbol, hs, hst⟩
    exact ⟨symbol, h.symbols name symbol hs, hst⟩

/-- Some function around has the name. The last scope is that of the program. -/
def SomeOwns (name : String) : List SymbolScope → Prop
  | [] | [_] => False
  | scope :: next :: rest => scope.Owns name ∨ SomeOwns name (next :: rest)

/-- What the name is in the last scope. -/
def lastSymbol? (name : String) : List SymbolScope → Option Symbol
  | [] => none
  | [scope] => scope.symbols[name]?
  | _ :: next :: rest => lastSymbol? name (next :: rest)

theorem someOwns_iff {a b : List SymbolScope} (h : List.Forall₂ Grows a b) (name : String) :
    SomeOwns name b ↔ SomeOwns name a := by
  induction h with
  | nil => exact .rfl
  | cons hg ho ih =>
    cases ho with
    | nil => exact .rfl
    | cons hg' ho' => exact or_congr (hg.owns_iff name) ih

/-- The scope of the program gets no captured names, so it stays the same. -/
theorem lastSymbol?_eq {a b : List SymbolScope} (h : List.Forall₂ Grows a b) {inner : SymbolScope}
    {outer : List SymbolScope} (hb : b = inner :: outer) (hc : Chained inner outer)
    (name : String) : lastSymbol? name b = lastSymbol? name a := by
  induction h generalizing inner outer with
  | nil => cases hb
  | @cons scope later _ _ hg ho ih =>
    cases hb
    cases ho with
    | nil =>
      show later.symbols[name]? = scope.symbols[name]?
      cases hs : later.symbols[name]? with
      | none => exact (hg.none_of_none hs).symm
      | some symbol =>
        rcases hg.added name symbol hs with hs' | ⟨_, hst⟩
        · exact hs'.symm
        · rcases hc.storage name symbol hs with ⟨hk, _⟩ | ⟨hk, _⟩ <;>
          · rw [hst] at hk
            cases hk
    | cons _ _ => exact ih rfl hc.2

end SymbolScope

namespace SymbolTable

open SymbolScope

/-- A name that resolves to the same place from everywhere belongs to no function around, and it
is in the scope of the program. -/
theorem resolveFrom_shared {name : String} {outer : List SymbolScope} :
    ∀ {inner : SymbolScope} {symbol : Symbol} {table : SymbolTable}, Chained inner outer →
      resolveFrom name inner outer = some (symbol, table) → symbol.storage.isShared = true →
      ¬SomeOwns name (inner :: outer) ∧ lastSymbol? name (inner :: outer) = some symbol := by
  induction outer with
  | nil =>
    intro inner symbol table _ h _
    simp only [resolveFrom, Option.map_eq_some_iff, Prod.mk.injEq] at h
    obtain ⟨s, hs, rfl, rfl⟩ := h
    exact ⟨id, hs⟩
  | cons next rest ih =>
    intro inner symbol table hc h hshared
    rw [resolveFrom] at h
    split at h
    next s hs =>
      cases h
      rcases hc.1.storage name symbol hs with ⟨hk, _⟩ | ⟨hk, _⟩ | hk <;>
      · rw [hk] at hshared
        cases hshared
    next hnone =>
      split at h
      · cases h
      next found mid hmid =>
        have hnot : ¬inner.Owns name := by
          rintro ⟨symbol, hs, _⟩
          rw [hnone] at hs
          cases hs
        split at h
        case h_1 hst | h_2 hst =>
          cases h
          obtain ⟨howns, hlast⟩ := ih hc.2 hmid hshared
          exact ⟨fun hor => hor.elim hnot howns, hlast⟩
        all_goals
          cases h
          cases hshared

/-! ### The table of a function body -/

theorem slots_define_le (table : SymbolTable) (name : String) :
    (table.define name).2.inner.slots ≤ table.inner.slots + 1 := by
  obtain ⟨inner, outer⟩ := table
  simp only [define, SymbolScope.define]
  split
  · exact Nat.le_succ _
  · exact Nat.le_refl _

theorem slots_foldl_define_le (parameters : List String) (table : SymbolTable) :
    (parameters.foldl (fun table parameter => (table.define parameter).2) table).inner.slots ≤
      table.inner.slots + parameters.length := by
  induction parameters generalizing table with
  | nil => exact Nat.le_refl _
  | cons parameter rest ih =>
    rw [List.foldl_cons, List.length_cons]
    have hrest := ih (table.define parameter).2
    have hone := slots_define_le table parameter
    omega

/-- The slots of a body are taken by parameters first. -/
theorem slots_opened_le (table : SymbolTable) (name : Option String) (parameters : List String) :
    (table.opened name parameters).inner.slots ≤ parameters.length := by
  have hopened : ∀ opened : SymbolTable, opened.inner.slots = 0 →
      (parameters.foldl (fun table parameter => (table.define parameter).2) opened).inner.slots ≤
        parameters.length := fun opened hnone => by
    have hle := slots_foldl_define_le parameters opened
    omega
  unfold opened
  cases name with
  | none => exact hopened _ rfl
  | some name => exact hopened _ rfl

theorem getElem?_foldl_define (parameters : List String) {table : SymbolTable} (h : table.Sound)
    (hg : table.isGlobal = false) {name : String}
    (hn : (parameters.foldl (fun table parameter => (table.define parameter).2)
      table).inner.symbols[name]? = none) :
    name ∉ parameters ∧ table.inner.symbols[name]? = none := by
  induction parameters generalizing table with
  | nil => exact ⟨List.not_mem_nil, hn⟩
  | cons parameter rest ih =>
    have hdef := defines_define table parameter fun _ => h.name_eq
    have hlocal : (table.define parameter).1.storage ≠ .globalSlot := by
      rw [hdef.storage_eq, hg]
      nofun
    obtain ⟨hrest, hnone⟩ := ih (hdef.sound h fun hst => absurd hst hlocal)
      (hdef.advances.isGlobal_eq.trans hg) hn
    rw [hdef.symbols] at hnone
    split at hnone
    · cases hnone
    next hne =>
      exact ⟨fun hm => (List.mem_cons.mp hm).elim (fun he => hne he.symm) hrest, hnone⟩

/-- A name that the table of a body does not have is none of the function's own. -/
theorem not_mem_of_opened {table : SymbolTable} (h : table.Sound) {own : Option String}
    {parameters : List String} {name : String}
    (hn : (table.opened own parameters).inner.symbols[name]? = none) :
    name ∉ parameters ∧ own ≠ some name := by
  unfold opened at hn
  cases own with
  | none =>
    exact ⟨(getElem?_foldl_define parameters (sound_enter h) rfl hn).1, nofun⟩
  | some other =>
    obtain ⟨hm, hnone⟩ := getElem?_foldl_define parameters
      (sound_defineSelf other (sound_enter h) (List.cons_ne_nil _ _)) rfl hn
    refine ⟨hm, fun he => ?_⟩
    cases he
    rw [show (table.enter.defineSelf name).2.inner.symbols[name]? = _ from
      symbols_insert table.enter.inner _ name, if_pos rfl] at hnone
    cases hnone

/-- What a function captures is bound in the scope around it. -/
theorem captures_of_leave {table later : SymbolTable} (h : table.Sound)
    (hl : table.leave? = some later) {symbol : Symbol}
    (hm : symbol ∈ table.inner.captures.toList) :
    later.inner.symbols[symbol.name]? = some symbol ∧ symbol.storage.isShared = false := by
  obtain ⟨inner, outer⟩ := table
  cases outer with
  | nil => cases hl
  | cons next rest =>
    cases hl
    exact h.1.captures symbol hm

/-! ### Expressions and statements -/

/-- The scopes around grow by these names, which the innermost scope does not have, and what it
captures are some of them. It may get names of its own. -/
structure Widens (names : String → Prop) (table later : SymbolTable) : Prop where
  outer : GrownBy (fun name => names name ∧ table.inner.symbols[name]? = none) table.outer
    later.outer
  captured : ∀ symbol ∈ later.inner.captures.toList, symbol ∈ table.inner.captures.toList ∨
    names symbol.name ∧ table.inner.symbols[symbol.name]? = none
  kept : ∀ name : String, later.inner.symbols[name]? = none → table.inner.symbols[name]? = none
  slots_le : table.inner.slots ≤ later.inner.slots

namespace Widens

variable {names more : String → Prop} {a b c : SymbolTable}

theorem refl (table : SymbolTable) : Widens names table table :=
  ⟨.refl _, fun _ h => .inl h, fun _ h => h, Nat.le_refl _⟩

theorem of_grownBy (h : GrownBy names a.scopes b.scopes) : Widens names a b := by
  cases h with
  | cons hg ho =>
    exact ⟨ho, hg.captured, fun _ => hg.grows.none_of_none, Nat.le_of_eq hg.grows.slots_eq.symm⟩

/-- A second step adds only names that the innermost scope still does not have. -/
theorem trans (hab : Widens names a b) (hbc : Widens more b c)
    (hm : ∀ name, b.inner.symbols[name]? = none → more name → names name) : Widens names a c where
  outer := hab.outer.trans
    (hbc.outer.mono fun name hn => ⟨hm name hn.2 hn.1, hab.kept name hn.2⟩)
  captured := by
    intro symbol hs
    rcases hbc.captured symbol hs with hs | ⟨hname, hn⟩
    · exact hab.captured symbol hs
    · exact .inr ⟨hm _ hn hname, hab.kept _ hn⟩
  kept := fun name hn => hab.kept name (hbc.kept name hn)
  slots_le := Nat.le_trans hab.slots_le hbc.slots_le

theorem mono (h : Widens names a b) (hm : ∀ name, names name → more name) : Widens more a b where
  outer := h.outer.mono fun name hn => ⟨hm name hn.1, hn.2⟩
  captured := fun symbol hs => (h.captured symbol hs).imp id fun hn => ⟨hm _ hn.1, hn.2⟩
  kept := h.kept
  slots_le := h.slots_le

theorem of_defines {table later : SymbolTable} {name : String} {symbol : Symbol}
    (h : Defines table name symbol later) : Widens (fun _ => False) table later where
  outer := by
    rw [h.outer_eq]
    exact .refl _
  captured := fun symbol hs => .inl (by rwa [h.captures_eq] at hs)
  kept := by
    intro other hn
    rw [h.symbols] at hn
    split at hn
    · cases hn
    · exact hn
  slots_le := h.slots_le

end Widens

/-- The table is sound again after growing by some of the names. -/
structure Adds (names : List String) (table later : SymbolTable) : Prop where
  sound : later.Sound
  grown : GrownBy (· ∈ names) table.scopes later.scopes

namespace Adds

variable {names more : List String} {a b c : SymbolTable}

theorem refl (h : a.Sound) : Adds names a a := ⟨h, .refl _⟩

theorem mono (h : Adds names a b) (hm : ∀ name ∈ names, name ∈ more) : Adds more a b :=
  ⟨h.sound, h.grown.mono hm⟩

theorem trans (hab : Adds names a b) (hbc : Adds more b c) : Adds (names ++ more) a c :=
  ⟨hbc.sound, (hab.grown.mono fun _ => List.mem_append_left _).trans
    (hbc.grown.mono fun _ => List.mem_append_right _)⟩

theorem widens (h : Adds names a b) : Widens (· ∈ names) a b := .of_grownBy h.grown

end Adds

/-- What a function body adds to the scopes around it is free in the literal. -/
theorem Widens.adds_of_opened {table body later : SymbolTable} {own : Option String}
    {parameters : List String} {names free : List String} (h : table.Sound) (hs : body.Sound)
    (hw : Widens (· ∈ names) (table.opened own parameters) body)
    (hl : body.leave? = some later)
    (hf : ∀ name ∈ names, name ∉ parameters → own ≠ some name → name ∈ free) :
    Adds free table later := by
  have hadded := hw.outer
  rw [outer_opened] at hadded
  obtain ⟨inner, outer⟩ := body
  cases outer with
  | nil => cases hl
  | cons next rest =>
    cases hl
    exact ⟨hs.2, hadded.mono fun name hn =>
      hf name hn.1 (not_mem_of_opened h hn.2).1 (not_mem_of_opened h hn.2).2⟩

end SymbolTable

open SymbolTable

theorem mem_free_function_iff {name : Option String} {parameters : List String}
    {body : List Stmt} {span blockSpan : Span} {free : String} :
    free ∈ (Expr.function name parameters (.mk body blockSpan) span).free ↔
      free ∈ freeInStmts body ∧ free ∉ parameters ∧ name ≠ some free := by
  rw [Expr.free, List.mem_filter]
  simp only [Bool.and_eq_true, bne_iff_ne, Bool.not_eq_true', List.contains_eq_mem,
    decide_eq_false_iff_not]
  exact and_congr_right fun _ => and_comm

theorem SymbolTable.Sound.defines {table later : SymbolTable} {name : String} {symbol : Symbol}
    (h : table.Sound) (hd : table.define name = (symbol, later)) :
    Defines table name symbol later := by
  have hdef := defines_define table name fun _ => h.name_eq
  rwa [hd] at hdef

theorem SymbolTable.Defines.bound {table later : SymbolTable} {name : String} {symbol : Symbol}
    (h : Defines table name symbol later) : later.inner.symbols[name]? ≠ none := by
  rw [h.symbols, if_pos rfl]
  nofun

/-- The name that the statement binds. -/
def Stmt.binds? : Stmt → Option String
  | .bind name _ _ => some name
  | .ret .. | .retNull _ | .expr .. => none

theorem mem_freeInStmts_cons {statement : Stmt} {rest : List Stmt} {name : String} :
    name ∈ freeInStmts (statement :: rest) ↔
      name ∈ freeInStmts [statement] ∨ name ∈ freeInStmts rest ∧ statement.binds? ≠ some name := by
  cases statement with
  | bind other value span =>
    have hne : name ≠ other ↔ some other ≠ some name := by
      rw [ne_comm, Ne, Ne, Option.some_inj]
    simp only [freeInStmts, Stmt.binds?, List.mem_append, List.filter_nil, List.append_nil,
      List.mem_filter, bne_iff_ne, hne]
  | ret | expr => simp [freeInStmts, Stmt.binds?]
  | retNull => simp [freeInStmts, Stmt.binds?]

theorem binds?_eq_none {statement : Stmt} {rest : List Stmt}
    (h : areDirectInBlock (statement :: rest) = true) : statement.binds? = none := by
  cases statement <;> first | rfl | cases h

theorem areDirectInBlock_rest {statement : Stmt} {rest : List Stmt}
    (h : areDirectInBlock (statement :: rest) = true) : areDirectInBlock rest = true := by
  cases statement <;> simp_all [areDirectInBlock]

theorem areDirectStmts_rest {statement : Stmt} {rest : List Stmt}
    (h : areDirectStmts (statement :: rest) = true) : areDirectStmts rest = true := by
  cases statement <;> simp_all [areDirectStmts]

mutual

theorem ExprAt.adds {tree : Expr} {site : Site} {t t' : SymbolTable} {p q : Nat}
    (hat : ExprAt site t p tree t' q) (hs : tree.isDirect = true) (h : t.Sound) :
    t.Adds tree.free t' := by
  match hat with
  | .integer .. | .string .. | .boolean .. => exact .refl h
  | .ident hr hl =>
    exact ⟨(resolve_sound h hr).1, (grownBy_resolve h hr).mono fun _ => List.mem_singleton.mpr⟩
  | .unary ho _ => exact ho.adds hs h
  | .bump ho _ _ _ _ => exact ho.adds hs h
  | .binary hl hr _ =>
    rw [Expr.isDirect, Bool.and_eq_true] at hs
    have hleft := hl.adds hs.1 h
    exact hleft.trans (hr.adds hs.2 hleft.sound)
  | .and hl _ hr _ _ _ _ =>
    rw [Expr.isDirect, Bool.and_eq_true] at hs
    have hleft := hl.adds hs.1 h
    exact hleft.trans (hr.adds hs.2 hleft.sound)
  | .or hl _ _ _ hr _ _ _ _ =>
    rw [Expr.isDirect, Bool.and_eq_true] at hs
    have hleft := hl.adds hs.1 h
    exact hleft.trans (hr.adds hs.2 hleft.sound)
  | .ifThen hc _ hb _ _ =>
    rw [Expr.isDirect, Bool.and_eq_true] at hs
    have hcondition := hc.adds hs.1 h
    exact hcondition.trans (hb.adds hs.2 hcondition.sound)
  | .ifElse hc _ hb _ hb' =>
    rw [Expr.isDirect, Bool.and_eq_true, Bool.and_eq_true] at hs
    have hcondition := hc.adds hs.1 h
    have hfirst := hb.adds hs.2.1 hcondition.sound
    exact hcondition.trans (hfirst.trans (hb'.adds hs.2.2 hfirst.sound))
  | .function _ hb _ _ _ _ _ _ hl _ _ _ _ =>
    rw [Expr.isDirect] at hs
    obtain ⟨hsound, hw⟩ := hb.widens hs (sound_opened h _ _)
    exact hw.adds_of_opened h hsound hl fun name hn hm ho => mem_free_function_iff.mpr ⟨hn, hm, ho⟩
  | .array _ he _ => exact he.adds hs h
  | .hash _ he _ => exact he.adds hs h
  | .call _ hc ha _ =>
    rw [Expr.isDirect, Bool.and_eq_true] at hs
    have hcallee := hc.adds hs.1 h
    exact hcallee.trans (ha.adds hs.2 hcallee.sound)
  | .index hc hk _ =>
    rw [Expr.isDirect, Bool.and_eq_true] at hs
    have hcollection := hc.adds hs.1 h
    exact hcollection.trans (hk.adds hs.2 hcollection.sound)

theorem ExprsAt.adds {items : List Expr} {site : Site} {t t' : SymbolTable} {p q : Nat}
    (hat : ExprsAt site t p items t' q) (hs : areDirectExprs items = true) (h : t.Sound) :
    t.Adds (freeInExprs items) t' := by
  match hat with
  | .nil => exact .refl h
  | .cons hi hr =>
    rw [areDirectExprs, Bool.and_eq_true] at hs
    have hitem := hi.adds hs.1 h
    exact hitem.trans (hr.adds hs.2 hitem.sound)

theorem EntriesAt.adds {pairs : List (Expr × Expr)} {site : Site} {t t' : SymbolTable} {p q : Nat}
    (hat : EntriesAt site t p pairs t' q) (hs : areDirectEntries pairs = true) (h : t.Sound) :
    t.Adds (freeInEntries pairs) t' := by
  match hat with
  | .nil => exact .refl h
  | .cons hk hv hr =>
    rw [areDirectEntries, Bool.and_eq_true, Bool.and_eq_true] at hs
    have hkey := hk.adds hs.1 h
    have hvalue := hv.adds hs.2.1 hkey.sound
    exact hkey.trans (hvalue.trans (hr.adds hs.2.2 hvalue.sound))

/-- A statement that binds nothing. -/
theorem StmtAt.adds {statement : Stmt} {rest : List Stmt} {site : Site} {t t' : SymbolTable}
    {p q : Nat} (hat : StmtAt site t p statement t' q)
    (hs : areDirectInBlock (statement :: rest) = true) (h : t.Sound) :
    t.Adds (freeInStmts [statement]) t' := by
  match hat with
  | .bindGlobal .. | .bindLocal .. => cases hs
  | .ret he _ | .expr he _ =>
    rw [areDirectInBlock, Bool.and_eq_true] at hs
    exact (he.adds hs.1 h).mono fun _ => List.mem_append_left _
  | .retNull _ => exact .refl h

/-- A block that binds nothing. -/
theorem TailAt.adds {statements : List Stmt} {closing : Closing} {site : Site}
    {t t' : SymbolTable} {p q : Nat} (hat : TailAt closing site t p statements t' q)
    (hs : areDirectInBlock statements = true) (h : t.Sound) :
    t.Adds (freeInStmts statements) t' := by
  match hat with
  | .nil _ => exact .refl h
  | .bind .. => cases hs
  | .ret hst => exact hst.adds hs h
  | .retNull hst => exact hst.adds hs h
  | .value he | .result he _ =>
    rw [areDirectInBlock, Bool.and_eq_true] at hs
    exact (he.adds hs.1 h).mono fun _ => List.mem_append_left _
  | .cons hst hrest =>
    have hfirst := hst.adds hs h
    exact (hfirst.trans (hrest.adds (areDirectInBlock_rest hs) hfirst.sound)).mono fun name hn =>
      mem_freeInStmts_cons.mpr ((List.mem_append.mp hn).imp id fun hn =>
        ⟨hn, by rw [binds?_eq_none hs]; nofun⟩)

/-- A statement of a function body. -/
theorem StmtAt.widens {statement : Stmt} {rest : List Stmt} {site : Site}
    {t t' : SymbolTable} {p q : Nat} (hat : StmtAt site t p statement t' q)
    (hs : areDirectStmts (statement :: rest) = true) (h : t.Sound) :
    t'.Sound ∧ t.Widens (· ∈ freeInStmts [statement]) t' ∧
      ∀ name, statement.binds? = some name → t'.inner.symbols[name]? ≠ none := by
  match hat with
  | .bindGlobal he hd _ hi _ =>
    rw [areDirectStmts, Bool.and_eq_true] at hs
    have hvalue := he.adds hs.1 h
    have hdef := hvalue.sound.defines hd
    refine ⟨hdef.sound hvalue.sound fun _ => hi, ?_, fun _ hb => by cases hb; exact hdef.bound⟩
    exact (hvalue.widens.mono fun _ => List.mem_append_left _).trans (.of_defines hdef) nofun
  | .bindLocal he hd hst _ _ =>
    rw [areDirectStmts, Bool.and_eq_true] at hs
    have hvalue := he.adds hs.1 h
    have hdef := hvalue.sound.defines hd
    refine ⟨hdef.sound hvalue.sound fun hg => ?_, ?_, fun _ hb => by cases hb; exact hdef.bound⟩
    · rw [hst] at hg
      cases hg
    · exact (hvalue.widens.mono fun _ => List.mem_append_left _).trans (.of_defines hdef) nofun
  | .ret he _ | .expr he _ =>
    rw [areDirectStmts, Bool.and_eq_true] at hs
    have hvalue := he.adds hs.1 h
    exact ⟨hvalue.sound, hvalue.widens.mono fun _ => List.mem_append_left _, nofun⟩
  | .retNull _ => exact ⟨h, .refl _, nofun⟩

/-- The body of a function. -/
theorem TailAt.widens {statements : List Stmt} {closing : Closing}
    {site : Site} {t t' : SymbolTable} {p q : Nat}
    (hat : TailAt closing site t p statements t' q)
    (hs : areDirectStmts statements = true) (h : t.Sound) :
    t'.Sound ∧ t.Widens (· ∈ freeInStmts statements) t' := by
  match hat with
  | .nil _ => exact ⟨h, .refl _⟩
  | .bind hst _ | .ret hst | .retNull hst =>
    obtain ⟨hsound, hw, _⟩ := hst.widens hs h
    exact ⟨hsound, hw⟩
  | .value he | .result he _ =>
    rw [areDirectStmts, Bool.and_eq_true] at hs
    have hvalue := he.adds hs.1 h
    exact ⟨hvalue.sound, hvalue.widens.mono fun _ => List.mem_append_left _⟩
  | .cons hst hrest =>
    obtain ⟨hsound, hw, hbound⟩ := hst.widens hs h
    obtain ⟨hsound', hw'⟩ := hrest.widens (areDirectStmts_rest hs) hsound
    refine ⟨hsound', (hw.mono fun name hn => mem_freeInStmts_cons.mpr (.inl hn)).trans hw'
      fun name hn hm => mem_freeInStmts_cons.mpr (.inr ⟨hm, fun he => hbound name he hn⟩)⟩

end

end Simian
