import Simian.Proofs.AddedNames

/-!
# Names mean what is bound around them

What a name means is read off an account of what was bound in each scope (`lexical?`): the latest
binding of the name in the innermost scope that binds it. The account knows nothing of captured
values. What a symbol means is read off the scopes (`Symbol.meaning?`): a captured value means
whatever the symbol that was captured means in the next scope outward.

After any history of bindings, look-ups, and scopes entered and left, a look-up ends in a symbol
with the meaning that the account gives (`History.lexical_run`). A look-up keeps the meaning of
every symbol that was handed out before, and it only changes the scopes that capture the name.
-/
namespace Simian

/-- What a symbol stands for. The outermost scope has number 0, and each other scope has one more
than the scope around it. -/
inductive Meaning where
  /-- A slot of the function with the scope of this number. -/
  | slot (scope index : Nat)
  /-- The function with the scope of this number. -/
  | function (scope : Nat)
  /-- A global or a built-in function. -/
  | shared (symbol : Symbol)
  deriving Repr, DecidableEq

/-- What a symbol of the first of the scopes stands for. -/
def Symbol.meaning? (symbol : Symbol) : List SymbolScope → Option Meaning
  | [] => none
  | scope :: outer =>
    match symbol.storage with
    | .globalSlot | .builtin => some (.shared symbol)
    | .localSlot => some (.slot outer.length symbol.index)
    | .self => some (.function outer.length)
    | .captured =>
      match scope.captures[symbol.index]? with
      | some found => found.meaning? outer
      | none => none

/-! ### Accounts of what was bound -/

/-- What a name was bound to. -/
inductive Binding where
  | slot (index : Nat)
  | builtin (index : Nat)
  /-- The function that the scope belongs to. -/
  | own
  deriving Repr, DecidableEq

/-- What it means in the scope of this number. -/
def Binding.meaning (binding : Binding) (name : String) (scope : Nat) : Meaning :=
  match binding with
  | .slot index => if scope = 0 then .shared ⟨name, .globalSlot, index⟩ else .slot scope index
  | .builtin index => .shared ⟨name, .builtin, index⟩
  | .own => .function scope

/-- What happened in one scope while it was the innermost. -/
structure Account where
  /-- What names were bound to, the latest binding first. -/
  bindings : List (String × Binding)
  /-- Slots taken so far. -/
  slots : Nat
  /-- The symbols that bindings and look-ups gave. -/
  handed : List Symbol

namespace Account

def empty : Account := ⟨[], 0, []⟩

def bind (account : Account) (name : String) (binding : Binding) : Account :=
  { account with bindings := (name, binding) :: account.bindings }

/-- Binds the name to a slot, a new one unless its latest binding is a slot. -/
def define (account : Account) (name : String) : Account :=
  match account.bindings.lookup name with
  | some (.slot index) => account.bind name (.slot index)
  | _ => { account with slots := account.slots + 1 }.bind name (.slot account.slots)

def hand (account : Account) (symbol : Symbol) : Account :=
  { account with handed := symbol :: account.handed }

def Binds (account : Account) (name : String) : Prop :=
  (account.bindings.lookup name).isSome

theorem lookup_bind (account : Account) (name : String) (binding : Binding) (other : String) :
    (account.bind name binding).bindings.lookup other =
      if name = other then some binding else account.bindings.lookup other := by
  rw [bind, List.lookup_cons]
  by_cases he : name = other
  · rw [if_pos he, he, beq_self_eq_true]
  · rw [if_neg he, beq_false_of_ne fun h => he h.symm]

end Account

/-- What the name means: its latest binding in the first account that binds it. -/
def lexical? (name : String) : List Account → Option Meaning
  | [] => none
  | account :: outer =>
    match account.bindings.lookup name with
    | some binding => some (binding.meaning name outer.length)
    | none => lexical? name outer

/-! ### Histories -/

/-- What can be done with a table, always in its innermost scope. -/
inductive Naming where
  | define (name : String)
  | builtin (index : Nat) (name : String)
  | ownName (name : String)
  | resolve (name : String)
  | enter
  /-- Leaves the innermost scope for good, if another is around it. -/
  | leave
  deriving Repr

/-- A table, with an account for each of its scopes. -/
structure History where
  table : SymbolTable
  accounts : List Account

namespace History

def start : History := ⟨.empty, [.empty]⟩

/-- The table has given a symbol for what happened in the innermost scope. -/
def hand (history : History) (answer : Symbol × SymbolTable) (happened : Account → Account) :
    History :=
  ⟨answer.2, history.accounts.modifyHead fun account => (happened account).hand answer.1⟩

def step (history : History) : Naming → History
  | .define name => history.hand (history.table.define name) (·.define name)
  | .builtin index name =>
    history.hand (history.table.defineBuiltin index name) (·.bind name (.builtin index))
  | .ownName name => history.hand (history.table.defineSelf name) (·.bind name .own)
  | .resolve name =>
    match history.table.resolve name with
    | some answer => history.hand answer id
    | none => history
  | .enter => ⟨history.table.enter, .empty :: history.accounts⟩
  | .leave =>
    match history.table.leave? with
    | some table => ⟨table, history.accounts.tail⟩
    | none => history

/-- The history of a table that begins with one scope. -/
def run (steps : List Naming) : History := steps.foldl step start

end History

/-! ### Looking up in place -/

namespace SymbolTable

/-- Looks the name up and changes the scopes on the way back, so that there is a table afterwards
in every case. -/
def lookUpFrom (name : String) :
    (inner : SymbolScope) → (outer : List SymbolScope) → Option Symbol × SymbolTable
  | inner, [] => (inner.symbols[name]?, ⟨inner, []⟩)
  | inner, next :: rest =>
    match inner.symbols[name]? with
    | some symbol => (some symbol, ⟨inner, next :: rest⟩)
    | none =>
      match lookUpFrom name next rest with
      | (none, table) => (none, ⟨inner, table.inner :: table.outer⟩)
      | (some found, table) =>
        match found.storage with
        | .globalSlot | .builtin => (some found, ⟨inner, table.inner :: table.outer⟩)
        | .localSlot | .captured | .self =>
          let (symbol, inner) := inner.capture found
          (some symbol, ⟨inner, table.inner :: table.outer⟩)

def lookUp (table : SymbolTable) (name : String) : Option Symbol × SymbolTable :=
  lookUpFrom name table.inner table.outer

/-- A look-up that fails in place leaves all scopes as they are. -/
theorem lookUpFrom_eq (name : String) (inner : SymbolScope) (outer : List SymbolScope) :
    lookUpFrom name inner outer =
      ((resolveFrom name inner outer).map Prod.fst,
        ((resolveFrom name inner outer).map Prod.snd).getD ⟨inner, outer⟩) := by
  induction outer generalizing inner with
  | nil =>
    rw [lookUpFrom, resolveFrom]
    cases inner.symbols[name]? <;> rfl
  | cons next rest ih =>
    rw [lookUpFrom, resolveFrom]
    cases inner.symbols[name]? with
    | some symbol => rfl
    | none =>
      dsimp only
      rw [ih]
      cases resolveFrom name next rest with
      | none => rfl
      | some answer =>
        obtain ⟨⟨other, storage, index⟩, table⟩ := answer
        cases storage <;> rfl

end SymbolTable

/-! ### What symbols mean later -/

namespace SymbolScope

/-- The captures of the scope stay at their places. -/
def Keeps (scope later : SymbolScope) : Prop :=
  ∃ more, later.captures.toList = scope.captures.toList ++ more

theorem Keeps.refl (scope : SymbolScope) : scope.Keeps scope := ⟨[], (List.append_nil _).symm⟩

theorem Keeps.of_eq {scope later : SymbolScope} (h : later.captures = scope.captures) :
    scope.Keeps later := ⟨[], by rw [h, List.append_nil]⟩

theorem Keeps.getElem? {scope later : SymbolScope} (h : scope.Keeps later) {index : Nat}
    {found : Symbol} (hf : scope.captures[index]? = some found) :
    later.captures[index]? = some found := by
  obtain ⟨more, hmore⟩ := h
  rw [← Array.getElem?_toList] at hf ⊢
  rw [hmore, List.getElem?_append_left (List.getElem?_eq_some_iff.mp hf).1, hf]

theorem forall₂_keeps_refl (scopes : List SymbolScope) : List.Forall₂ Keeps scopes scopes :=
  List.forall₂_same.mpr fun scope _ => .refl scope

theorem forall₂_grows_refl (scopes : List SymbolScope) : List.Forall₂ Grows scopes scopes :=
  List.forall₂_same.mpr fun scope _ => .refl scope

theorem forall₂_keeps {scopes later : List SymbolScope} (h : List.Forall₂ Grows scopes later) :
    List.Forall₂ Keeps scopes later := h.imp fun _ _ hg => hg.captures

end SymbolScope

namespace Symbol

variable {symbol : Symbol} {meaning : Meaning} {scope : SymbolScope}
  {scopes later : List SymbolScope}

theorem meaning?_mono (h : List.Forall₂ SymbolScope.Keeps scopes later)
    (hm : symbol.meaning? scopes = some meaning) : symbol.meaning? later = some meaning := by
  induction h generalizing symbol with
  | nil => exact hm
  | @cons scope wider outer rest hkeeps hrest ih =>
    rw [meaning?] at hm ⊢
    rw [← hrest.length_eq]
    cases hst : symbol.storage with
    | captured =>
      rw [hst] at hm
      dsimp only at hm ⊢
      cases hf : scope.captures[symbol.index]? with
      | none =>
        rw [hf] at hm
        cases hm
      | some found =>
        rw [hf] at hm
        rw [hkeeps.getElem? hf]
        exact ih hm
    | _ =>
      rw [hst] at hm
      exact hm

theorem isSome_meaning?_mono (h : List.Forall₂ SymbolScope.Keeps scopes later)
    (hm : (symbol.meaning? scopes).isSome) : (symbol.meaning? later).isSome := by
  obtain ⟨meaning, hmeaning⟩ := Option.isSome_iff_exists.mp hm
  rw [meaning?_mono h hmeaning]
  rfl

/-- A shared symbol stands for itself. -/
theorem meaning?_of_isShared (h : symbol.storage.isShared = true) :
    symbol.meaning? (scope :: scopes) = some (.shared symbol) := by
  rw [meaning?]
  cases hst : symbol.storage <;> rw [hst] at h <;> first | rfl | cases h

theorem meaning?_captured {index : Nat} {found : Symbol}
    (h : scope.captures[index]? = some found) (name : String) :
    meaning? ⟨name, .captured, index⟩ (scope :: scopes) = found.meaning? scopes := by
  rw [meaning?]
  dsimp only
  rw [h]

end Symbol

/-- The symbol for what a name was bound to. -/
def Binding.symbol (binding : Binding) (name : String) (scope : Nat) : Symbol :=
  match binding with
  | .slot index => ⟨name, if scope = 0 then .globalSlot else .localSlot, index⟩
  | .builtin index => ⟨name, .builtin, index⟩
  | .own => ⟨name, .self, 0⟩

theorem Binding.name_symbol (binding : Binding) (name : String) (scope : Nat) :
    (binding.symbol name scope).name = name := by
  cases binding <;> rfl

theorem Binding.meaning?_symbol (binding : Binding) (name : String) (scope : SymbolScope)
    (outer : List SymbolScope) :
    (binding.symbol name outer.length).meaning? (scope :: outer) =
      some (binding.meaning name outer.length) := by
  cases binding with
  | slot index => cases outer <;> rfl
  | builtin index => rfl
  | own => rfl

/-! ### Tables that agree with their accounts -/

/-- The symbol stands for a captured value, which is what the name means in the scopes around. -/
structure Symbol.Reflects (symbol : Symbol) (name : String) (accounts : List Account)
    (scopes : List SymbolScope) : Prop where
  name_eq : symbol.name = name
  storage_eq : symbol.storage = .captured
  meaning : ∃ meaning, lexical? name accounts = some meaning ∧
    (∀ other, meaning ≠ .shared other) ∧ symbol.meaning? scopes = some meaning

theorem Symbol.Reflects.mono {symbol : Symbol} {name : String} {accounts : List Account}
    {scopes later : List SymbolScope} (h : symbol.Reflects name accounts scopes)
    (hkeeps : List.Forall₂ SymbolScope.Keeps scopes later) :
    symbol.Reflects name accounts later := by
  obtain ⟨meaning, hlex, hshared, hmeaning⟩ := h.meaning
  exact ⟨h.name_eq, h.storage_eq, meaning, hlex, hshared, meaning?_mono hkeeps hmeaning⟩

/-- The scope holds what its account says was bound in it, and beside it only captured names with
the meaning that they have in the scopes around it. -/
structure Account.Fits (account : Account) (accounts : List Account) (scope : SymbolScope)
    (outer : List SymbolScope) : Prop where
  slots_eq : scope.slots = account.slots
  bound : ∀ (name : String) (binding : Binding), account.bindings.lookup name = some binding →
    scope.symbols[name]? = some (binding.symbol name outer.length)
  unbound : ∀ (name : String) (symbol : Symbol), account.bindings.lookup name = none →
    scope.symbols[name]? = some symbol → symbol.Reflects name accounts (scope :: outer)
  handed : ∀ symbol ∈ account.handed, (symbol.meaning? (scope :: outer)).isSome

/-- Scope by scope, the table holds what the accounts say. -/
inductive Agree : List SymbolScope → List Account → Prop where
  | nil : Agree [] []
  | cons {scope : SymbolScope} {outer : List SymbolScope} {account : Account}
    {accounts : List Account} : account.Fits accounts scope outer → Agree outer accounts →
    Agree (scope :: outer) (account :: accounts)

theorem Agree.length_eq {scopes : List SymbolScope} {accounts : List Account}
    (h : Agree scopes accounts) : scopes.length = accounts.length := by
  induction h with
  | nil => rfl
  | cons _ _ ih => rw [List.length_cons, List.length_cons, ih]

namespace Account.Fits

variable {account : Account} {accounts : List Account} {scope : SymbolScope}
  {outer wider : List SymbolScope}

theorem lookup_eq_none (h : account.Fits accounts scope outer) {name : String}
    (hn : scope.symbols[name]? = none) : account.bindings.lookup name = none := by
  cases hl : account.bindings.lookup name with
  | none => rfl
  | some binding =>
    rw [h.bound name binding hl] at hn
    cases hn

/-- The scopes around it may grow. -/
theorem mono (h : account.Fits accounts scope outer)
    (hg : List.Forall₂ SymbolScope.Grows outer wider) : account.Fits accounts scope wider := by
  have hkeeps : List.Forall₂ SymbolScope.Keeps (scope :: outer) (scope :: wider) :=
    .cons (.refl scope) (SymbolScope.forall₂_keeps hg)
  refine ⟨h.slots_eq, ?_, ?_, ?_⟩
  · rw [← hg.length_eq]
    exact h.bound
  · exact fun name symbol hl hs => (h.unbound name symbol hl hs).mono hkeeps
  · exact fun symbol hm => Symbol.isSome_meaning?_mono hkeeps (h.handed symbol hm)

/-- The scope may capture a name that it does not have, with its meaning around. -/
theorem capture (h : account.Fits accounts scope outer) {found : Symbol} {meaning : Meaning}
    (hn : scope.symbols[found.name]? = none) (hlex : lexical? found.name accounts = some meaning)
    (hshared : ∀ other, meaning ≠ .shared other) (hmeaning : found.meaning? outer = some meaning) :
    account.Fits accounts (scope.capture found).2 outer ∧
      (scope.capture found).1.meaning? ((scope.capture found).2 :: outer) = some meaning := by
  have hgrows := SymbolScope.grows_capture hn
  have hkeeps : List.Forall₂ SymbolScope.Keeps (scope :: outer)
      ((scope.capture found).2 :: outer) :=
    .cons hgrows.captures (SymbolScope.forall₂_keeps_refl outer)
  have hnew : (scope.capture found).1.meaning? ((scope.capture found).2 :: outer) =
      some meaning := by
    rw [← hmeaning]
    exact Symbol.meaning?_captured Array.getElem?_push_size found.name
  refine ⟨⟨h.slots_eq, ?_, ?_, ?_⟩, hnew⟩
  · exact fun name binding hl => hgrows.symbols name _ (h.bound name binding hl)
  · intro name symbol hl hs
    rw [SymbolScope.symbols_capture] at hs
    split at hs
    next he =>
      subst he
      cases hs
      exact ⟨rfl, rfl, meaning, hlex, hshared, hnew⟩
    · exact (h.unbound name symbol hl hs).mono hkeeps
  · exact fun symbol hm => Symbol.isSome_meaning?_mono hkeeps (h.handed symbol hm)

end Account.Fits

/-! ### Looking up -/

namespace SymbolTable

/-- What a look-up in the table ends in. -/
inductive Answers (name : String) (before : SymbolTable) (accounts : List Account) :
    Option (Symbol × SymbolTable) → Prop where
  | missing : lexical? name accounts = none → Answers name before accounts none
  /-- What is shared is found without a change. -/
  | shared {symbol : Symbol} : lexical? name accounts = some (.shared symbol) →
    symbol.name = name → symbol.storage.isShared = true → Agree before.scopes accounts →
    before.resolve name = some (symbol, before) →
    Answers name before accounts (some (symbol, before))
  /-- Anything else is in the innermost scope afterwards. -/
  | own {symbol : Symbol} {later : SymbolTable} {meaning : Meaning} :
    lexical? name accounts = some meaning → (∀ other, meaning ≠ .shared other) →
    symbol.name = name → symbol.storage.isShared = false →
    symbol.meaning? later.scopes = some meaning → Agree later.scopes accounts →
    List.Forall₂ SymbolScope.Grows before.scopes later.scopes →
    later.inner.symbols[name]? = some symbol → Answers name before accounts (some (symbol, later))

section
variable {name : String} {inner next : SymbolScope} {outer rest : List SymbolScope}
  {symbol found : Symbol} {table : SymbolTable}

theorem resolveFrom_of_inner (hs : inner.symbols[name]? = some symbol) :
    resolveFrom name inner outer = some (symbol, ⟨inner, outer⟩) := by
  cases outer with
  | nil => rw [resolveFrom, hs]; rfl
  | cons next rest => rw [resolveFrom, hs]

theorem resolveFrom_of_missing (hn : inner.symbols[name]? = none)
    (hr : resolveFrom name next rest = none) : resolveFrom name inner (next :: rest) = none := by
  rw [resolveFrom, hn, hr]

theorem resolveFrom_of_shared (hn : inner.symbols[name]? = none)
    (hr : resolveFrom name next rest = some (found, table))
    (hsh : found.storage.isShared = true) :
    resolveFrom name inner (next :: rest) = some (found, ⟨inner, table.scopes⟩) := by
  rw [resolveFrom, hn, hr]
  dsimp only
  cases hst : found.storage <;> rw [hst] at hsh <;> first | rfl | cases hsh

theorem resolveFrom_of_own (hn : inner.symbols[name]? = none)
    (hr : resolveFrom name next rest = some (found, table))
    (hsh : found.storage.isShared = false) :
    resolveFrom name inner (next :: rest) =
      some ((inner.capture found).1, ⟨(inner.capture found).2, table.scopes⟩) := by
  rw [resolveFrom, hn, hr]
  dsimp only
  cases hst : found.storage <;> rw [hst] at hsh <;> first | rfl | cases hsh

end

/-- A name that the innermost scope has is found there. -/
theorem answers_of_inner {name : String} {inner : SymbolScope} {outer : List SymbolScope}
    {accounts : List Account} {symbol : Symbol} (h : Agree (inner :: outer) accounts)
    (hs : inner.symbols[name]? = some symbol) :
    Answers name ⟨inner, outer⟩ accounts (some (symbol, ⟨inner, outer⟩)) := by
  have hagain : resolve ⟨inner, outer⟩ name = some (symbol, ⟨inner, outer⟩) :=
    resolveFrom_of_inner hs
  have hgrows := SymbolScope.forall₂_grows_refl (inner :: outer)
  have hagree := h
  cases h with | @cons _ _ account accounts hfits hrest => ?_
  cases hl : account.bindings.lookup name with
  | some binding =>
    have hlex : lexical? name (account :: accounts) =
        some (binding.meaning name outer.length) := by
      rw [lexical?, hl, hrest.length_eq]
    have hsymbol := hfits.bound name binding hl
    rw [hs] at hsymbol
    cases hsymbol
    have hmeaning := binding.meaning?_symbol name inner outer
    cases binding with
    | slot index =>
      cases outer with
      | nil => exact .shared hlex rfl rfl hagree hagain
      | cons next rest =>
        exact .own hlex (fun _ he => Meaning.noConfusion he) rfl rfl hmeaning hagree hgrows hs
    | builtin index => exact .shared hlex rfl rfl hagree hagain
    | own =>
      exact .own hlex (fun _ he => Meaning.noConfusion he) rfl rfl hmeaning hagree hgrows hs
  | none =>
    -- An earlier look-up has captured the name, and nothing was bound around since.
    obtain ⟨hname, hst, meaning, hlex, hshared, hmeaning⟩ := hfits.unbound name symbol hl hs
    have hall : lexical? name (account :: accounts) = some meaning := by
      rw [lexical?, hl]
      exact hlex
    exact .own hall hshared hname (by rw [hst]; rfl) hmeaning hagree hgrows hs

/-- Looking a name up ends in what it means. By induction outward: what the next scope finds is
what this one captures. -/
theorem answers_resolveFrom {name : String} {inner : SymbolScope} {outer : List SymbolScope}
    {accounts : List Account} (h : Agree (inner :: outer) accounts) :
    Answers name ⟨inner, outer⟩ accounts (resolveFrom name inner outer) := by
  induction outer generalizing inner accounts with
  | nil =>
    cases hs : inner.symbols[name]? with
    | some symbol =>
      rw [resolveFrom_of_inner hs]
      exact answers_of_inner h hs
    | none =>
      cases h with | cons hfits hrest => ?_
      cases hrest
      rw [resolveFrom, hs]
      refine .missing ?_
      rw [lexical?, hfits.lookup_eq_none hs, lexical?]
  | cons next rest ih =>
    cases hs : inner.symbols[name]? with
    | some symbol =>
      rw [resolveFrom_of_inner hs]
      exact answers_of_inner h hs
    | none =>
      have hagree := h
      cases h with | @cons _ _ account accounts hfits hrest => ?_
      have hlex : lexical? name (account :: accounts) = lexical? name accounts := by
        rw [lexical?, hfits.lookup_eq_none hs]
      have hfound := ih hrest
      generalize hr : resolveFrom name next rest = answer at hfound
      cases hfound with
      | missing hm =>
        rw [resolveFrom_of_missing hs hr]
        exact .missing (hlex.trans hm)
      | shared hm hname hsh =>
        have hpassed := resolveFrom_of_shared hs hr hsh
        rw [hpassed]
        exact .shared (hlex.trans hm) hname hsh hagree hpassed
      | @own found later meaning hm hshared hname hsh hmeaning hlater hgrows =>
        -- The scopes around have grown before this one captures what was found there.
        subst hname
        obtain ⟨hcaptured, hnew⟩ := (hfits.mono hgrows).capture hs hm hshared hmeaning
        rw [resolveFrom_of_own hs hr hsh]
        refine .own (hlex.trans hm) hshared rfl rfl hnew (.cons hcaptured hlater)
          (.cons (SymbolScope.grows_capture hs) hgrows) ?_
        show (inner.capture found).2.symbols[found.name]? = _
        rw [SymbolScope.symbols_capture, if_pos rfl]
        rfl

theorem answers_resolve {table : SymbolTable} {accounts : List Account}
    (h : Agree table.scopes accounts) (name : String) :
    Answers name table accounts (table.resolve name) := answers_resolveFrom h

namespace Answers

variable {name : String} {before later : SymbolTable} {accounts : List Account} {symbol : Symbol}

/-- The symbol has the meaning that the account gives. -/
theorem meaning (h : Answers name before accounts (some (symbol, later))) :
    ∃ meaning, lexical? name accounts = some meaning ∧
      symbol.meaning? later.scopes = some meaning := by
  cases h with
  | shared hm _ hsh => exact ⟨_, hm, Symbol.meaning?_of_isShared hsh⟩
  | own hm _ _ _ hmeaning => exact ⟨_, hm, hmeaning⟩

theorem agree (h : Answers name before accounts (some (symbol, later))) :
    Agree later.scopes accounts := by
  cases h with
  | shared _ _ _ hagree => exact hagree
  | own _ _ _ _ _ hagree => exact hagree

theorem grows (h : Answers name before accounts (some (symbol, later))) :
    List.Forall₂ SymbolScope.Grows before.scopes later.scopes := by
  cases h with
  | shared => exact SymbolScope.forall₂_grows_refl _
  | own _ _ _ _ _ _ hgrows => exact hgrows

theorem again (h : Answers name before accounts (some (symbol, later))) :
    later.resolve name = some (symbol, later) := by
  cases h with
  | shared _ _ _ _ hagain => exact hagain
  | own _ _ _ _ _ _ _ hinner => exact resolveFrom_of_inner hinner

end Answers

end SymbolTable

/-! ### What one step of a history does -/

namespace Account.Fits

variable {account : Account} {accounts : List Account} {scope : SymbolScope}
  {outer : List SymbolScope}

theorem hand (h : account.Fits accounts scope outer) {symbol : Symbol}
    (hm : (symbol.meaning? (scope :: outer)).isSome) :
    (account.hand symbol).Fits accounts scope outer :=
  { h with
    handed := fun other ho => by
      rcases List.mem_cons.mp ho with rfl | ho
      · exact hm
      · exact h.handed other ho }

/-- The latest binding takes the place of what the scope had for the name. -/
theorem bind (h : account.Fits accounts scope outer) (name : String) (binding : Binding) :
    ((account.bind name binding).hand (binding.symbol name outer.length)).Fits accounts
      (scope.insert (binding.symbol name outer.length)) outer := by
  have hkeeps : List.Forall₂ SymbolScope.Keeps (scope :: outer)
      (scope.insert (binding.symbol name outer.length) :: outer) :=
    .cons (.of_eq rfl) (SymbolScope.forall₂_keeps_refl outer)
  have hbound : (account.bind name binding).Fits accounts
      (scope.insert (binding.symbol name outer.length)) outer := by
    refine ⟨h.slots_eq, ?_, ?_, ?_⟩
    · intro other latest hl
      rw [lookup_bind] at hl
      rw [SymbolTable.symbols_insert, binding.name_symbol]
      split at hl
      next he =>
        cases hl
        rw [if_pos he, he]
      next he =>
        rw [if_neg he]
        exact h.bound other latest hl
    · intro other symbol hl hs
      rw [lookup_bind] at hl
      rw [SymbolTable.symbols_insert, binding.name_symbol] at hs
      split at hl
      · cases hl
      next he =>
        rw [if_neg he] at hs
        exact (h.unbound other symbol hl hs).mono hkeeps
    · exact fun symbol hm => Symbol.isSome_meaning?_mono hkeeps (h.handed symbol hm)
  refine hbound.hand ?_
  rw [binding.meaning?_symbol]
  rfl

/-- A name may be bound once more to what it is bound to. -/
theorem rebind (h : account.Fits accounts scope outer) {name : String} {binding : Binding}
    (hl : account.bindings.lookup name = some binding) :
    (account.bind name binding).Fits accounts scope outer := by
  have hsame : ∀ other, (account.bind name binding).bindings.lookup other =
      account.bindings.lookup other := by
    intro other
    rw [lookup_bind]
    split
    next he => rw [← he, hl]
    · rfl
  refine ⟨h.slots_eq, ?_, ?_, h.handed⟩
  · exact fun other latest hlatest => h.bound other latest (hsame other ▸ hlatest)
  · exact fun other symbol hnone => h.unbound other symbol (hsame other ▸ hnone)

/-- A slot may be taken on both sides. -/
theorem take (h : account.Fits accounts scope outer) :
    Account.Fits { account with slots := account.slots + 1 } accounts
      { scope with slots := scope.slots + 1 } outer := by
  have hkeeps : List.Forall₂ SymbolScope.Keeps (scope :: outer)
      ({ scope with slots := scope.slots + 1 } :: outer) :=
    .cons (.of_eq rfl) (SymbolScope.forall₂_keeps_refl outer)
  refine ⟨congrArg (· + 1) h.slots_eq, h.bound, ?_, ?_⟩
  · exact fun name symbol hl hs => (h.unbound name symbol hl hs).mono hkeeps
  · exact fun symbol hm => Symbol.isSome_meaning?_mono hkeeps (h.handed symbol hm)

/-- A name is in the slot that its account says. -/
theorem define (h : account.Fits accounts scope outer) (name : String) {storage : Storage}
    (hst : storage = if outer.length = 0 then .globalSlot else .localSlot) :
    ((account.define name).hand (scope.define storage name).1).Fits accounts
      (scope.define storage name).2 outer := by
  have hsymbol : ∀ index, (Binding.slot index).symbol name outer.length =
      ⟨name, storage, index⟩ := fun index => by rw [hst]; rfl
  have hnew (hne : ∀ symbol, scope.symbols[name]? = some symbol → symbol.storage ≠ storage)
      (haccount : account.define name =
        { account with slots := account.slots + 1 }.bind name (.slot account.slots)) :
      ((account.define name).hand (scope.define storage name).1).Fits accounts
        (scope.define storage name).2 outer := by
    have hfits := h.take.bind name (.slot account.slots)
    rw [hsymbol, ← haccount] at hfits
    have hscope : scope.define storage name = (⟨name, storage, account.slots⟩,
        { scope with slots := scope.slots + 1 }.insert ⟨name, storage, account.slots⟩) := by
      rw [SymbolScope.define, Option.filter_eq_none_iff.mpr, h.slots_eq]
      intro symbol hs hbeq
      exact hne symbol hs (beq_iff_eq.mp hbeq)
    rw [hscope]
    exact hfits
  cases hl : account.bindings.lookup name with
  | none =>
    refine hnew (fun symbol hs he => ?_) (by rw [Account.define, hl])
    rw [(h.unbound name symbol hl hs).storage_eq, hst] at he
    split at he <;> cases he
  | some binding =>
    have hs := h.bound name binding hl
    cases binding with
    | slot index =>
      rw [hsymbol] at hs
      have hscope : scope.define storage name = (⟨name, storage, index⟩, scope) := by
        rw [SymbolScope.define, hs, Option.filter_some, beq_self_eq_true]
        rfl
      have haccount : account.define name = account.bind name (.slot index) := by
        rw [Account.define, hl]
      have hmeaning := (Binding.slot index).meaning?_symbol name scope outer
      rw [hsymbol] at hmeaning
      rw [hscope, haccount]
      exact (h.rebind hl).hand (by rw [hmeaning]; rfl)
    | builtin _ | own =>
      refine hnew (fun symbol hsymbol he => ?_) (by rw [Account.define, hl])
      rw [hs] at hsymbol
      cases hsymbol
      rw [hst] at he
      split at he <;> cases he

theorem empty (accounts : List Account) (outer : List SymbolScope) :
    Account.empty.Fits accounts .empty outer where
  slots_eq := rfl
  bound := fun name binding hl => by cases hl
  unbound := fun name symbol _ hs => by
    rw [SymbolScope.empty, Std.ExtHashMap.getElem?_empty] at hs
    cases hs
  handed := fun symbol hm => absurd hm List.not_mem_nil

end Account.Fits

namespace Agree

variable {scopes : List SymbolScope} {accounts : List Account} {account : Account}

theorem slots_eq (h : Agree scopes accounts) : scopes.map (·.slots) = accounts.map (·.slots) := by
  induction h with
  | nil => rfl
  | cons hfits _ ih => rw [List.map_cons, List.map_cons, hfits.slots_eq, ih]

theorem handed (h : Agree scopes accounts) {depth : Nat} (ha : accounts[depth]? = some account)
    {symbol : Symbol} (hm : symbol ∈ account.handed) :
    (symbol.meaning? (scopes.drop depth)).isSome := by
  induction h generalizing depth with
  | nil => cases ha
  | cons hfits _ ih =>
    cases depth with
    | zero =>
      cases ha
      exact hfits.handed symbol hm
    | succ depth => exact ih ha

end Agree

namespace History

variable {history : History}

/-- Every step keeps table and accounts in agreement. -/
theorem agree_step (h : Agree history.table.scopes history.accounts) (naming : Naming) :
    Agree (history.step naming).table.scopes (history.step naming).accounts := by
  obtain ⟨⟨inner, outer⟩, accounts⟩ := history
  have hagree := h
  cases h with | @cons _ _ account accounts hfits hrest => ?_
  cases naming with
  | define name => exact .cons (hfits.define name (by cases outer <;> rfl)) hrest
  | builtin index name => exact .cons (hfits.bind name (.builtin index)) hrest
  | ownName name => exact .cons (hfits.bind name .own) hrest
  | resolve name =>
    have hanswers := SymbolTable.answers_resolve hagree name
    rw [step]
    dsimp only at hanswers ⊢
    generalize SymbolTable.resolve ⟨inner, outer⟩ name = answer at hanswers ⊢
    cases answer with
    | none => exact hagree
    | some answer =>
      obtain ⟨symbol, later⟩ := answer
      obtain ⟨meaning, -, hmeaning⟩ := hanswers.meaning
      cases hanswers.agree with | cons hfits hrest => ?_
      exact .cons (hfits.hand (Option.isSome_of_eq_some hmeaning)) hrest
  | enter => exact .cons (.empty _ _) hagree
  | leave =>
    cases outer with
    | nil => exact hagree
    | cons next rest => exact hrest

/-- By induction on the steps, the latest last. -/
theorem agree_run (steps : List Naming) : Agree (run steps).table.scopes (run steps).accounts := by
  have hall : ∀ history : History, Agree history.table.scopes history.accounts →
      Agree (steps.foldl step history).table.scopes (steps.foldl step history).accounts := by
    induction steps with
    | nil => exact fun _ h => h
    | cons naming steps ih => exact fun history h => ih _ (agree_step h naming)
  exact hall start (.cons (.empty _ _) .nil)

/-- What a look-up gives that finds the name. -/
structure Gives (history : History) (name : String) (symbol : Symbol) (later : SymbolTable) :
    Prop where
  name_eq : symbol.name = name
  /-- The latest binding of the name in the innermost scope that binds it. -/
  meaning : ∃ meaning, lexical? name history.accounts = some meaning ∧
    symbol.meaning? later.scopes = some meaning
  again : later.resolve name = some (symbol, later)
  slots_eq : later.scopes.map (·.slots) = history.table.scopes.map (·.slots)
  /-- Symbols that were handed out before keep what they stand for. -/
  handed : ∀ (depth : Nat) (account : Account) (other : Symbol),
    history.accounts[depth]? = some account → other ∈ account.handed →
    ∃ meaning, other.meaning? (history.table.scopes.drop depth) = some meaning ∧
      other.meaning? (later.scopes.drop depth) = some meaning
  shared_iff : symbol.storage.isShared = true ↔
    ∃ other, lexical? name history.accounts = some (.shared other)
  unchanged : symbol.storage.isShared = true → later = history.table

/-- What a look-up of the name does, whether it finds it or not. -/
structure Lexical (history : History) (name : String) : Prop where
  isSome_iff : (history.table.resolve name).isSome ↔
    ∃ account ∈ history.accounts, account.Binds name
  gives : ∀ (symbol : Symbol) (later : SymbolTable),
    history.table.resolve name = some (symbol, later) → history.Gives name symbol later
  fails : history.table.resolve name = none → history.table.lookUp name = (none, history.table)

theorem isSome_lexical? (name : String) (accounts : List Account) :
    (lexical? name accounts).isSome ↔ ∃ account ∈ accounts, account.Binds name := by
  induction accounts with
  | nil => simp [lexical?]
  | cons account outer ih =>
    rw [lexical?, List.exists_mem_cons_iff, Account.Binds, ← ih]
    cases account.bindings.lookup name <;> simp

/-- A look-up in a table that agrees with its accounts gives what they say. -/
theorem gives_of_agree (h : Agree history.table.scopes history.accounts) {name : String}
    {symbol : Symbol} {later : SymbolTable}
    (hr : history.table.resolve name = some (symbol, later)) :
    history.Gives name symbol later := by
  have hanswers := SymbolTable.answers_resolve h name
  rw [hr] at hanswers
  have hgrows := hanswers.grows
  have hkeeps := SymbolScope.forall₂_keeps hgrows
  refine ⟨?_, hanswers.meaning, hanswers.again, ?_, ?_, ?_, ?_⟩
  · cases hanswers with
    | shared _ hname => exact hname
    | own _ _ hname => exact hname
  · exact hanswers.agree.slots_eq.trans h.slots_eq.symm
  · intro depth account other ha hm
    obtain ⟨meaning, hmeaning⟩ := Option.isSome_iff_exists.mp (h.handed ha hm)
    exact ⟨meaning, hmeaning, Symbol.meaning?_mono (List.forall₂_drop depth hkeeps) hmeaning⟩
  · cases hanswers with
    | shared hm _ hsh => exact ⟨fun _ => ⟨symbol, hm⟩, fun _ => hsh⟩
    | own hm hother _ hsh =>
      refine ⟨fun he => Bool.noConfusion (hsh.symm.trans he), ?_⟩
      rintro ⟨other, hlex⟩
      exact absurd (Option.some.inj (hm.symm.trans hlex)) (hother other)
  · intro hsh
    cases hanswers with
    | shared => rfl
    | own _ _ _ hnot => exact Bool.noConfusion (hnot.symm.trans hsh)

/-- After any history, a name is looked up by what was bound around it. -/
theorem lexical_run (steps : List Naming) (name : String) : (run steps).Lexical name := by
  have h := agree_run steps
  refine ⟨?_, fun symbol later hr => gives_of_agree h hr, fun hr => ?_⟩
  · have hanswers := SymbolTable.answers_resolve h name
    rw [← isSome_lexical?]
    generalize (run steps).table.resolve name = answer at hanswers ⊢
    cases hanswers with
    | missing hm => rw [hm, Option.isSome_none, Option.isSome_none]
    | shared hm => rw [hm]; rfl
    | own hm => rw [hm]; rfl
  · have hr : SymbolTable.resolveFrom name (run steps).table.inner (run steps).table.outer = none :=
      hr
    rw [SymbolTable.lookUp, SymbolTable.lookUpFrom_eq, hr]
    rfl

end History

end Simian
