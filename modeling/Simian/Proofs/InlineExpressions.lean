import Simian.Proofs.AddedNames

/-!
# Expressions whose code runs in one frame

An inline expression has no function literal and binds no name, so its code opens no scope
and makes no closure. `Expr.height` is how high its code lets the stack grow.

The names of such an expression resolve behind it as they did on the way: growing by
captured names changes no resolution (`SymbolTable.resolve_of_grows`).
-/
namespace Simian

mutual

/-- Whether there is no function literal in the expression and no `let` in its blocks. -/
def Expr.isInline : Expr → Bool
  | .ident .. | .integer .. | .boolean .. | .string .. => true
  | .unary _ operand _ | .bump _ operand _ => operand.isInline
  | .binary _ left right _ | .logical _ left right _ => left.isInline && right.isInline
  | .ifThen condition (.mk statements _) _ => condition.isInline && areInlineStmts statements
  | .ifElse condition (.mk first _) (.mk second _) _ =>
    condition.isInline && (areInlineStmts first && areInlineStmts second)
  | .function .. => false
  | .array elements _ => areInlineExprs elements
  | .hash pairs _ => areInlineEntries pairs
  | .call callee arguments _ => callee.isInline && areInlineExprs arguments
  | .index collection key _ => collection.isInline && key.isInline

def areInlineExprs : List Expr → Bool
  | [] => true
  | item :: rest => item.isInline && areInlineExprs rest

def areInlineEntries : List (Expr × Expr) → Bool
  | [] => true
  | (key, value) :: rest => key.isInline && (value.isInline && areInlineEntries rest)

def Stmt.isInline : Stmt → Bool
  | .bind .. => false
  | .ret value _ | .expr value _ => value.isInline
  | .retNull _ => true

def areInlineStmts : List Stmt → Bool
  | [] => true
  | statement :: rest => statement.isInline && areInlineStmts rest

end

mutual

theorem Expr.isDirect_of_isInline {tree : Expr} (h : tree.isInline = true) :
    tree.isDirect = true := by
  match tree with
  | .ident .. | .integer .. | .boolean .. | .string .. => rfl
  | .unary _ operand _ | .bump _ operand _ =>
    rw [Expr.isInline] at h
    rw [Expr.isDirect, Expr.isDirect_of_isInline h]
  | .binary _ left right _ | .logical _ left right _ =>
    rw [Expr.isInline, Bool.and_eq_true] at h
    rw [Expr.isDirect, Expr.isDirect_of_isInline h.1, Expr.isDirect_of_isInline h.2,
      Bool.and_self]
  | .ifThen condition (.mk statements _) _ =>
    rw [Expr.isInline, Bool.and_eq_true] at h
    rw [Expr.isDirect, Expr.isDirect_of_isInline h.1, areDirectInBlock_of_inline h.2,
      Bool.and_self]
  | .ifElse condition (.mk first _) (.mk second _) _ =>
    rw [Expr.isInline, Bool.and_eq_true, Bool.and_eq_true] at h
    rw [Expr.isDirect, Expr.isDirect_of_isInline h.1, areDirectInBlock_of_inline h.2.1,
      areDirectInBlock_of_inline h.2.2, Bool.and_self, Bool.and_self]
  | .function .. => cases h
  | .array elements _ =>
    rw [Expr.isInline] at h
    rw [Expr.isDirect, areDirectExprs_of_inline h]
  | .hash pairs _ =>
    rw [Expr.isInline] at h
    rw [Expr.isDirect, areDirectEntries_of_inline h]
  | .call callee arguments _ =>
    rw [Expr.isInline, Bool.and_eq_true] at h
    rw [Expr.isDirect, Expr.isDirect_of_isInline h.1, areDirectExprs_of_inline h.2,
      Bool.and_self]
  | .index collection key _ =>
    rw [Expr.isInline, Bool.and_eq_true] at h
    rw [Expr.isDirect, Expr.isDirect_of_isInline h.1, Expr.isDirect_of_isInline h.2,
      Bool.and_self]

theorem areDirectExprs_of_inline {items : List Expr} (h : areInlineExprs items = true) :
    areDirectExprs items = true := by
  match items with
  | [] => rfl
  | item :: rest =>
    rw [areInlineExprs, Bool.and_eq_true] at h
    rw [areDirectExprs, Expr.isDirect_of_isInline h.1, areDirectExprs_of_inline h.2,
      Bool.and_self]

theorem areDirectEntries_of_inline {pairs : List (Expr × Expr)}
    (h : areInlineEntries pairs = true) : areDirectEntries pairs = true := by
  match pairs with
  | [] => rfl
  | (key, value) :: rest =>
    rw [areInlineEntries, Bool.and_eq_true, Bool.and_eq_true] at h
    rw [areDirectEntries, Expr.isDirect_of_isInline h.1, Expr.isDirect_of_isInline h.2.1,
      areDirectEntries_of_inline h.2.2, Bool.and_self, Bool.and_self]

theorem areDirectInBlock_of_inline {statements : List Stmt}
    (h : areInlineStmts statements = true) : areDirectInBlock statements = true := by
  match statements with
  | [] => rfl
  | .bind .. :: rest => cases h
  | .ret value _ :: rest | .expr value _ :: rest =>
    rw [areInlineStmts, Bool.and_eq_true] at h
    rw [areDirectInBlock, Expr.isDirect_of_isInline h.1, areDirectInBlock_of_inline h.2,
      Bool.and_self]
  | .retNull _ :: rest =>
    rw [areInlineStmts, Stmt.isInline, Bool.true_and] at h
    rw [areDirectInBlock, areDirectInBlock_of_inline h]

end

/-! ### The stack that the code needs -/

mutual

/-- The most values that the code of an inline expression has on the stack at one time. -/
def Expr.height : Expr → Nat
  | .ident .. | .integer .. | .boolean .. | .string .. | .function .. => 1
  | .unary _ operand _ => operand.height
  | .bump _ operand _ => max operand.height 2
  | .binary _ left right _ => max left.height (right.height + 1)
  | .logical _ left right _ => max left.height right.height
  | .ifThen condition (.mk statements _) _ => max condition.height (heightOfStmts statements)
  | .ifElse condition (.mk first _) (.mk second _) _ =>
    max condition.height (max (heightOfStmts first) (heightOfStmts second))
  | .array elements _ => max 1 (heightOfExprs elements)
  | .hash pairs _ => max 1 (heightOfEntries pairs)
  | .call callee arguments _ => max callee.height (heightOfExprs arguments + 1)
  | .index collection key _ => max collection.height (key.height + 1)

def heightOfExprs : List Expr → Nat
  | [] => 0
  | item :: rest => max item.height (heightOfExprs rest + 1)

def heightOfEntries : List (Expr × Expr) → Nat
  | [] => 0
  | (key, value) :: rest => max key.height (max value.height (heightOfEntries rest + 1) + 1)

def Stmt.height : Stmt → Nat
  | .bind _ value _ | .ret value _ | .expr value _ => value.height
  | .retNull _ => 0

/-- A block without a value at its end pushes null. -/
def heightOfStmts : List Stmt → Nat
  | [] => 1
  | statement :: rest => max statement.height (heightOfStmts rest)

end

/-- The value of the expression itself has to go somewhere. -/
theorem Expr.height_pos (tree : Expr) : 0 < tree.height := by
  match tree with
  | .ident .. | .integer .. | .boolean .. | .string .. | .function .. => exact Nat.one_pos
  | .unary _ operand _ => exact operand.height_pos
  | .bump .. => exact Nat.lt_of_lt_of_le Nat.two_pos (Nat.le_max_right ..)
  | .binary _ left _ _ | .logical _ left _ _ =>
    exact Nat.lt_of_lt_of_le left.height_pos (Nat.le_max_left ..)
  | .ifThen condition (.mk _ _) _ | .ifElse condition (.mk _ _) (.mk _ _) _ =>
    exact Nat.lt_of_lt_of_le condition.height_pos (Nat.le_max_left ..)
  | .array .. | .hash .. => exact Nat.lt_of_lt_of_le Nat.one_pos (Nat.le_max_left ..)
  | .call callee _ _ => exact Nat.lt_of_lt_of_le callee.height_pos (Nat.le_max_left ..)
  | .index collection _ _ => exact Nat.lt_of_lt_of_le collection.height_pos (Nat.le_max_left ..)

/-! ### Names that go on resolving as they did -/

namespace SymbolScope

/-- Through the captures a name that is not shared leads to a function around that has it. -/
theorem someOwns_of_symbol {name : String} {outer : List SymbolScope} :
    ∀ {inner : SymbolScope} {symbol : Symbol}, Chained inner outer →
      inner.symbols[name]? = some symbol → symbol.storage.isShared = false →
      SomeOwns name (inner :: outer) := by
  induction outer with
  | nil =>
    intro inner symbol hc hs hshared
    rcases hc.storage name symbol hs with ⟨hst, _⟩ | ⟨hst, _⟩ <;>
    · rw [hst] at hshared
      cases hshared
  | cons next rest ih =>
    intro inner symbol hc hs hshared
    rcases hc.1.storage name symbol hs with ⟨hst, _⟩ | ⟨_, found, hfound, hname⟩ | hst
    · exact .inl ⟨symbol, hs, .inl hst⟩
    · have hm : found ∈ inner.captures.toList :=
        List.mem_of_getElem? ((Array.getElem?_toList ..).trans hfound)
      obtain ⟨hnext, hown⟩ := hc.1.captures found hm
      rw [hname] at hnext
      exact .inr (ih hc.2 hnext hown)
    · exact .inl ⟨symbol, hs, .inr hst⟩

end SymbolScope

namespace SymbolTable

open SymbolScope

/-- What no function around has is looked up in the outermost scope. -/
theorem resolveFrom_of_not_owns {name : String} {outer : List SymbolScope} :
    ∀ {inner : SymbolScope} {symbol : Symbol}, Chained inner outer →
      ¬SomeOwns name (inner :: outer) → lastSymbol? name (inner :: outer) = some symbol →
      symbol.storage.isShared = true →
      ∃ later, resolveFrom name inner outer = some (symbol, later) := by
  induction outer with
  | nil =>
    intro inner symbol _ _ hlast _
    have hat : inner.symbols[name]? = some symbol := hlast
    exact ⟨_, by rw [resolveFrom, hat]; rfl⟩
  | cons next rest ih =>
    intro inner symbol hc hnot hlast hshared
    have hnone : inner.symbols[name]? = none := by
      cases hs : inner.symbols[name]? with
      | none => rfl
      | some other =>
        refine absurd (someOwns_of_symbol hc hs ?_) hnot
        rcases hc.1.storage name other hs with ⟨hst, _⟩ | ⟨hst, _⟩ | hst <;> rw [hst] <;> rfl
    obtain ⟨later, hlater⟩ := ih hc.2 (fun h => hnot (.inr h)) hlast hshared
    rw [resolveFrom, hnone]
    dsimp only
    rw [hlater]
    cases hst : symbol.storage with
    | globalSlot | builtin =>
      dsimp only
      rw [hst]
      exact ⟨_, rfl⟩
    | localSlot | captured | self =>
      rw [hst] at hshared
      cases hshared

theorem resolve_of_symbol {table : SymbolTable} {name : String} {symbol : Symbol}
    (h : table.inner.symbols[name]? = some symbol) : table.resolve name = some (symbol, table) := by
  obtain ⟨inner, outer⟩ := table
  have hat : inner.symbols[name]? = some symbol := h
  unfold resolve
  cases outer with
  | nil => rw [resolveFrom, hat]; rfl
  | cons next rest => rw [resolveFrom, hat]

/-- A name that was resolved resolves to the same symbol when the table has grown. -/
theorem resolve_of_grows {table later last : SymbolTable} {name : String} {symbol : Symbol}
    (h : table.Sound) (hr : table.resolve name = some (symbol, later)) (hl : last.Sound)
    (hg : List.Forall₂ SymbolScope.Grows later.scopes last.scopes) :
    ∃ after, last.resolve name = some (symbol, after) := by
  obtain ⟨hsound, _, hfound⟩ := resolve_sound h hr
  cases hshared : symbol.storage.isShared with
  | false =>
    cases hg with
    | cons hinner _ =>
      exact ⟨last, resolve_of_symbol (hinner.symbols _ _ (hfound.own hshared))⟩
  | true =>
    obtain ⟨howns, hlast⟩ := resolveFrom_shared h hr hshared
    have hall := forall₂_grows_trans (grownBy_resolve h hr).grows hg
    refine resolveFrom_of_not_owns hl ?_ ?_ hshared
    · exact fun ho => howns ((someOwns_iff hall name).mp ho)
    · exact (lastSymbol?_eq hall rfl hl name).trans hlast

end SymbolTable

end Simian
