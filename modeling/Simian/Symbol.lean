import Simian.Tree
import Std.Data.ExtHashMap

/-!
# Names at compile time

Each function being compiled has a scope of its own, and the outermost scope holds the
globals and the built-in functions. A table is the chain of these scopes, the innermost
first. Globals and built-ins are the same from everywhere. A name of an enclosing
function becomes a captured value of every function between its use and its definition,
so that each closure captures what the closures inside it need.
-/
namespace Simian

/-- Where the value of a name is found when the code runs. -/
inductive Storage where
  /-- A slot of the globals. -/
  | globalSlot
  /-- A slot of the running call. -/
  | localSlot
  /-- A built-in function. -/
  | builtin
  /-- A value that the running closure captured. -/
  | captured
  /-- The running closure. -/
  | self
  deriving Repr, DecidableEq, Inhabited

structure Symbol where
  name : String
  storage : Storage
  /-- Place within the storage. -/
  index : Nat
  deriving Repr, DecidableEq, Inhabited

/-- The names of one function, or of the top level. -/
structure SymbolScope where
  symbols : Std.ExtHashMap String Symbol
  /-- Slots taken so far. -/
  slots : Nat
  /-- Symbols of the next scope outward that this one captures, in the order of first use. -/
  captures : Array Symbol

namespace SymbolScope

def empty : SymbolScope := ⟨∅, 0, #[]⟩

def insert (scope : SymbolScope) (symbol : Symbol) : SymbolScope :=
  { scope with symbols := scope.symbols.insert symbol.name symbol }

/-- Captures a symbol of the next scope outward. -/
def capture (scope : SymbolScope) (found : Symbol) : Symbol × SymbolScope :=
  let symbol := ⟨found.name, .captured, scope.captures.size⟩
  (symbol, { scope with captures := scope.captures.push found }.insert symbol)

/-- Gives the name the next slot, or the slot that it has in this scope already. -/
def define (scope : SymbolScope) (storage : Storage) (name : String) : Symbol × SymbolScope :=
  match (scope.symbols[name]?).filter (·.storage == storage) with
  | some symbol => (symbol, scope)
  | none =>
    let symbol := ⟨name, storage, scope.slots⟩
    (symbol, { scope with slots := scope.slots + 1 }.insert symbol)

end SymbolScope

structure SymbolTable where
  inner : SymbolScope
  /-- The enclosing scopes, the nearest first. -/
  outer : List SymbolScope

namespace SymbolTable

def empty : SymbolTable := ⟨.empty, []⟩

/-- Whether the innermost scope is the outermost too. -/
def isGlobal (table : SymbolTable) : Bool := table.outer.isEmpty

/-- Opens a scope inside the innermost one. -/
def enter (table : SymbolTable) : SymbolTable := ⟨.empty, table.inner :: table.outer⟩

/-- The table without its innermost scope, if it has another one. -/
def leave? (table : SymbolTable) : Option SymbolTable :=
  match table.outer with
  | [] => none
  | next :: rest => some ⟨next, rest⟩

/-- Gives the name a slot in the innermost scope. -/
def define (table : SymbolTable) (name : String) : Symbol × SymbolTable :=
  let (symbol, inner) :=
    table.inner.define (if table.isGlobal then .globalSlot else .localSlot) name
  (symbol, { table with inner })

/-- Binds a built-in function by its place. This takes no slot. -/
def defineBuiltin (table : SymbolTable) (index : Nat) (name : String) : Symbol × SymbolTable :=
  let symbol := ⟨name, .builtin, index⟩
  (symbol, { table with inner := table.inner.insert symbol })

/-- Binds the name by which the body of a function can call it. -/
def defineSelf (table : SymbolTable) (name : String) : Symbol × SymbolTable :=
  let symbol := ⟨name, .self, 0⟩
  (symbol, { table with inner := table.inner.insert symbol })

/-- Looks the name up from `inner` outward, and captures it in every scope it is passed
through. -/
def resolveFrom (name : String) :
    (inner : SymbolScope) → (outer : List SymbolScope) → Option (Symbol × SymbolTable)
  | inner, [] => (inner.symbols[name]?).map fun symbol => (symbol, ⟨inner, []⟩)
  | inner, next :: rest =>
    match inner.symbols[name]? with
    | some symbol => some (symbol, ⟨inner, next :: rest⟩)
    | none =>
      match resolveFrom name next rest with
      | none => none
      | some (found, table) =>
        match found.storage with
        | .globalSlot | .builtin => some (found, ⟨inner, table.inner :: table.outer⟩)
        | .localSlot | .captured | .self =>
          let (symbol, inner) := inner.capture found
          some (symbol, ⟨inner, table.inner :: table.outer⟩)

/-- Looks the name up, the innermost scope first. -/
def resolve (table : SymbolTable) (name : String) : Option (Symbol × SymbolTable) :=
  resolveFrom name table.inner table.outer

end SymbolTable

end Simian
