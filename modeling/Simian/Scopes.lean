import Simian.Value
import Std.Data.ExtHashMap

/-!
# Scopes at run time

The evaluator binds names in scopes that functions share: a function sees what is bound
later in the scope it was made in. All scopes are kept in one store and known by their
number, and every scope but the first lies in an earlier one, so looking a name up
outward ends.
-/
namespace Simian

structure Scope where
  bindings : Std.ExtHashMap String Value
  /-- The scope around this one. -/
  outer : Option Nat

instance : Inhabited Scope := ⟨⟨∅, none⟩⟩

structure Scopes where
  scopes : Array Scope
  deriving Inhabited

namespace Scopes

/-- The store with one scope that has nothing around it, which is number 0. -/
def create : Scopes := ⟨#[⟨∅, none⟩]⟩

/-- Opens a scope with these bindings inside another one. -/
def enclose (scopes : Scopes) (outer : Nat) (bindings : Std.ExtHashMap String Value) :
    Nat × Scopes :=
  match scopes with
  | ⟨scopes⟩ =>
    let number := scopes.size
    (number, ⟨scopes.push ⟨bindings, some outer⟩⟩)

/-- Binds the name in the scope itself, whatever the name means around it. -/
def set (scopes : Scopes) (number : Nat) (name : String) (value : Value) : Scopes :=
  match scopes with
  | ⟨scopes⟩ =>
    ⟨scopes.modify number fun scope =>
      match scope with
      | ⟨bindings, outer⟩ => ⟨bindings.insert name value, outer⟩⟩

/-- The value of the name in the scope or the nearest one around it that binds the name. -/
def find? (scopes : Scopes) (number : Nat) (name : String) : Option Value :=
  match scopes.scopes[number]? with
  | none => none
  | some scope =>
    match scope.bindings[name]? with
    | some value => some value
    | none =>
      match scope.outer with
      | none => none
      | some outer => if outer < number then find? scopes outer name else none
termination_by number

/-- Number of names that the scope itself binds. -/
def size (scopes : Scopes) (number : Nat) : Nat :=
  match scopes.scopes[number]? with
  | some scope => scope.bindings.size
  | none => 0

end Scopes

end Simian
