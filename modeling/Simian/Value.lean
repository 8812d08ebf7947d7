import Simian.Bytecode.Codec
import Simian.Tree

/-!
# Values

Both engines work on one type of values. Data compares by content. A function value
carries an identity instead, given when it is made, and equals only itself: two
evaluations of one literal give two functions. The evaluator's functions keep their
tree and the scope they were made in, the machine's closures keep their code and the
values they captured.

A hash lists its entries in the order in which the keys first came. `Value.WellFormed`
says that no key comes twice, which every way of building a hash keeps.
-/
namespace Simian

/-- The built-in functions. The compiler refers to one by its place in `Builtin.all`. -/
inductive Builtin where
  | len | puts | first | last | rest | push
  deriving Repr, DecidableEq, Inhabited

namespace Builtin

def name : Builtin → String
  | len => "len"
  | puts => "puts"
  | first => "first"
  | last => "last"
  | rest => "rest"
  | push => "push"

def all : List Builtin := [len, puts, first, last, rest, push]

def ofName? (name : String) : Option Builtin := all.find? (·.name == name)

def ofIndex? (index : Nat) : Option Builtin := all[index]?

end Builtin

/-- The values that a hash can have as keys. -/
inductive Key where
  | int (value : Int64)
  | bool (value : Bool)
  | str (text : String)
  deriving Repr, DecidableEq, Hashable, Inhabited

instance : EquivBEq Key := inferInstance

instance : LawfulHashable Key := inferInstance

/-- The code of a function body and what a call needs to know of it. -/
structure CompiledFunction where
  name : Option String
  code : Code
  /-- Slots that a call reserves, parameters included. -/
  numLocals : Nat
  numParameters : Nat
  deriving Repr, DecidableEq, Inhabited

/-- The name to show, also for a function without one. -/
def CompiledFunction.displayName (body : CompiledFunction) : String :=
  body.name.getD "<anonymous>"

/-- A function literal and the scope it was evaluated in. -/
structure TreeFunction where
  id : Nat
  /-- The name that the body can call the function by. -/
  name : Option String
  parameters : List String
  body : Block
  scope : Nat
  deriving Inhabited

inductive Value where
  | null
  | int (value : Int64)
  | bool (value : Bool)
  | str (text : String)
  | array (items : List Value)
  | hash (entries : List (Key × Value))
  | function (tree : TreeFunction)
  | compiled (id : Nat) (body : CompiledFunction)
  | closure (id : Nat) (body : CompiledFunction) (captured : List Value)
  | builtin (which : Builtin)
  deriving Inhabited

/-- The types that messages speak of. -/
inductive Value.Kind where
  | null | integer | boolean | string | array | hash | function | compiledFunction | closure
  | builtin
  deriving Repr, DecidableEq, Inhabited

def Value.Kind.name : Value.Kind → String
  | null => "NULL"
  | integer => "INTEGER"
  | boolean => "BOOLEAN"
  | string => "STRING"
  | array => "ARRAY"
  | hash => "HASH"
  | function => "FUNCTION"
  | compiledFunction => "COMPILED_FUNCTION"
  | closure => "CLOSURE"
  | builtin => "BUILTIN"

def Key.toValue : Key → Value
  | int value => .int value
  | bool value => .bool value
  | str text => .str text

namespace Value

def kind : Value → Kind
  | null => .null
  | int _ => .integer
  | bool _ => .boolean
  | str _ => .string
  | array _ => .array
  | hash _ => .hash
  | function _ => .function
  | compiled .. => .compiledFunction
  | closure .. => .closure
  | builtin _ => .builtin

/-- Everything but `null` and `false` counts as true, zero and empty text included. -/
def isTruthy : Value → Bool
  | null => false
  | bool value => value
  | _ => true

def isNull : Value → Bool
  | null => true
  | _ => false

/-- The key that the value is in a hash, if it can be one. -/
def key? : Value → Option Key
  | int value => some (.int value)
  | bool value => some (.bool value)
  | str text => some (.str text)
  | _ => none

@[simp] theorem key?_toValue (key : Key) : key.toValue.key? = some key := by
  cases key <;> rfl

theorem toValue_of_key? {value : Value} {key : Key} (h : value.key? = some key) :
    key.toValue = value := by
  cases value <;> simp_all [key?] <;> subst h <;> rfl

end Value

/-! ### Entries of a hash -/

namespace Entries

/-- The value of the first entry with the key. -/
def find? (key : Key) : List (Key × Value) → Option Value
  | [] => none
  | (k, value) :: rest => if k = key then some value else find? key rest

end Entries

namespace Value

mutual

/-- Whether no hash inside the value, captured values included, has a key twice. -/
def WellFormed : Value → Prop
  | .array items => AllWellFormed items
  | .hash entries => (entries.map Prod.fst).Nodup ∧ EntriesWellFormed entries
  | .closure _ _ captured => AllWellFormed captured
  | _ => True

def AllWellFormed : List Value → Prop
  | [] => True
  | item :: rest => item.WellFormed ∧ AllWellFormed rest

def EntriesWellFormed : List (Key × Value) → Prop
  | [] => True
  | (_, value) :: rest => value.WellFormed ∧ EntriesWellFormed rest

end

mutual

/-- Whether two values are equal: data by content, hashes whatever the order of their entries,
functions by identity. -/
def same : Value → Value → Bool
  | .null, .null => true
  | .int a, .int b => a == b
  | .bool a, .bool b => a == b
  | .str a, .str b => a == b
  | .array a, .array b => sameItems a b
  | .hash a, .hash b => a.length == b.length && sameEntries a b
  | .function a, .function b => a.id == b.id
  | .compiled a _, .compiled b _ => a == b
  | .closure a _ _, .closure b _ _ => a == b
  | .builtin a, .builtin b => a == b
  | _, _ => false

/-- Whether the lists have equal values at equal places. -/
def sameItems : List Value → List Value → Bool
  | [], [] => true
  | a :: as, b :: bs => a.same b && sameItems as bs
  | _, _ => false

/-- Whether every entry of the first list has an equal value under its key in the second. The value
of the first list is on the left, so that the recursion follows it. On the right it would give the
same, since equal values are equal either way round (`Value.Equal.symm`). -/
def sameEntries : List (Key × Value) → List (Key × Value) → Bool
  | [], _ => true
  | (key, value) :: rest, others =>
    match Entries.find? key others with
    | some other => value.same other && sameEntries rest others
    | none => false

end

instance : BEq Value := ⟨same⟩

end Value

end Simian
