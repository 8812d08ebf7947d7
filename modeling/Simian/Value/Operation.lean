import Simian.Text.Quoted
import Simian.Value
import Std.Data.ExtHashMap

/-!
# Operators on values

Integer arithmetic is exact or an error: a result that needs more than 64 bits is an
overflow, never a wrapped number. Division drops the fraction and the remainder has
the sign of the dividend. A remainder comes with its quotient, so it overflows where
the quotient does.
-/
namespace Simian

/-- Why an operator, an index or a built-in function gives no value. -/
inductive OperationError where
  | unsupportedBinary (op : BinaryOp) (left right : Value.Kind)
  | unsupportedUnary (op : UnaryOp) (operand : Value.Kind)
  | divisionByZero
  | integerOverflow (operator : String)
  | notIndexable (collection key : Value.Kind)
  | unhashable (key : Value.Kind)
  | builtinArity (builtin : Builtin) (got want : Nat)
  | builtinArgument (builtin : Builtin) (got : Value.Kind)
  | output (reason : String)
  deriving Repr, DecidableEq, Inhabited

def OperationError.message : OperationError → String
  | unsupportedBinary op left right =>
    s!"unsupported operand types for {op.spelling}: {left.name} and {right.name}"
  | unsupportedUnary op operand =>
    s!"unsupported operand type for {op.spelling}: {operand.name}"
  | divisionByZero => "division by zero"
  | integerOverflow operator => s!"integer overflow in {operator}"
  | notIndexable collection key =>
    s!"index operator not supported: {collection.name}[{key.name}]"
  | unhashable key => s!"unusable as hash key: {key.name}"
  | builtinArity builtin got want =>
    "wrong number of arguments to \x60" ++ builtin.name ++ s!"\x60: got {got}, want {want}"
  | builtinArgument builtin got =>
    "argument to \x60" ++ builtin.name ++ s!"\x60 not supported, got {got.name}"
  | output reason => s!"output error: {reason}"

namespace Integer

/-- The 64-bit integer with this value, if there is one. -/
def fit? (value : Int) : Option Int64 :=
  if Int64.minValue.toInt ≤ value ∧ value ≤ Int64.maxValue.toInt then some (Int64.ofInt value) else none

theorem toInt_of_fit? {value : Int} {word : Int64} (h : fit? value = some word) :
    word.toInt = value := by
  unfold fit? at h
  split at h
  · next hr =>
    cases h
    exact Int64.toInt_ofInt_of_le hr.1 (Int.lt_of_le_of_lt hr.2 (by decide))
  · cases h

theorem fit?_eq_none_iff {value : Int} :
    fit? value = none ↔ ¬(Int64.minValue.toInt ≤ value ∧ value ≤ Int64.maxValue.toInt) := by
  unfold fit?
  split <;> simp_all

end Integer

namespace BinaryOp

/-- What an operator that compares says of an ordering, and nothing for any other operator. -/
def ofOrdering? (op : BinaryOp) (ordering : Ordering) : Option Bool :=
  match op with
  | lt => some (ordering == .lt)
  | ltEq => some (ordering != .gt)
  | gt => some (ordering == .gt)
  | gtEq => some (ordering != .lt)
  | _ => none

/-- Applies an operator other than `==` and `!=` to two integers. -/
def onIntegers (op : BinaryOp) (a b : Int64) : Except OperationError Value :=
  let fitting (value : Int) : Except OperationError Value :=
    match Integer.fit? value with
    | some word => .ok (.int word)
    | none => .error (.integerOverflow op.spelling)
  match op with
  | .add => fitting (a.toInt + b.toInt)
  | .sub => fitting (a.toInt - b.toInt)
  | .mul => fitting (a.toInt * b.toInt)
  | .div =>
    if b = 0 then .error .divisionByZero else fitting (a.toInt.tdiv b.toInt)
  | .mod =>
    if b = 0 then .error .divisionByZero
    else match Integer.fit? (a.toInt.tdiv b.toInt) with
      | some _ => fitting (a.toInt.tmod b.toInt)
      | none => .error (.integerOverflow op.spelling)
  | _ =>
    match op.ofOrdering? (compare a.toInt b.toInt) with
    | some holds => .ok (.bool holds)
    | none => .error (.unsupportedBinary op .integer .integer)

/-- Applies an operator other than `==` and `!=` to two texts, which are ordered by code
points. -/
def onTexts (op : BinaryOp) (a b : String) : Except OperationError Value :=
  match op with
  | .add => .ok (.str (a ++ b))
  | _ =>
    match op.ofOrdering? (if a < b then .lt else if a = b then .eq else .gt) with
    | some holds => .ok (.bool holds)
    | none => .error (.unsupportedBinary op .string .string)

/-- Applies a strict operator. Equality holds or fails between any two values. -/
def apply (op : BinaryOp) (left right : Value) : Except OperationError Value :=
  match op with
  | .eq => .ok (.bool (left == right))
  | .notEq => .ok (.bool !(left == right))
  | _ =>
    match left, right with
    | .int a, .int b => op.onIntegers a b
    | .str a, .str b => op.onTexts a b
    | _, _ => .error (.unsupportedBinary op left.kind right.kind)

end BinaryOp

namespace Value

/-- `-value`. -/
def negate : Value → Except OperationError Value
  | .int value =>
    match Integer.fit? (-value.toInt) with
    | some word => .ok (.int word)
    | none => .error (.integerOverflow UnaryOp.negate.spelling)
  | other => .error (.unsupportedUnary .negate other.kind)

/-- `!value`. -/
def invert (value : Value) : Value := .bool !value.isTruthy

/-- The key that the value is in a hash. -/
def toKey (value : Value) : Except OperationError Key :=
  match value.key? with
  | some key => .ok key
  | none => .error (.unhashable value.kind)

/-- `collection[key]`, which is `null` where the collection has nothing. -/
def index (collection key : Value) : Except OperationError Value :=
  match collection, key with
  | .array items, .int i =>
    .ok (if 0 ≤ i.toInt then items.getD i.toInt.toNat .null else .null)
  | .hash entries, key => do
    let key ← key.toKey
    return (Entries.find? key entries).getD .null
  | _, _ => .error (.notIndexable collection.kind key.kind)

end Value

def UnaryOp.apply (op : UnaryOp) (operand : Value) : Except OperationError Value :=
  match op with
  | .negate => operand.negate
  | .invert => .ok operand.invert

/-! ### Building hashes -/

/-- The pairs of a hash taken in so far. -/
structure Gathered where
  /-- Distinct keys, the latest to appear first. -/
  keys : List Key
  /-- The latest value of each key. -/
  values : Std.ExtHashMap Key Value

namespace Gathered

def empty : Gathered := ⟨[], ∅⟩

def insert (gathered : Gathered) (key : Key) (value : Value) : Gathered :=
  ⟨if gathered.values.contains key then gathered.keys else key :: gathered.keys,
    gathered.values.insert key value⟩

/-- The entries in the order in which their keys first came. -/
def entries (gathered : Gathered) : List (Key × Value) :=
  gathered.keys.reverse.filterMap fun key => gathered.values[key]?.map fun value => (key, value)

/-- Takes in the pairs in turn, up to the first whose key cannot be one. -/
def insertAll (gathered : Gathered) : List (Value × Value) → Except OperationError Gathered
  | [] => .ok gathered
  | (key, value) :: rest =>
    match key.toKey with
    | .ok key => insertAll (gathered.insert key value) rest
    | .error error => .error error

end Gathered

/-- The hash of the pairs. Of two pairs with one key the later gives the value, and the earlier
its place. -/
def Value.ofPairs (pairs : List (Value × Value)) : Except OperationError Value :=
  match Gathered.empty.insertAll pairs with
  | .ok gathered => .ok (.hash gathered.entries)
  | .error error => .error error

end Simian
