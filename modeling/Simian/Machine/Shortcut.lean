import Simian.Value.Operation

/-!
# Shortcuts for integers

The handlers of the operators do not go through the shared operators if both values are
integers. They compute with machine words and check each result for overflow. All other
values take the long way.
-/
namespace Simian

namespace Integer

/-- The sum, unless it overflows. -/
def sum? (a b : Int64) : Option Int64 :=
  if a.toBitVec.saddOverflow b.toBitVec then none else some (a + b)

/-- The difference, unless it overflows. -/
def difference? (a b : Int64) : Option Int64 :=
  if a.toBitVec.ssubOverflow b.toBitVec then none else some (a - b)

/-- The product, unless it overflows. -/
def product? (a b : Int64) : Option Int64 :=
  if a.toBitVec.smulOverflow b.toBitVec then none else some (a * b)

/-- Whether the division has no quotient or one that overflows. -/
def divisionFails (a b : Int64) : Bool := b == 0 || (a == Int64.minValue && b == -1)

def quotient? (a b : Int64) : Option Int64 := if divisionFails a b then none else some (a / b)

def remainder? (a b : Int64) : Option Int64 := if divisionFails a b then none else some (a % b)

end Integer

namespace BinaryOp

/-- The word, or an overflow where there is none. -/
def checked (op : BinaryOp) (word : Option Int64) : Except OperationError Int64 :=
  match word with
  | some word => .ok word
  | none => .error (.integerOverflow op.spelling)

/-- Arithmetic on two machine words. -/
def onWords (op : BinaryOp) (a b : Int64) : Except OperationError Int64 :=
  match op with
  | .add => op.checked (Integer.sum? a b)
  | .sub => op.checked (Integer.difference? a b)
  | .mul => op.checked (Integer.product? a b)
  | .div => if b = 0 then .error .divisionByZero else op.checked (Integer.quotient? a b)
  | .mod => if b = 0 then .error .divisionByZero else op.checked (Integer.remainder? a b)
  | _ => .error (.unsupportedBinary op .integer .integer)

/-- Applies an operator of arithmetic. -/
def calculate (op : BinaryOp) (left right : Value) : Except OperationError Value :=
  match left, right with
  | .int a, .int b => (op.onWords a b).map .int
  | _, _ => op.apply left right

/-- Applies an operator that compares. -/
def relate (op : BinaryOp) (left right : Value) : Except OperationError Value :=
  match left, right with
  | .int a, .int b =>
    match op with
    | .eq => .ok (.bool (a == b))
    | .notEq => .ok (.bool (a != b))
    | .gt => .ok (.bool (decide (a > b)))
    | .gtEq => .ok (.bool (decide (a ≥ b)))
    | .lt => .ok (.bool (decide (a < b)))
    | .ltEq => .ok (.bool (decide (a ≤ b)))
    | _ => op.apply left right
  | _, _ => op.apply left right

end BinaryOp

end Simian
