import Simian.Token
import Simian.Tree

/-!
# How tightly operators bind

The tables by which the parser reads operators: which tokens stand in front of an
operand, between two and behind one, and how tightly each binds. A token that is no
operator binds loosest of all, so no operand is ever read past it.
-/
namespace Simian

/-- Binding strengths, the weakest first. -/
inductive Precedence where
  | lowest | logicalOr | logicalAnd | equals | lessGreater | sum | product | unary | bump | call
  deriving Repr, DecidableEq, Inhabited

namespace Precedence

def rank : Precedence → Nat
  | lowest => 0
  | logicalOr => 1
  | logicalAnd => 2
  | equals => 3
  | lessGreater => 4
  | sum => 5
  | product => 6
  | unary => 7
  | bump => 8
  | call => 9

/-- Whether `a` binds more weakly than `b`. -/
def weaker (a b : Precedence) : Bool := a.rank < b.rank

/-- The strength of a token that stands after an operand. -/
def ofKind : Token.Kind → Precedence
  | .orOr => logicalOr
  | .andAnd => logicalAnd
  | .equalEqual | .notEqual => equals
  | .less | .greater | .lessEqual | .greaterEqual => lessGreater
  | .plus | .minus => sum
  | .star | .slash | .percent => product
  | .plusPlus | .minusMinus => bump
  | .leftParen | .leftBracket => call
  | _ => lowest

theorem rank_injective {a b : Precedence} (h : a.rank = b.rank) : a = b := by
  cases a <;> cases b <;> simp [rank] at h ⊢

end Precedence

/-- The strict operator with this token between its operands. -/
def BinaryOp.ofKind? : Token.Kind → Option BinaryOp
  | .plus => some .add
  | .minus => some .sub
  | .star => some .mul
  | .slash => some .div
  | .percent => some .mod
  | .equalEqual => some .eq
  | .notEqual => some .notEq
  | .less => some .lt
  | .lessEqual => some .ltEq
  | .greater => some .gt
  | .greaterEqual => some .gtEq
  | _ => none

/-- The logical operator with this token between its operands. -/
def LogicalOp.ofKind? : Token.Kind → Option LogicalOp
  | .andAnd => some .and
  | .orOr => some .or
  | _ => none

/-- The operator with this token behind its operand. -/
def BumpOp.ofKind? : Token.Kind → Option BumpOp
  | .plusPlus => some .increment
  | .minusMinus => some .decrement
  | _ => none

end Simian
