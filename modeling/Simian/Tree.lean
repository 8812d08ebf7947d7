import Simian.Source
import Std.Data.ExtHashMap

/-!
# Programs as trees

A program is a list of statements, and every node knows the span of the source it
was read from. Integers are 64 bits wide. Two kinds of operator take two operands:
the strict ones work on the values of both, and the logical ones may leave the
right operand alone.
-/
namespace Simian

/-- Names are keys of hash maps. -/
instance stringEquivBEq : EquivBEq String := inferInstance

instance stringLawfulHashable : LawfulHashable String := inferInstance

/-- Operators in front of their operand. -/
inductive UnaryOp where
  | negate | invert
  deriving Repr, DecidableEq, Inhabited

/-- Operators on the values of two operands. -/
inductive BinaryOp where
  | add | sub | mul | div | mod
  | eq | notEq | lt | ltEq | gt | gtEq
  deriving Repr, DecidableEq, Inhabited

/-- Operators that look at the right operand only if the left one does not decide. -/
inductive LogicalOp where
  | and | or
  deriving Repr, DecidableEq, Inhabited

/-- Operators behind their operand. There is no assignment, so `x++` is the value `x + 1`. -/
inductive BumpOp where
  | increment | decrement
  deriving Repr, DecidableEq, Inhabited

def UnaryOp.spelling : UnaryOp → String
  | negate => "-"
  | invert => "!"

def BinaryOp.spelling : BinaryOp → String
  | add => "+"
  | sub => "-"
  | mul => "*"
  | div => "/"
  | mod => "%"
  | eq => "=="
  | notEq => "!="
  | lt => "<"
  | ltEq => "<="
  | gt => ">"
  | gtEq => ">="

def LogicalOp.spelling : LogicalOp → String
  | and => "&&"
  | or => "||"

def BumpOp.spelling : BumpOp → String
  | increment => "++"
  | decrement => "--"

/-- The binary operator that adds to or takes from the operand. -/
def BumpOp.binary : BumpOp → BinaryOp
  | increment => .add
  | decrement => .sub

mutual

inductive Expr where
  | ident (name : String) (span : Span)
  | integer (value : Int64) (span : Span)
  | boolean (value : Bool) (span : Span)
  | string (value : String) (span : Span)
  | unary (op : UnaryOp) (operand : Expr) (span : Span)
  | binary (op : BinaryOp) (left right : Expr) (span : Span)
  | logical (op : LogicalOp) (left right : Expr) (span : Span)
  | bump (op : BumpOp) (operand : Expr) (span : Span)
  | ifThen (condition : Expr) (thenBlock : Block) (span : Span)
  | ifElse (condition : Expr) (thenBlock elseBlock : Block) (span : Span)
  | function (name : Option String) (parameters : List String) (body : Block) (span : Span)
  | array (elements : List Expr) (span : Span)
  | hash (entries : List (Expr × Expr)) (span : Span)
  | call (callee : Expr) (arguments : List Expr) (span : Span)
  | index (collection key : Expr) (span : Span)

inductive Stmt where
  | bind (name : String) (value : Expr) (span : Span)
  | ret (value : Expr) (span : Span)
  | retNull (span : Span)
  | expr (value : Expr) (span : Span)

/-- Statements between braces. The value of a block is the value of its last statement. -/
inductive Block where
  | mk (statements : List Stmt) (span : Span)

end

/-- One unit of source: a file, or a line at the prompt. -/
structure Program where
  statements : List Stmt

instance : Inhabited Expr := ⟨.boolean false .zero⟩
instance : Inhabited Stmt := ⟨.retNull .zero⟩
instance : Inhabited Block := ⟨.mk [] .zero⟩
instance : Inhabited Program := ⟨⟨[]⟩⟩

namespace Block

def statements : Block → List Stmt
  | mk statements _ => statements

def span : Block → Span
  | mk _ span => span

end Block

namespace Expr

def span : Expr → Span
  | ident _ span | integer _ span | boolean _ span | string _ span => span
  | unary _ _ span | binary _ _ _ span | logical _ _ _ span | bump _ _ span => span
  | ifThen _ _ span | ifElse _ _ _ span | function _ _ _ span => span
  | array _ span | hash _ span | call _ _ span | index _ _ span => span

/-- The same expression, said to stand at `span`. -/
def withSpan (expr : Expr) (span : Span) : Expr :=
  match expr with
  | ident name _ => ident name span
  | integer value _ => integer value span
  | boolean value _ => boolean value span
  | string value _ => string value span
  | unary op operand _ => unary op operand span
  | binary op left right _ => binary op left right span
  | logical op left right _ => logical op left right span
  | bump op operand _ => bump op operand span
  | ifThen condition thenBlock _ => ifThen condition thenBlock span
  | ifElse condition thenBlock elseBlock _ => ifElse condition thenBlock elseBlock span
  | function name parameters body _ => function name parameters body span
  | array elements _ => array elements span
  | hash entries _ => hash entries span
  | call callee arguments _ => call callee arguments span
  | index collection key _ => index collection key span

/-- A function literal with the given name, and any other expression unchanged. -/
def named (name : String) : Expr → Expr
  | function _ parameters body span => function (some name) parameters body span
  | other => other

@[simp] theorem span_withSpan (expr : Expr) (span : Span) : (expr.withSpan span).span = span := by
  cases expr <;> rfl

end Expr

def Stmt.span : Stmt → Span
  | bind _ _ span | ret _ span | retNull span | expr _ span => span

end Simian
