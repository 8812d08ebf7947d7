import Simian.Text.Quoted
import Simian.Tree

/-!
# Trees as text

The text of a tree shows how operators group: every operator and every indexing
stands in parentheses. Statements of a program follow each other without a mark
between them, and only `let` and `return` end in a semicolon, so the text of a
tree is for people and is not always a program again.

The functions append to the text written so far, which keeps long trees linear.
-/
namespace Simian

/-- Appends the texts with a comma and a space between them. -/
def writeNames (out : String) : List String → String
  | [] => out
  | [name] => out ++ name
  | name :: rest => writeNames (out ++ name ++ ", ") rest

mutual

def Expr.write (out : String) : Expr → String
  | .ident name _ => out ++ name
  | .integer value _ => out ++ toString value.toInt
  | .boolean value _ => out ++ (if value then "true" else "false")
  | .string value _ => out ++ Text.quoted value
  | .unary op operand _ => (operand.write (out ++ "(" ++ op.spelling)).push ')'
  | .binary op left right _ =>
    (right.write (left.write (out.push '(') ++ " " ++ op.spelling ++ " ")).push ')'
  | .logical op left right _ =>
    (right.write (left.write (out.push '(') ++ " " ++ op.spelling ++ " ")).push ')'
  | .bump op operand _ => operand.write (out.push '(') ++ op.spelling ++ ")"
  | .ifThen condition thenBlock _ => thenBlock.write (condition.write (out ++ "if ") ++ " ")
  | .ifElse condition thenBlock elseBlock _ =>
    elseBlock.write (thenBlock.write (condition.write (out ++ "if ") ++ " ") ++ " else ")
  | .function name parameters body _ =>
    let head := match name with
      | some name => out ++ "fn " ++ name
      | none => out ++ "fn"
    body.write (writeNames (head ++ "(") parameters ++ ") ")
  | .array elements _ => (Expr.writeAll (out.push '[') elements).push ']'
  | .hash entries _ => (Expr.writeEntries (out.push '\x7b') entries).push '\x7d'
  | .call callee arguments _ => (Expr.writeAll ((callee.write out).push '(') arguments).push ')'
  | .index collection key _ => key.write ((collection.write (out.push '(')).push '[') ++ "])"

/-- Appends the expressions with a comma and a space between them. -/
def Expr.writeAll (out : String) : List Expr → String
  | [] => out
  | [item] => item.write out
  | item :: next :: rest => Expr.writeAll (item.write out ++ ", ") (next :: rest)

/-- Appends the keys and values with a comma and a space between the pairs. -/
def Expr.writeEntries (out : String) : List (Expr × Expr) → String
  | [] => out
  | [(key, value)] => value.write (key.write out ++ ": ")
  | (key, value) :: next :: rest =>
    Expr.writeEntries (value.write (key.write out ++ ": ") ++ ", ") (next :: rest)

def Stmt.write (out : String) : Stmt → String
  | .bind name value _ => (value.write (out ++ "let " ++ name ++ " = ")).push ';'
  | .ret value _ => (value.write (out ++ "return ")).push ';'
  | .retNull _ => out ++ "return;"
  | .expr value _ => value.write out

/-- Appends the statements, each after a space. -/
def Stmt.writeAll (out : String) : List Stmt → String
  | [] => out
  | stmt :: rest => Stmt.writeAll (stmt.write (out.push ' ')) rest

def Block.write (out : String) : Block → String
  | .mk statements _ => Stmt.writeAll (out.push '\x7b') statements ++ " \x7d"

end

def Expr.render (expr : Expr) : String := expr.write ""

def Stmt.render (stmt : Stmt) : String := stmt.write ""

def Block.render (block : Block) : String := block.write ""

def Program.render (program : Program) : String :=
  program.statements.foldl Stmt.write ""

end Simian
