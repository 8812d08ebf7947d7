import Simian.Token.Lexer
import Simian.Tree.Precedence

/-!
# Trees as words

A word is a token without its place. `Expr.Written` says which words a tree may be written
as: an operand that binds too weakly for where it stands is in parentheses, and any other
expression may be. `Spaced` says which texts the words may be written as. Spans play no
part here, and `Expr.bare` is what is left of a tree without them.
-/
namespace Simian

/-! ### Words -/

/-- A token without its place. -/
structure Word where
  kind : Token.Kind
  literal : String
  deriving Repr, DecidableEq

def Token.word (token : Token) : Word := ⟨token.kind, token.literal⟩

namespace Word

/-- The mark at the end. -/
def eof : Word := ⟨.eof, ""⟩

/-- A keyword, an operator or a delimiter. -/
def sign (kind : Token.Kind) : Word := ⟨kind, kind.name⟩

def name (text : String) : Word := ⟨.ident, text⟩

/-- A number in decimal digits. -/
def number (value : Nat) : Word := ⟨.int, Nat.repr value⟩

def string (text : String) : Word := ⟨.string, text⟩

/-- The characters that stand for `c` between quotes. -/
def guarded (c : Char) : List Char := if c = '"' ∨ c = '\\' then ['\\', c] else [c]

/-- How the word is spelled. -/
def text (word : Word) : List Char :=
  if word.kind = .string then '"' :: (word.literal.toList.flatMap guarded ++ ['"'])
  else word.literal.toList

/-- The words between two brackets. -/
def enclosed (opening closing : Token.Kind) (words : List Word) : List Word :=
  sign opening :: (words ++ [sign closing])

abbrev inParens (words : List Word) : List Word := enclosed .leftParen .rightParen words

abbrev inBraces (words : List Word) : List Word := enclosed .leftBrace .rightBrace words

abbrev inBrackets (words : List Word) : List Word := enclosed .leftBracket .rightBracket words

theorem enclosed_append (opening closing : Token.Kind) (words rest : List Word) :
    enclosed opening closing words ++ rest =
      sign opening :: (words ++ sign closing :: rest) := by
  rw [enclosed, List.cons_append, List.append_assoc]
  rfl

theorem length_enclosed (opening closing : Token.Kind) (words : List Word) :
    (enclosed opening closing words).length = words.length + 2 := by
  rw [enclosed, List.length_cons, List.length_append]
  rfl

/-- Names with a comma before each. -/
def moreNames (texts : List String) : List Word :=
  texts.flatMap fun text => [sign .comma, name text]

/-- Names with commas between them. -/
def names : List String → List Word
  | [] => []
  | first :: rest => name first :: moreNames rest

theorem length_le_names (texts : List String) : texts.length ≤ (names texts).length := by
  cases texts with
  | nil => exact Nat.le_refl _
  | cons first rest =>
    refine Nat.succ_le_succ ?_
    induction rest with
    | nil => exact Nat.zero_le _
    | cons next rest ih => exact Nat.le_succ_of_le (Nat.succ_le_succ ih)

end Word

/-- The text has the words in this order, with at least one space between any two. -/
inductive Spaced : List Word → List Char → Prop
  | nil (gap : Nat) : Spaced [] (List.replicate gap ' ')
  | cons {word : Word} {rest : List Word} {text : List Char} (gap : Nat) : Spaced rest text →
    (∀ c ∈ text.head?, c = ' ') → Spaced (word :: rest) (List.replicate gap ' ' ++ word.text ++ text)

/-! ### How tightly trees bind -/

/-- Whether the text is made of the characters of a name. -/
def Token.spellsName (text : String) : Bool :=
  match text.toList with
  | [] => false
  | c :: rest => isNameStart c && rest.all isNamePart

/-- Whether the text is a name, which no keyword is. -/
def Token.isName (text : String) : Bool := spellsName text && Kind.ofName text == .ident

def UnaryOp.kind : UnaryOp → Token.Kind
  | negate => .minus
  | invert => .bang

def BinaryOp.kind : BinaryOp → Token.Kind
  | add => .plus
  | sub => .minus
  | mul => .star
  | div => .slash
  | mod => .percent
  | eq => .equalEqual
  | notEq => .notEqual
  | lt => .less
  | ltEq => .lessEqual
  | gt => .greater
  | gtEq => .greaterEqual

def LogicalOp.kind : LogicalOp → Token.Kind
  | and => .andAnd
  | or => .orOr

def BumpOp.kind : BumpOp → Token.Kind
  | increment => .plusPlus
  | decrement => .minusMinus

/-- How tightly the expression holds together: an infix one as its operator does, one with an
operator in front more tightly, and all others most tightly. -/
def Expr.strength : Expr → Precedence
  | .binary op .. => .ofKind op.kind
  | .logical op .. => .ofKind op.kind
  | .unary .. => .unary
  | _ => .call

/-! ### What a tree may be written as -/

open Word

mutual

/-- The expression may be written as the words where it has to hold together as tightly as the
rank says. -/
inductive Expr.Written : (least : Nat) → Expr → List Word → Prop
  | plain {least : Nat} {expr : Expr} {words : List Word} : least ≤ expr.strength.rank →
    expr.Plain words → Expr.Written least expr words
  | group {least : Nat} {expr : Expr} {words : List Word} : expr.Written 0 words →
    Expr.Written least expr (inParens words)

/-- The expression may be written as the words without parentheses around it. -/
inductive Expr.Plain : Expr → List Word → Prop
  | ident {name : String} {span : Span} : Token.isName name = true →
    Expr.Plain (.ident name span) [.name name]
  | integer {value : Int64} {span : Span} : 0 ≤ value →
    Expr.Plain (.integer value span) [.number value.toNatClampNeg]
  | boolean {value : Bool} {span : Span} :
    Expr.Plain (.boolean value span) [.sign (if value then .trueWord else .falseWord)]
  | string {value : String} {span : Span} : Expr.Plain (.string value span) [.string value]
  | unary {op : UnaryOp} {operand : Expr} {span : Span} {words : List Word} :
    operand.Written Precedence.unary.rank words →
    Expr.Plain (.unary op operand span) (sign op.kind :: words)
  | binary {op : BinaryOp} {left right : Expr} {span : Span} {words more : List Word} :
    left.Written (Precedence.ofKind op.kind).rank words →
    right.Written ((Precedence.ofKind op.kind).rank + 1) more →
    Expr.Plain (.binary op left right span) (words ++ sign op.kind :: more)
  | logical {op : LogicalOp} {left right : Expr} {span : Span} {words more : List Word} :
    left.Written (Precedence.ofKind op.kind).rank words →
    right.Written ((Precedence.ofKind op.kind).rank + 1) more →
    Expr.Plain (.logical op left right span) (words ++ sign op.kind :: more)
  | bump {op : BumpOp} {operand : Expr} {span : Span} {words : List Word} :
    operand.Written (Precedence.unary.rank + 1) words →
    Expr.Plain (.bump op operand span) (words ++ [sign op.kind])
  | ifThen {condition : Expr} {statements : List Stmt} {inner span : Span}
    {words more : List Word} : condition.Written 0 words → StmtsWritten statements more →
    Expr.Plain (.ifThen condition (.mk statements inner) span)
      (sign .ifWord :: (inParens words ++ inBraces more))
  | ifElse {condition : Expr} {first second : List Stmt} {inner other span : Span}
    {words more last : List Word} : condition.Written 0 words → StmtsWritten first more →
    StmtsWritten second last →
    Expr.Plain (.ifElse condition (.mk first inner) (.mk second other) span)
      (sign .ifWord :: (inParens words ++ (inBraces more ++ sign .elseWord :: inBraces last)))
  | function {name : Option String} {parameters : List String} {statements : List Stmt}
    {inner span : Span} {words : List Word} : (∀ text ∈ name, Token.isName text = true) →
    (∀ parameter ∈ parameters, Token.isName parameter = true) → parameters.Nodup →
    StmtsWritten statements words →
    Expr.Plain (.function name parameters (.mk statements inner) span)
      (sign .fnWord :: (name.toList.map Word.name ++ (inParens (names parameters) ++ inBraces words)))
  | array {elements : List Expr} {span : Span} {words : List Word} :
    ItemsWritten elements words → Expr.Plain (.array elements span) (inBrackets words)
  | hash {entries : List (Expr × Expr)} {span : Span} {words : List Word} :
    EntriesWritten entries words → Expr.Plain (.hash entries span) (inBraces words)
  | call {callee : Expr} {arguments : List Expr} {span : Span} {words more : List Word} :
    callee.Written (Precedence.unary.rank + 1) words → ItemsWritten arguments more →
    Expr.Plain (.call callee arguments span) (words ++ inParens more)
  | index {collection key : Expr} {span : Span} {words more : List Word} :
    collection.Written (Precedence.unary.rank + 1) words → key.Written 0 more →
    Expr.Plain (.index collection key span) (words ++ inBrackets more)

/-- The expressions with commas between them. -/
inductive ItemsWritten : List Expr → List Word → Prop
  | none : ItemsWritten [] []
  | some {first : Expr} {rest : List Expr} {words more : List Word} : first.Written 0 words →
    MoreItemsWritten rest more → ItemsWritten (first :: rest) (words ++ more)

/-- The expressions with a comma before each. -/
inductive MoreItemsWritten : List Expr → List Word → Prop
  | nil : MoreItemsWritten [] []
  | cons {item : Expr} {rest : List Expr} {words more : List Word} : item.Written 0 words →
    MoreItemsWritten rest more →
    MoreItemsWritten (item :: rest) (sign .comma :: (words ++ more))

/-- The keys and values with commas between the pairs. -/
inductive EntriesWritten : List (Expr × Expr) → List Word → Prop
  | none : EntriesWritten [] []
  | some {key value : Expr} {rest : List (Expr × Expr)} {words more last : List Word} :
    key.Written 0 words → value.Written 0 more → MoreEntriesWritten rest last →
    EntriesWritten ((key, value) :: rest) (words ++ sign .colon :: (more ++ last))

/-- The keys and values with a comma before each pair. -/
inductive MoreEntriesWritten : List (Expr × Expr) → List Word → Prop
  | nil : MoreEntriesWritten [] []
  | cons {key value : Expr} {rest : List (Expr × Expr)} {words more last : List Word} :
    key.Written 0 words → value.Written 0 more → MoreEntriesWritten rest last →
    MoreEntriesWritten ((key, value) :: rest)
      (sign .comma :: (words ++ sign .colon :: (more ++ last)))

/-- The statement may be written as the words, the last of which is a semicolon. A function
literal that is the value of a `let` has its name. -/
inductive Stmt.Written : Stmt → List Word → Prop
  | bind {name : String} {value : Expr} {span : Span} {words : List Word} :
    Token.isName name = true → value.named name = value → value.Written 0 words →
    Stmt.Written (.bind name value span)
      (sign .letWord :: .name name :: sign .assign :: (words ++ [sign .semicolon]))
  | ret {value : Expr} {span : Span} {words : List Word} : value.Written 0 words →
    Stmt.Written (.ret value span) (sign .returnWord :: (words ++ [sign .semicolon]))
  | retNull {span : Span} : Stmt.Written (.retNull span) [sign .returnWord, sign .semicolon]
  | expr {value : Expr} {span : Span} {words : List Word} : value.Written 0 words →
    Stmt.Written (.expr value span) (words ++ [sign .semicolon])

inductive StmtsWritten : List Stmt → List Word → Prop
  | nil : StmtsWritten [] []
  | cons {stmt : Stmt} {rest : List Stmt} {words more : List Word} : stmt.Written words →
    StmtsWritten rest more → StmtsWritten (stmt :: rest) (words ++ more)

end

def Program.Written (tree : Program) (words : List Word) : Prop :=
  StmtsWritten tree.statements words

/-! ### Trees without spans -/

mutual

/-- The expression with nothing said of where it stands. -/
def Expr.bare : Expr → Expr
  | .ident name _ => .ident name .zero
  | .integer value _ => .integer value .zero
  | .boolean value _ => .boolean value .zero
  | .string value _ => .string value .zero
  | .unary op operand _ => .unary op operand.bare .zero
  | .binary op left right _ => .binary op left.bare right.bare .zero
  | .logical op left right _ => .logical op left.bare right.bare .zero
  | .bump op operand _ => .bump op operand.bare .zero
  | .ifThen condition thenBlock _ => .ifThen condition.bare thenBlock.bare .zero
  | .ifElse condition thenBlock elseBlock _ =>
    .ifElse condition.bare thenBlock.bare elseBlock.bare .zero
  | .function name parameters body _ => .function name parameters body.bare .zero
  | .array elements _ => .array (bareExprs elements) .zero
  | .hash entries _ => .hash (bareEntries entries) .zero
  | .call callee arguments _ => .call callee.bare (bareExprs arguments) .zero
  | .index collection key _ => .index collection.bare key.bare .zero

def bareExprs : List Expr → List Expr
  | [] => []
  | item :: rest => item.bare :: bareExprs rest

def bareEntries : List (Expr × Expr) → List (Expr × Expr)
  | [] => []
  | (key, value) :: rest => (key.bare, value.bare) :: bareEntries rest

def Stmt.bare : Stmt → Stmt
  | .bind name value _ => .bind name value.bare .zero
  | .ret value _ => .ret value.bare .zero
  | .retNull _ => .retNull .zero
  | .expr value _ => .expr value.bare .zero

def bareStmts : List Stmt → List Stmt
  | [] => []
  | stmt :: rest => stmt.bare :: bareStmts rest

def Block.bare : Block → Block
  | .mk statements _ => .mk (bareStmts statements) .zero

end

def Program.bare (tree : Program) : Program := ⟨bareStmts tree.statements⟩

theorem bareExprs_eq_map (items : List Expr) : bareExprs items = items.map Expr.bare := by
  induction items with
  | nil => rfl
  | cons item rest ih => exact congrArg (item.bare :: ·) ih

theorem bareEntries_eq_map (entries : List (Expr × Expr)) :
    bareEntries entries = entries.map fun (key, value) => (key.bare, value.bare) := by
  induction entries with
  | nil => rfl
  | cons entry rest ih => exact congrArg ((entry.1.bare, entry.2.bare) :: ·) ih

theorem bareStmts_eq_map (statements : List Stmt) :
    bareStmts statements = statements.map Stmt.bare := by
  induction statements with
  | nil => rfl
  | cons stmt rest ih => exact congrArg (stmt.bare :: ·) ih

theorem Expr.bare_withSpan (expr : Expr) (span : Span) : (expr.withSpan span).bare = expr.bare := by
  cases expr <;> simp only [withSpan, bare]

theorem Expr.bare_named (name : String) (expr : Expr) :
    (expr.named name).bare = expr.bare.named name := by
  cases expr <;> simp only [named, bare]

end Simian
