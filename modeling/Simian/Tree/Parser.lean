import Simian.Tree.Numeral
import Simian.Tree.Window

/-!
# From tokens to trees

Expressions are read by binding strength: a token that can start an expression
gives the left operand, and the operators behind it are taken in as long as they
bind more tightly than the caller's. Every rule starts with the current token on
the first token of what it reads and stops with it on the last one.

The rules for the parts of an expression are given to its rule as a record, one
level further in. Reading is thus a recursion on the nesting levels left, and every
loop in a level is bounded by the tokens left. Neither bound is ever met: the depth
limit is reported one step before the levels run out, and each round of a loop
takes a token that is not the end mark.
-/
namespace Simian

open Parse

/-- How to read the expressions and blocks inside another one. -/
structure Nested where
  expression : Precedence → Parse Expr
  block : Parse Block

namespace Nested

/-- Parameter names after the first, the latest first. -/
def moreParameters (names : List String) : (rounds : Nat) → Parse (List String)
  | 0 => pure names
  | rounds + 1 => do
    if ← peekIs .comma then
      advance
      expectPeek .ident
      let name := (← current).literal
      if names.contains name then failAtCurrent (.duplicateParameter name)
      else moreParameters (name :: names) rounds
    else pure names

/-- Parameter names from the opening to the closing parenthesis. -/
def parameters (rounds : Nat) : Parse (List String) := do
  if ← peekIs .rightParen then
    advance
    pure []
  else
    expectPeek .ident
    let first := (← current).literal
    let names ← moreParameters [first] rounds
    expectPeek .rightParen
    pure names.reverse

/-- Expressions after the first of a list, the latest first. -/
def moreItems (inner : Nested) (items : List Expr) : (rounds : Nat) → Parse (List Expr)
  | 0 => pure items
  | rounds + 1 => do
    if ← peekIs .comma then
      advance
      advance
      let item ← inner.expression .lowest
      moreItems inner (item :: items) rounds
    else pure items

/-- Expressions between the current token and the closing one. -/
def items (inner : Nested) (rounds : Nat) (closing : Token.Kind) : Parse (List Expr) := do
  if ← peekIs closing then
    advance
    pure []
  else
    advance
    let first ← inner.expression .lowest
    let items ← moreItems inner [first] rounds
    expectPeek closing
    pure items.reverse

/-- A key, a colon and a value. -/
def entry (inner : Nested) : Parse (Expr × Expr) := do
  advance
  let key ← inner.expression .lowest
  expectPeek .colon
  advance
  let value ← inner.expression .lowest
  pure (key, value)

/-- Entries after the first of a hash, the latest first. -/
def moreEntries (inner : Nested) (entries : List (Expr × Expr)) :
    (rounds : Nat) → Parse (List (Expr × Expr))
  | 0 => pure entries
  | rounds + 1 => do
    if ← peekIs .comma then
      advance
      let next ← inner.entry
      moreEntries inner (next :: entries) rounds
    else pure entries

/-- The entries and the closing brace of a hash. -/
def hash (inner : Nested) (rounds : Nat) : Parse Expr := do
  let start := (← current).span
  let entries ← if ← peekIs .rightBrace then pure [] else do
    let first ← inner.entry
    moreEntries inner [first] rounds
  expectPeek .rightBrace
  pure (.hash entries.reverse (start.merge (← current).span))

/-- `if (condition) { ... } else { ... }`. -/
def conditional (inner : Nested) : Parse Expr := do
  let start := (← current).span
  expectPeek .leftParen
  advance
  let condition ← inner.expression .lowest
  expectPeek .rightParen
  expectPeek .leftBrace
  let thenBlock ← inner.block
  if ← peekIs .elseWord then
    advance
    expectPeek .leftBrace
    let elseBlock ← inner.block
    pure (.ifElse condition thenBlock elseBlock (start.merge (← current).span))
  else pure (.ifThen condition thenBlock (start.merge (← current).span))

/-- `fn name(a, b) { ... }`, with or without a name. -/
def function (inner : Nested) (rounds : Nat) : Parse Expr := do
  let start := (← current).span
  let name ← if ← peekIs .ident then do
      advance
      pure (some (← current).literal)
    else pure none
  expectPeek .leftParen
  let names ← rule "Parameters" (parameters rounds)
  expectPeek .leftBrace
  let body ← inner.block
  pure (.function name names body (start.merge (← current).span))

/-- An operator and its operand. -/
def unary (inner : Nested) (op : UnaryOp) : Parse Expr := do
  let start := (← current).span
  advance
  let operand ← inner.expression .unary
  pure (.unary op operand (start.merge operand.span))

/-- An expression in parentheses, which belong to its span. -/
def group (inner : Nested) : Parse Expr := do
  let start := (← current).span
  advance
  let expr ← inner.expression .lowest
  expectPeek .rightParen
  pure (expr.withSpan (start.merge (← current).span))

def array (inner : Nested) (rounds : Nat) : Parse Expr := do
  let start := (← current).span
  let elements ← inner.items rounds .rightBracket
  pure (.array elements (start.merge (← current).span))

/-- The expression that starts with the current token, without any operator behind it. -/
def operand (inner : Nested) (rounds : Nat) : Parse Expr := do
  let token ← current
  match token.kind with
  | .ident => pure (.ident token.literal token.span)
  | .int =>
    match Numeral.read? token.literal.toList with
    | some value => pure (.integer value token.span)
    | none => failAtCurrent (.invalidInteger token.literal)
  | .trueWord => pure (.boolean true token.span)
  | .falseWord => pure (.boolean false token.span)
  | .string => pure (.string token.literal token.span)
  | .minus => rule "Prefix" (inner.unary .negate)
  | .bang => rule "Prefix" (inner.unary .invert)
  | .leftParen => rule "GroupedExpression" inner.group
  | .ifWord => rule "IfExpression" inner.conditional
  | .fnWord => rule "Function" (inner.function rounds)
  | .leftBracket => rule "ArrayLiteral" (inner.array rounds)
  | .leftBrace => rule "HashLiteral" (inner.hash rounds)
  | kind => failAtCurrent (.noExpression kind)

/-- The right operand of the current operator, joined to the left one. -/
def joined (inner : Nested) (left : Expr) (join : Expr → Expr → Span → Expr) : Parse Expr := do
  let precedence := Precedence.ofKind (← current).kind
  advance
  let right ← inner.expression precedence
  pure (join left right (left.span.merge right.span))

def call (inner : Nested) (rounds : Nat) (callee : Expr) : Parse Expr := do
  let arguments ← inner.items rounds .rightParen
  pure (.call callee arguments (callee.span.merge (← current).span))

def index (inner : Nested) (collection : Expr) : Parse Expr := do
  advance
  let key ← inner.expression .lowest
  expectPeek .rightBracket
  pure (.index collection key (collection.span.merge (← current).span))

/-- Takes in the operator of this kind, which is the token to come, with `left` before it. The
result is `none` if the token is no operator. -/
def operator? (inner : Nested) (rounds : Nat) (left : Expr) (kind : Token.Kind) :
    Option (Parse Expr) :=
  match BumpOp.ofKind? kind, BinaryOp.ofKind? kind, LogicalOp.ofKind? kind with
  | some op, _, _ => some do
    advance
    pure (.bump op left (left.span.merge (← current).span))
  | _, some op, _ => some do
    advance
    rule "Infix" (inner.joined left (.binary op))
  | _, _, some op => some do
    advance
    rule "Infix" (inner.joined left (.logical op))
  | none, none, none =>
    match kind with
    | .leftParen => some do
      advance
      rule "CallExpression" (inner.call rounds left)
    | .leftBracket => some do
      advance
      rule "IndexExpression" (inner.index left)
    | _ => none

/-- Takes in the operators to come that bind more tightly than `precedence`. -/
def operators (inner : Nested) (budget : Nat) (precedence : Precedence) (left : Expr) :
    (rounds : Nat) → Parse Expr
  | 0 => pure left
  | rounds + 1 => do
    let kind := (← get).peek.kind
    if kind != .semicolon && precedence.weaker (Precedence.ofKind kind) then
      match inner.operator? budget left kind with
      | some step =>
        let left ← step
        operators inner budget precedence left rounds
      | none => pure left
    else pure left

/-- An expression whose operators bind more tightly than `precedence`. -/
def expressionRule (inner : Nested) (budget : Nat) (precedence : Precedence) : Parse Expr := do
  let left ← inner.operand budget
  inner.operators budget precedence left budget

/-- Takes the semicolon to come, if there is one. -/
def skipSemicolon : Parse Unit := do
  if ← peekIs .semicolon then advance else pure ()

/-- `let name = value;`. A function literal takes the name of its `let`. -/
def binding (inner : Nested) : Parse Stmt := do
  let start := (← current).span
  expectPeek .ident
  let name := (← current).literal
  expectPeek .assign
  advance
  let value ← inner.expression .lowest
  skipSemicolon
  pure (.bind name (value.named name) (start.merge value.span))

/-- `return value;`, or `return` before a semicolon, a closing brace or the end. -/
def giving (inner : Nested) : Parse Stmt := do
  let start := (← current).span
  let next := (← get).peek.kind
  if next == .semicolon || next == .rightBrace || next == .eof then
    skipSemicolon
    pure (.retNull start)
  else
    advance
    let value ← inner.expression .lowest
    skipSemicolon
    pure (.ret value (start.merge value.span))

def evaluation (inner : Nested) : Parse Stmt := do
  let value ← inner.expression .lowest
  skipSemicolon
  pure (.expr value value.span)

/-- One statement. -/
def statement (inner : Nested) : Parse Stmt :=
  rule "Statement" do
    match (← current).kind with
    | .letWord => rule "LetStatement" inner.binding
    | .returnWord => rule "ReturnStatement" inner.giving
    | _ => rule "ExpressionStatement" inner.evaluation

/-- Statements up to a closing brace or the end, the latest first. -/
def blockStatements (inner : Nested) (statements : List Stmt) : (rounds : Nat) → Parse (List Stmt)
  | 0 => pure statements
  | rounds + 1 => do
    match (← current).kind with
    | .rightBrace | .eof => pure statements
    | .semicolon =>
      advance
      blockStatements inner statements rounds
    | _ =>
      let stmt ← inner.statement
      advance
      blockStatements inner (stmt :: statements) rounds

/-- Statements between braces. -/
def blockRule (inner : Nested) (budget : Nat) : Parse Block := do
  let start := (← current).span
  expectCurrent .leftBrace
  advance
  let statements ← inner.blockStatements [] budget
  if ← currentIs .eof then failAtCurrent .unterminatedBlock
  else pure (.mk statements.reverse (start.merge (← current).span))

end Nested

mutual

/-- Reads an expression with this many nesting levels left. -/
def Parse.expressionAt (budget : Nat) : (levels : Nat) → Precedence → Parse Expr
  | 0, _ => fun parser => failAtCurrent (.nestingTooDeep parser.maxDepth) parser
  | levels + 1, precedence =>
    nested (rule "Expression"
      (Nested.expressionRule ⟨expressionAt budget levels, blockAt budget levels⟩ budget precedence))

/-- Reads a block with this many nesting levels left. -/
def Parse.blockAt (budget : Nat) : (levels : Nat) → Parse Block
  | 0 => fun parser => failAtCurrent (.nestingTooDeep parser.maxDepth) parser
  | levels + 1 =>
    nested (rule "BlockExpression"
      (Nested.blockRule ⟨expressionAt budget levels, blockAt budget levels⟩ budget))

end

namespace Parser

/-- The rules that `parser` has for what stands inside. -/
def nested (parser : Parser) : Nested :=
  ⟨Parse.expressionAt parser.roundsLeft parser.levelsLeft,
    Parse.blockAt parser.roundsLeft parser.levelsLeft⟩

/-- Reads the expression that starts with the current token. -/
def parseExpression (precedence : Precedence) : Parse Expr := fun parser =>
  parser.nested.expression precedence parser

/-- Reads the statement that starts with the current token. -/
def parseStatement : Parse Stmt := fun parser => parser.nested.statement parser

/-- Statements up to the end, the latest first. -/
def statements (inner : Nested) (read : List Stmt) : (rounds : Nat) → Parse (List Stmt)
  | 0 => pure read
  | rounds + 1 => do
    match (← Parse.current).kind with
    | .eof => pure read
    | .semicolon =>
      advance
      statements inner read rounds
    | _ =>
      let stmt ← inner.statement
      advance
      statements inner (stmt :: read) rounds

/-- Reads statements up to the end of the source. -/
def parseProgram : Parse Program := do
  raiseFault
  let parser ← get
  let read ← statements parser.nested [] parser.roundsLeft
  fun parser =>
    (.ok ⟨read.reverse⟩,
      { parser with
        journal := parser.journal.note .debug fun _ =>
          s!"parsed program with {read.length} statements" })

end Parser

/-- Reads a whole source. -/
def Program.parse (source : String) (maxDepth : Nat) (journal : Journal) :
    Except ParseError Program × Parser :=
  Parser.parseProgram (Parser.ofString source maxDepth journal)

end Simian
