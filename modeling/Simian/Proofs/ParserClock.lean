import Simian.Tree.Parser

/-!
# Parsing by the clock

A timed parse reads by the same rules as the parser, and nothing in it but a clock bounds how often
its loops go round or how deep its rules go into one another: when the clock runs out, it has no
result. It notes every token that it moves on by and, each time that it goes one level deeper, how
many nested rules it is in then. It counts these itself and not by the parser's own counter.
-/
namespace Simian

/-- What a timed parse notes. -/
inductive Timed.Event where
  /-- It has moved on by one token. -/
  | advance
  /-- It has gone into a nested rule and is in this many. -/
  | hold (rules : Nat)
  deriving DecidableEq

/-- Reading inside so many nested rules, which has no result if its clock runs out. -/
def Timed (α : Type) : Type :=
  (held : Nat) → Parser → Option ((Except ParseError α × Parser) × List Timed.Event)

namespace Timed

variable {α β : Type}

protected def pure (value : α) : Timed α := fun _ parser => some ((.ok value, parser), [])

protected def bind (first : Timed α) (next : α → Timed β) : Timed β := fun held parser =>
  match first held parser with
  | none => none
  | some ((.ok value, between), events) =>
    match next value held between with
    | none => none
    | some (outcome, more) => some (outcome, events ++ more)
  | some ((.error error, after), events) => some ((.error error, after), events)

instance : Monad Timed where
  pure := Timed.pure
  bind := Timed.bind

/-- The clock has run out. -/
def stop : Timed α := fun _ _ => none

/-- A step in which no token is taken and no rule is gone into. -/
def ofParse (step : Parse α) : Timed α := fun _ parser => some (step parser, [])

def get : Timed Parser := ofParse Parse.get

def current : Timed Token := ofParse Parse.current

def currentIs (kind : Token.Kind) : Timed Bool := ofParse (Parse.currentIs kind)

def peekIs (kind : Token.Kind) : Timed Bool := ofParse (Parse.peekIs kind)

def failAtCurrent (cause : ParseError.Cause) : Timed α := ofParse (Parse.failAtCurrent cause)

def expectCurrent (kind : Token.Kind) : Timed Unit := ofParse (Parse.expectCurrent kind)

/-- Moves on by one token. -/
def advance : Timed Unit := fun _ parser => some (Parse.advance parser, [.advance])

/-- Moves on if the token to come is of the kind, and fails at it otherwise. -/
def expectPeek (kind : Token.Kind) : Timed Unit := fun held parser =>
  if parser.peek.kind == kind then advance held parser
  else ofParse (Parse.failAt parser.peek (.unexpectedToken kind parser.peek.kind)) held parser

/-- Reads one nesting level deeper, if the limit allows. -/
def nested (body : Timed α) : Timed α := fun held parser =>
  if parser.maxDepth ≤ parser.depth then
    failAtCurrent (.nestingTooDeep parser.maxDepth) held parser
  else
    (body (held + 1) { parser with depth := parser.depth + 1 }).map
      fun ((result, parser), events) =>
        ((result, { parser with depth := parser.depth - 1 }), .hold (held + 1) :: events)

/-- Reads by the grammar rule of this name, and traces where it begins and ends. -/
def rule (name : String) (body : Timed α) : Timed α := fun held parser =>
  if parser.journal.admits .trace then
    let entered := parser.trace (name ++ " (")
    (body held { entered with indent := entered.indent + 1 }).map
      fun ((result, parser), events) =>
        ((result, { parser with indent := parser.indent - 1 }.trace ")"), events)
  else body held parser

/-- How to read the expressions and blocks inside another one. -/
structure Inner where
  expression : Precedence → Timed Expr
  block : Timed Block

namespace Inner

/-! ### Parts of expressions -/

/-- Parameter names after the first, the latest first. -/
def moreParameters (names : List String) : (rounds : Nat) → Timed (List String)
  | 0 => stop
  | rounds + 1 => do
    if ← peekIs .comma then
      advance
      expectPeek .ident
      let name := (← current).literal
      if names.contains name then failAtCurrent (.duplicateParameter name)
      else moreParameters (name :: names) rounds
    else pure names

/-- Parameter names from the opening to the closing parenthesis. -/
def parameters (rounds : Nat) : Timed (List String) := do
  if ← peekIs .rightParen then
    advance
    pure []
  else
    expectPeek .ident
    let first := (← current).literal
    let names ← moreParameters [first] rounds
    expectPeek .rightParen
    pure names.reverse

/-- Expressions after the first of a list, the latest first. -/
def moreItems (inner : Inner) (items : List Expr) : (rounds : Nat) → Timed (List Expr)
  | 0 => stop
  | rounds + 1 => do
    if ← peekIs .comma then
      advance
      advance
      let item ← inner.expression .lowest
      moreItems inner (item :: items) rounds
    else pure items

/-- Expressions between the current token and the closing one. -/
def items (inner : Inner) (rounds : Nat) (closing : Token.Kind) : Timed (List Expr) := do
  if ← peekIs closing then
    advance
    pure []
  else
    advance
    let first ← inner.expression .lowest
    let items ← moreItems inner [first] rounds
    expectPeek closing
    pure items.reverse

/-- A key, a colon and a value. -/
def entry (inner : Inner) : Timed (Expr × Expr) := do
  advance
  let key ← inner.expression .lowest
  expectPeek .colon
  advance
  let value ← inner.expression .lowest
  pure (key, value)

/-- Entries after the first of a hash, the latest first. -/
def moreEntries (inner : Inner) (entries : List (Expr × Expr)) :
    (rounds : Nat) → Timed (List (Expr × Expr))
  | 0 => stop
  | rounds + 1 => do
    if ← peekIs .comma then
      advance
      let next ← inner.entry
      moreEntries inner (next :: entries) rounds
    else pure entries

/-- The entries and the closing brace of a hash. -/
def hash (inner : Inner) (rounds : Nat) : Timed Expr := do
  let start := (← current).span
  let entries ← if ← peekIs .rightBrace then pure [] else do
    let first ← inner.entry
    moreEntries inner [first] rounds
  expectPeek .rightBrace
  pure (.hash entries.reverse (start.merge (← current).span))

/-- `if (condition) { ... } else { ... }`. -/
def conditional (inner : Inner) : Timed Expr := do
  let start := (← current).span
  expectPeek .leftParen
  advance
  let condition ← inner.expression .lowest
  expectPeek .rightParen
  expectPeek .leftBrace
  let thenBlock ← inner.block
  if ← peekIs .elseWord then
    advance
    expectPeek .leftBrace
    let elseBlock ← inner.block
    pure (.ifElse condition thenBlock elseBlock (start.merge (← current).span))
  else pure (.ifThen condition thenBlock (start.merge (← current).span))

/-- `fn name(a, b) { ... }`, with or without a name. -/
def function (inner : Inner) (rounds : Nat) : Timed Expr := do
  let start := (← current).span
  let name ← if ← peekIs .ident then do
      advance
      pure (some (← current).literal)
    else pure none
  expectPeek .leftParen
  let names ← rule "Parameters" (parameters rounds)
  expectPeek .leftBrace
  let body ← inner.block
  pure (.function name names body (start.merge (← current).span))

/-- An operator and its operand. -/
def unary (inner : Inner) (op : UnaryOp) : Timed Expr := do
  let start := (← current).span
  advance
  let operand ← inner.expression .unary
  pure (.unary op operand (start.merge operand.span))

/-- An expression in parentheses, which belong to its span. -/
def group (inner : Inner) : Timed Expr := do
  let start := (← current).span
  advance
  let expr ← inner.expression .lowest
  expectPeek .rightParen
  pure (expr.withSpan (start.merge (← current).span))

def array (inner : Inner) (rounds : Nat) : Timed Expr := do
  let start := (← current).span
  let elements ← inner.items rounds .rightBracket
  pure (.array elements (start.merge (← current).span))

/-! ### Expressions -/

/-- The expression that starts with the current token, without any operator behind it. -/
def operand (inner : Inner) (rounds : Nat) : Timed Expr := do
  let token ← current
  match token.kind with
  | .ident => pure (.ident token.literal token.span)
  | .int =>
    match Numeral.read? token.literal.toList with
    | some value => pure (.integer value token.span)
    | none => failAtCurrent (.invalidInteger token.literal)
  | .trueWord => pure (.boolean true token.span)
  | .falseWord => pure (.boolean false token.span)
  | .string => pure (.string token.literal token.span)
  | .minus => rule "Prefix" (inner.unary .negate)
  | .bang => rule "Prefix" (inner.unary .invert)
  | .leftParen => rule "GroupedExpression" inner.group
  | .ifWord => rule "IfExpression" inner.conditional
  | .fnWord => rule "Function" (inner.function rounds)
  | .leftBracket => rule "ArrayLiteral" (inner.array rounds)
  | .leftBrace => rule "HashLiteral" (inner.hash rounds)
  | kind => failAtCurrent (.noExpression kind)

/-- The right operand of the current operator, joined to the left one. -/
def joined (inner : Inner) (left : Expr) (join : Expr → Expr → Span → Expr) : Timed Expr := do
  let precedence := Precedence.ofKind (← current).kind
  advance
  let right ← inner.expression precedence
  pure (join left right (left.span.merge right.span))

def call (inner : Inner) (rounds : Nat) (callee : Expr) : Timed Expr := do
  let arguments ← inner.items rounds .rightParen
  pure (.call callee arguments (callee.span.merge (← current).span))

def index (inner : Inner) (collection : Expr) : Timed Expr := do
  advance
  let key ← inner.expression .lowest
  expectPeek .rightBracket
  pure (.index collection key (collection.span.merge (← current).span))

/-- Takes in the operator of this kind, which is the token to come, with `left` before it. The
result is `none` if the token is no operator. -/
def operator? (inner : Inner) (rounds : Nat) (left : Expr) (kind : Token.Kind) :
    Option (Timed Expr) :=
  match BumpOp.ofKind? kind, BinaryOp.ofKind? kind, LogicalOp.ofKind? kind with
  | some op, _, _ => some do
    advance
    pure (.bump op left (left.span.merge (← current).span))
  | _, some op, _ => some do
    advance
    rule "Infix" (inner.joined left (.binary op))
  | _, _, some op => some do
    advance
    rule "Infix" (inner.joined left (.logical op))
  | none, none, none =>
    match kind with
    | .leftParen => some do
      advance
      rule "CallExpression" (inner.call rounds left)
    | .leftBracket => some do
      advance
      rule "IndexExpression" (inner.index left)
    | _ => none

/-- Takes in the operators to come that bind more tightly than `precedence`. -/
def operators (inner : Inner) (clock : Nat) (precedence : Precedence) (left : Expr) :
    (rounds : Nat) → Timed Expr
  | 0 => stop
  | rounds + 1 => do
    let kind := (← get).peek.kind
    if kind != .semicolon && precedence.weaker (Precedence.ofKind kind) then
      match inner.operator? clock left kind with
      | some step =>
        let left ← step
        operators inner clock precedence left rounds
      | none => pure left
    else pure left

/-- An expression whose operators bind more tightly than `precedence`. -/
def expressionRule (inner : Inner) (clock : Nat) (precedence : Precedence) : Timed Expr := do
  let left ← inner.operand clock
  inner.operators clock precedence left clock

/-! ### Statements -/

/-- Takes the semicolon to come, if there is one. -/
def skipSemicolon : Timed Unit := do
  if ← peekIs .semicolon then advance else pure ()

/-- `let name = value;`. A function literal takes the name of its `let`. -/
def binding (inner : Inner) : Timed Stmt := do
  let start := (← current).span
  expectPeek .ident
  let name := (← current).literal
  expectPeek .assign
  advance
  let value ← inner.expression .lowest
  skipSemicolon
  pure (.bind name (value.named name) (start.merge value.span))

/-- `return value;`, or `return` before a semicolon, a closing brace or the end. -/
def giving (inner : Inner) : Timed Stmt := do
  let start := (← current).span
  let next := (← get).peek.kind
  if next == .semicolon || next == .rightBrace || next == .eof then
    skipSemicolon
    pure (.retNull start)
  else
    advance
    let value ← inner.expression .lowest
    skipSemicolon
    pure (.ret value (start.merge value.span))

def evaluation (inner : Inner) : Timed Stmt := do
  let value ← inner.expression .lowest
  skipSemicolon
  pure (.expr value value.span)

/-- One statement. -/
def statement (inner : Inner) : Timed Stmt :=
  rule "Statement" do
    match (← current).kind with
    | .letWord => rule "LetStatement" inner.binding
    | .returnWord => rule "ReturnStatement" inner.giving
    | _ => rule "ExpressionStatement" inner.evaluation

/-- Statements up to a closing brace or the end, the latest first. -/
def blockStatements (inner : Inner) (statements : List Stmt) : (rounds : Nat) → Timed (List Stmt)
  | 0 => stop
  | rounds + 1 => do
    match (← current).kind with
    | .rightBrace | .eof => pure statements
    | .semicolon =>
      advance
      blockStatements inner statements rounds
    | _ =>
      let stmt ← inner.statement
      advance
      blockStatements inner (stmt :: statements) rounds

/-- Statements between braces. -/
def blockRule (inner : Inner) (clock : Nat) : Timed Block := do
  let start := (← current).span
  expectCurrent .leftBrace
  advance
  let statements ← inner.blockStatements [] clock
  if ← currentIs .eof then failAtCurrent .unterminatedBlock
  else pure (.mk statements.reverse (start.merge (← current).span))

/-- Statements up to the end of a source, the latest first. -/
def statements (inner : Inner) (read : List Stmt) : (rounds : Nat) → Timed (List Stmt)
  | 0 => stop
  | rounds + 1 => do
    match (← current).kind with
    | .eof => pure read
    | .semicolon =>
      advance
      statements inner read rounds
    | _ =>
      let stmt ← inner.statement
      advance
      statements inner (stmt :: read) rounds

end Inner

/-! ### Whole calls of the parser -/

mutual

/-- Reads an expression. -/
def expressionAt : (clock : Nat) → Precedence → Timed Expr
  | 0, _ => stop
  | clock + 1, precedence =>
    nested (rule "Expression"
      (Inner.expressionRule ⟨expressionAt clock, blockAt clock⟩ clock precedence))

/-- Reads a block. -/
def blockAt : (clock : Nat) → Timed Block
  | 0 => stop
  | clock + 1 =>
    nested (rule "BlockExpression" (Inner.blockRule ⟨expressionAt clock, blockAt clock⟩ clock))

end

/-- The rules by this clock for what stands inside. -/
def inner (clock : Nat) : Inner := ⟨expressionAt clock, blockAt clock⟩

/-- Reads the expression that starts with the current token. -/
def parseExpression (precedence : Precedence) (clock : Nat) : Timed Expr :=
  (inner clock).expression precedence

/-- Reads the statement that starts with the current token. -/
def parseStatement (clock : Nat) : Timed Stmt := (inner clock).statement

/-- Reads statements up to the end of the source. -/
def parseProgram (clock : Nat) : Timed Program := do
  ofParse Parse.raiseFault
  let read ← (inner clock).statements [] clock
  ofParse fun parser =>
    (.ok ⟨read.reverse⟩,
      { parser with
        journal := parser.journal.note .debug fun _ =>
          s!"parsed program with {read.length} statements" })

end Timed

end Simian
