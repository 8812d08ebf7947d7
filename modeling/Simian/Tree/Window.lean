import Simian.Attempt
import Simian.Journal
import Simian.Token.Lexer
import Simian.Tree.Precedence

/-!
# The parser's window on the tokens

A parser sees two tokens, the current one and the one to come. It can move on by
one token, insist on the kind of the token to come, and go one nesting level deeper
up to its limit. A reading rule keeps the state in which it stopped also when it
fails, so that parsing can go on from there.

The first fault that the lexer finds is raised by the move after it is found, at
the position of the rejected text.
-/
namespace Simian

/-- Why a parse stopped. -/
inductive ParseError.Cause where
  | unexpectedToken (expected found : Token.Kind)
  | noExpression (found : Token.Kind)
  | invalidInteger (literal : String)
  | unterminatedBlock
  | lexical (error : LexicalError)
  | nestingTooDeep (limit : Nat)
  | duplicateParameter (name : String)
  deriving Repr, DecidableEq, Inhabited

structure ParseError where
  cause : ParseError.Cause
  position : Position
  span : Span
  deriving Repr, DecidableEq, Inhabited

namespace ParseError

/-- Says which kind of token was expected and which one stands there. -/
def expectation (expected found : Token.Kind) : String :=
  "expected token type is " ++ Text.quoted expected.name ++ ", got " ++ Text.quoted found.name

def Cause.message : Cause → String
  | unexpectedToken expected found => expectation expected found
  | noExpression found => "can not parse token type " ++ Text.quoted found.name
  | invalidInteger literal => "invalid integer literal " ++ Text.quoted literal
  | unterminatedBlock => expectation .rightBrace .eof
  | lexical error => error.message
  | nestingTooDeep limit => s!"nesting too deep (limit {limit})"
  | duplicateParameter name => s!"duplicate parameter {name}"

/-- The error without its place. -/
def message (error : ParseError) : String := error.cause.message

/-- The error with its line and column. -/
def render (error : ParseError) : String := s!"{error.message} at {error.position.render}"

end ParseError

/-- The nesting limit of parser and compiler where none is given. -/
def defaultMaxDepth : Nat := 256

structure Parser where
  stream : TokenStream
  current : Token
  peek : Token
  /-- The first fault of the lexer that has not been raised yet. -/
  fault : Option (Position × LexicalError)
  /-- Nested expressions and blocks being read. -/
  depth : Nat
  maxDepth : Nat
  /-- Grammar rules being read, for the journal. -/
  indent : Nat
  /-- Tokens drawn from the stream. -/
  drawn : Nat
  journal : Journal
  deriving Inhabited

/-- A reading rule. It keeps the parser where it stopped, also when it fails. -/
abbrev Parse (α : Type) : Type := Attempt ParseError Parser α

namespace Parser

/-- Draws a token from the stream, noting what is wrong with it. -/
def draw (parser : Parser) : Token × Parser :=
  let (scanned, stream) := parser.stream.next
  let drawn := { parser with stream, drawn := parser.drawn + 1 }
  match scanned.fault with
  | none => (scanned.token, drawn)
  | some error =>
    let position := scanned.token.position
    (scanned.token,
      { drawn with
        fault := some (drawn.fault.getD (position, error))
        journal := drawn.journal.note .debug fun _ =>
          s!"lexical error at {position.render}: {error.message}" })

/-- Draws a token into the place of the one to come, which becomes the current one. -/
def shift (parser : Parser) : Parser :=
  let (token, parser) := parser.draw
  { parser with current := parser.peek, peek := token }

/-- A parser on the first two tokens of the stream. -/
def ofStream (stream : TokenStream) (maxDepth : Nat) (journal : Journal) : Parser :=
  shift (shift
    { stream, current := stream.endMark, peek := stream.endMark, fault := none, depth := 0,
      maxDepth, indent := 0, drawn := 0, journal })

def ofString (source : String) (maxDepth : Nat) (journal : Journal) : Parser :=
  ofStream (TokenStream.ofString source) maxDepth journal

/-- Bounds the rounds that any loop over the tokens can make: each takes one of the tokens still
to come, or the one to come, or the current one. -/
def roundsLeft (parser : Parser) : Nat := parser.stream.pending.length + 2

/-- Nesting levels below the limit. -/
def levelsLeft (parser : Parser) : Nat := parser.maxDepth - parser.depth

/-- Notes a line of the rule trace: the current position and the indented text. -/
def trace (parser : Parser) (text : String) : Parser :=
  { parser with
    journal := parser.journal.note .trace fun _ =>
      let position := parser.current.position
      let line := (toString position.line).toList
      let column := (toString position.column).toList
      String.ofList (List.replicate (5 - line.length) ' ' ++ line ++ ':' ::
        (List.replicate (3 - column.length) ' ' ++ column) ++ [':', ' '] ++
        List.replicate (2 * parser.indent) ' ') ++ text }

end Parser

namespace Parse

def get : Parse Parser := Attempt.get

def failAt (token : Token) (cause : ParseError.Cause) : Parse α :=
  Attempt.fail ⟨cause, token.position, token.span⟩

def failAtCurrent (cause : ParseError.Cause) : Parse α := fun parser =>
  failAt parser.current cause parser

/-- Raises the fault that the lexer found, if it has not been raised yet. -/
def raiseFault : Parse Unit := fun parser =>
  match parser.fault with
  | none => (.ok (), parser)
  | some (position, error) =>
    (.error ⟨.lexical error, position, parser.current.span⟩, { parser with fault := none })

/-- Moves on by one token. -/
def advance : Parse Unit := fun parser => raiseFault parser.shift

def current : Parse Token := fun parser => (.ok parser.current, parser)

def currentIs (kind : Token.Kind) : Parse Bool := fun parser =>
  (.ok (parser.current.kind == kind), parser)

def peekIs (kind : Token.Kind) : Parse Bool := fun parser =>
  (.ok (parser.peek.kind == kind), parser)

/-- Moves on if the token to come is of the kind, and fails at it otherwise. -/
def expectPeek (kind : Token.Kind) : Parse Unit := fun parser =>
  if parser.peek.kind == kind then advance parser
  else failAt parser.peek (.unexpectedToken kind parser.peek.kind) parser

def expectCurrent (kind : Token.Kind) : Parse Unit := fun parser =>
  if parser.current.kind == kind then (.ok (), parser)
  else failAtCurrent (.unexpectedToken kind parser.current.kind) parser

/-- Reads one nesting level deeper, if the limit allows. -/
def nested (body : Parse α) : Parse α := fun parser =>
  if parser.maxDepth ≤ parser.depth then failAtCurrent (.nestingTooDeep parser.maxDepth) parser
  else
    match body { parser with depth := parser.depth + 1 } with
    | (result, parser) => (result, { parser with depth := parser.depth - 1 })

/-- Reads by the grammar rule of this name, and traces where it begins and ends. -/
def rule (name : String) (body : Parse α) : Parse α := fun parser =>
  if parser.journal.admits .trace then
    let entered := parser.trace (name ++ " (")
    match body { entered with indent := entered.indent + 1 } with
    | (result, parser) =>
      (result, { parser with indent := parser.indent - 1 }.trace ")")
  else body parser

end Parse

end Simian
