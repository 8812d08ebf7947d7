import Simian.Source

/-!
# Tokens

A token pairs its kind with the text it stands for and its place. The kinds are
the keywords, operators and delimiters of the language, the three open classes of
names, integers and strings, and two marks: one for text that is no token, one
for the end.
-/
namespace Simian

namespace Token

inductive Kind where
  | ident | int | string
  | letWord | returnWord | fnWord | ifWord | elseWord | trueWord | falseWord
  | assign | plus | minus | star | slash | percent | bang
  | less | greater | lessEqual | greaterEqual | equalEqual | notEqual
  | andAnd | orOr | plusPlus | minusMinus
  | leftParen | rightParen | leftBracket | rightBracket | leftBrace | rightBrace
  | comma | semicolon | colon
  | illegal | eof
  deriving Repr, DecidableEq, Inhabited

namespace Kind

/-- The spelling of a fixed token, and the class name of any other. -/
def name : Kind → String
  | ident => "IDENT"
  | int => "INT"
  | string => "STRING"
  | letWord => "let"
  | returnWord => "return"
  | fnWord => "fn"
  | ifWord => "if"
  | elseWord => "else"
  | trueWord => "true"
  | falseWord => "false"
  | assign => "="
  | plus => "+"
  | minus => "-"
  | star => "*"
  | slash => "/"
  | percent => "%"
  | bang => "!"
  | less => "<"
  | greater => ">"
  | lessEqual => "<="
  | greaterEqual => ">="
  | equalEqual => "=="
  | notEqual => "!="
  | andAnd => "&&"
  | orOr => "||"
  | plusPlus => "++"
  | minusMinus => "--"
  | leftParen => "("
  | rightParen => ")"
  | leftBracket => "["
  | rightBracket => "]"
  | leftBrace => "\x7b"
  | rightBrace => "\x7d"
  | comma => ","
  | semicolon => ";"
  | colon => ":"
  | illegal => "ILLEGAL"
  | eof => "EOF"

/-- The kind of the keyword with this spelling, and `ident` for any other name. -/
def ofName (text : String) : Kind :=
  match text with
  | "let" => letWord
  | "return" => returnWord
  | "fn" => fnWord
  | "if" => ifWord
  | "else" => elseWord
  | "true" => trueWord
  | "false" => falseWord
  | _ => ident

end Kind

end Token

structure Token where
  kind : Token.Kind
  /-- The text of the token. For a string it is the text that the quotes enclose, escapes
  resolved. -/
  literal : String
  /-- Place of the first character. -/
  position : Position
  span : Span
  deriving Repr, DecidableEq, Inhabited

/-- What the characters of a source can do wrong. -/
inductive LexicalError where
  | unexpectedCharacter (c : Char)
  | unterminatedString
  deriving Repr, DecidableEq, Inhabited

end Simian
