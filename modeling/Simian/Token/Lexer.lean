import Simian.Source.Cursor
import Simian.Text.Alphabetic
import Simian.Text.Blank
import Simian.Text.Numeric
import Simian.Text.Quoted
import Simian.Token

/-!
# From characters to tokens

`Token.scan` reads one token and never fails: text that is no token gives an
illegal token together with what is wrong with it. `TokenStream.ofString` reads a
whole source. It ends at the first end mark, which `scan` gives exactly when
nothing but blanks and comments is left, and it ends at all because every other
token takes at least one character.
-/
namespace Simian

namespace LexicalError

def message : LexicalError → String
  | unexpectedCharacter c => "unexpected character " ++ Text.quotedChar c
  | unterminatedString => "unterminated string literal"

end LexicalError

namespace Token

/-- Whether a name can start with the character. -/
def isNameStart (c : Char) : Bool := Text.isAlphabetic c || c == '_'

/-- Whether a name can go on with the character. -/
def isNamePart (c : Char) : Bool := Text.isAlphabetic c || Text.isNumeric c || c == '_'

/-- Whether a number can go on with the character. Letters belong to it, so that `12ab` is one
malformed number and not a number before a name. -/
def isNumberPart (c : Char) : Bool := c.isAlphanum || c == '_'

/-- The operator or delimiter that starts with `c` before the character `next`, and whether
`next` belongs to it. -/
def symbol? (c next : Char) : Option (Kind × Bool) :=
  match c with
  | '=' => some (if next = '=' then (.equalEqual, true) else (.assign, false))
  | '!' => some (if next = '=' then (.notEqual, true) else (.bang, false))
  | '<' => some (if next = '=' then (.lessEqual, true) else (.less, false))
  | '>' => some (if next = '=' then (.greaterEqual, true) else (.greater, false))
  | '+' => some (if next = '+' then (.plusPlus, true) else (.plus, false))
  | '-' => some (if next = '-' then (.minusMinus, true) else (.minus, false))
  | '&' => if next = '&' then some (.andAnd, true) else none
  | '|' => if next = '|' then some (.orOr, true) else none
  | '*' => some (.star, false)
  | '/' => some (.slash, false)
  | '%' => some (.percent, false)
  | '(' => some (.leftParen, false)
  | ')' => some (.rightParen, false)
  | '[' => some (.leftBracket, false)
  | ']' => some (.rightBracket, false)
  | '{' => some (.leftBrace, false)
  | '}' => some (.rightBrace, false)
  | ',' => some (.comma, false)
  | ';' => some (.semicolon, false)
  | ':' => some (.colon, false)
  | _ => none

/-- The characters that a backslash and `c` stand for in a string. -/
def unescape (c : Char) : List Char :=
  match c with
  | 'n' => ['\n']
  | 't' => ['\t']
  | 'r' => ['\r']
  | '0' => ['\x00']
  | '"' => ['"']
  | '\\' => ['\\']
  | other => ['\\', other]

/-- Reads blanks and comments, starting inside a comment or not. A comment runs from two
slashes to the end of the line. -/
def skipTrivia (inComment : Bool) (cursor : Cursor) : List Char → Cursor
  | [] => cursor
  | c :: rest =>
    if inComment then skipTrivia (c != '\n') (cursor.step c rest) rest
    else if Text.isBlank c then skipTrivia false (cursor.step c rest) rest
    else if c = '/' ∧ rest.head? = some '/' then skipTrivia true (cursor.step c rest) rest
    else cursor

/-- Reads the rest of a string up to its closing quote. The result is `none` when there is no
such quote. `value` holds the text read so far, the latest character first, and `escaped` says
whether a backslash came just before. -/
def scanString (value : List Char) (escaped : Bool) (cursor : Cursor) :
    List Char → Option (List Char) × Cursor
  | [] => (none, cursor)
  | c :: rest =>
    let next := cursor.step c rest
    if escaped then scanString ((unescape c).reverse ++ value) false next rest
    else if c = '"' then (some value.reverse, next)
    else if c = '\\' then scanString value true next rest
    else scanString (c :: value) false next rest

/-- A token and what is wrong with its text, if anything. -/
structure Scanned where
  token : Token
  fault : Option LexicalError
  deriving Repr, Inhabited

/-- The token from `start` to `stop`, with the text between them as its literal. -/
def spanning (kind : Kind) (start stop : Cursor) : Token :=
  { kind
    literal := String.ofList (stop.sliceFrom start.offset)
    position := start.position
    span := stop.spanFrom start.offset }

/-- The token that starts with `c` at `start`. The second cursor is the one after `c`. -/
def scanFrom (start : Cursor) (c : Char) (next : Cursor) : Scanned × Cursor :=
  if c = '"' then
    match scanString [] false next next.ahead with
    | (some value, stop) =>
      (⟨{ spanning .string start stop with literal := String.ofList value }, none⟩, stop)
    | (none, stop) => (⟨spanning .illegal start stop, some .unterminatedString⟩, stop)
  else if isNameStart c then
    let stop := next.eatWhile isNamePart
    let token := spanning .ident start stop
    (⟨{ token with kind := Kind.ofName token.literal }, none⟩, stop)
  else if c.isDigit then
    let stop := next.eatWhile isNumberPart
    (⟨spanning .int start stop, none⟩, stop)
  else
    match symbol? c next.first with
    | some (kind, false) => (⟨spanning kind start next, none⟩, next)
    | some (kind, true) =>
      let stop := next.bump.2
      (⟨spanning kind start stop, none⟩, stop)
    | none => (⟨spanning .illegal start next, some (.unexpectedCharacter c)⟩, next)

/-- Reads blanks and comments and then one token. At the end of the text it gives the end
mark. -/
def scan (cursor : Cursor) : Scanned × Cursor :=
  let start := skipTrivia false cursor cursor.ahead
  match start.ahead with
  | [] => (⟨spanning .eof start start, none⟩, start)
  | c :: rest => scanFrom start c (start.step c rest)

/-! ### Every token but the end mark takes a character -/

theorem length_skipTrivia (ahead : List Char) :
    ∀ (inComment : Bool) (cursor : Cursor), cursor.ahead = ahead →
      (skipTrivia inComment cursor ahead).ahead.length ≤ ahead.length := by
  induction ahead with
  | nil => intro _ cursor h; simp [skipTrivia, h]
  | cons c rest ih =>
    intro inComment cursor h
    have hs : ∀ b, (skipTrivia b (cursor.step c rest) rest).ahead.length ≤ (c :: rest).length :=
      fun b => Nat.le_succ_of_le (ih b _ rfl)
    unfold skipTrivia
    split
    · exact hs _
    · split
      · exact hs _
      · split
        · exact hs _
        · exact Nat.le_of_eq (by rw [h])

theorem length_scanString (ahead : List Char) :
    ∀ (value : List Char) (escaped : Bool) (cursor : Cursor), cursor.ahead = ahead →
      (scanString value escaped cursor ahead).2.ahead.length ≤ ahead.length := by
  induction ahead with
  | nil => intro _ _ cursor h; simp [scanString, h]
  | cons c rest ih =>
    intro value escaped cursor h
    have hs : ∀ v b, (scanString v b (cursor.step c rest) rest).2.ahead.length
        ≤ (c :: rest).length := fun v b => Nat.le_succ_of_le (ih v b _ rfl)
    unfold scanString
    dsimp only
    split
    · exact hs _ _
    · split
      · exact Nat.le_succ _
      · split <;> exact hs _ _

theorem length_scanFrom (start : Cursor) (c : Char) (next : Cursor) :
    (scanFrom start c next).2.ahead.length ≤ next.ahead.length := by
  have hs := length_scanString next.ahead [] false next rfl
  unfold scanFrom
  split
  · split
    · next h => rw [h] at hs; exact hs
    · next h => rw [h] at hs; exact hs
  · split
    · exact next.length_eatWhile _
    · split
      · exact next.length_eatWhile _
      · split
        · exact Nat.le_refl _
        · unfold Cursor.bump
          split <;> simp_all [Cursor.step]
        · exact Nat.le_refl _

theorem length_scan {cursor : Cursor} (h : (scan cursor).1.token.kind ≠ .eof) :
    (scan cursor).2.ahead.length < cursor.ahead.length := by
  have ht := length_skipTrivia cursor.ahead false cursor rfl
  unfold scan at h ⊢
  dsimp only at h ⊢
  split at h
  · exact absurd rfl h
  · next c rest he =>
    have hf := length_scanFrom (skipTrivia false cursor cursor.ahead) c
      ((skipTrivia false cursor cursor.ahead).step c rest)
    rw [he] at ht
    exact Nat.lt_of_le_of_lt hf (Nat.lt_of_lt_of_le (Nat.lt_succ_self _) ht)

end Token

/-- The tokens of a source. After the last one the end mark comes again and again. -/
structure TokenStream where
  /-- Tokens still to come, without the end mark. -/
  pending : List Token.Scanned
  endMark : Token
  deriving Repr, Inhabited

namespace TokenStream

/-- Reads on from the cursor. The tokens already read are given the latest first. -/
def collect (cursor : Cursor) (read : List Token.Scanned) : TokenStream :=
  match _ : Token.scan cursor with
  | (scanned, rest) =>
    if _ : scanned.token.kind = .eof then ⟨read.reverse, scanned.token⟩
    else collect rest (scanned :: read)
termination_by cursor.ahead.length
decreasing_by
  rename_i h hk
  have hl := @Token.length_scan cursor (by rw [h]; exact hk)
  rw [h] at hl
  exact hl

def ofString (source : String) : TokenStream := collect (Cursor.ofString source) []

/-- The next token, and the stream after it. -/
def next (stream : TokenStream) : Token.Scanned × TokenStream :=
  match stream.pending with
  | scanned :: rest => (scanned, { stream with pending := rest })
  | [] => (⟨stream.endMark, none⟩, stream)

end TokenStream

end Simian
