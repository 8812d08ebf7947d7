import Simian.Source

/-!
# A cursor over the characters of a source

The cursor splits the text into what has been read, nearest character first, and
what is still ahead, and carries the byte offset and the position of the split.
`Cursor.Follows` says that the two carried numbers agree with what has been read.
Every operation keeps it, and none changes the text.
-/
namespace Simian

structure Cursor where
  /-- Characters already read, the latest first. -/
  behind : List Char
  /-- Characters still to read. -/
  ahead : List Char
  /-- Byte offset of the next character. -/
  offset : Nat
  /-- Line and column of the next character. -/
  position : Position
  deriving Repr, Inhabited

namespace Cursor

/-- What lookahead shows past the end of the text. -/
def endMark : Char := '\x00'

def ofList (text : List Char) : Cursor := ⟨[], text, 0, Position.origin⟩

def ofString (text : String) : Cursor := ofList text.toList

def isAtEnd (cursor : Cursor) : Bool := cursor.ahead.isEmpty

/-- The next character, or the end mark. -/
def first (cursor : Cursor) : Char :=
  match cursor.ahead with
  | c :: _ => c
  | [] => endMark

/-- The character after the next one, or the end mark. -/
def second (cursor : Cursor) : Char :=
  match cursor.ahead with
  | _ :: c :: _ => c
  | _ => endMark

/-- The cursor after reading `c`, with `rest` left. -/
def step (cursor : Cursor) (c : Char) (rest : List Char) : Cursor :=
  ⟨c :: cursor.behind, rest, cursor.offset + c.utf8Size, cursor.position.after c⟩

/-- Reads one character, if there is one. -/
def bump (cursor : Cursor) : Option Char × Cursor :=
  match cursor.ahead with
  | c :: rest => (some c, cursor.step c rest)
  | [] => (none, cursor)

/-- Reads the next character if it is `c`, and says whether it was. -/
def eat (cursor : Cursor) (c : Char) : Bool × Cursor :=
  match cursor.ahead with
  | next :: rest => if next = c then (true, cursor.step next rest) else (false, cursor)
  | [] => (false, cursor)

/-- Reads on from `cursor`, whose next characters are the list, while `accept` holds. -/
def advanceWhile (accept : Char → Bool) (cursor : Cursor) : List Char → Cursor
  | [] => cursor
  | c :: rest => if accept c then advanceWhile accept (cursor.step c rest) rest else cursor

/-- Reads characters while `accept` holds. -/
def eatWhile (cursor : Cursor) (accept : Char → Bool) : Cursor :=
  advanceWhile accept cursor cursor.ahead

/-- Moves the latest `count` bytes of the reversed text in front of the characters gathered. -/
def takeBack : (count : Nat) → (behind : List Char) → (gathered : List Char) → List Char
  | 0, _, gathered => gathered
  | _, [], gathered => gathered
  | count + 1, c :: behind, gathered => takeBack (count + 1 - c.utf8Size) behind (c :: gathered)

/-- The text from the byte offset `start` up to the cursor. -/
def sliceFrom (cursor : Cursor) (start : Nat) : List Char :=
  takeBack (cursor.offset - start) cursor.behind []

/-- The span from `start` up to the cursor. -/
def spanFrom (cursor : Cursor) (start : Nat) : Span := .ofOffsets start cursor.offset

/-! ### The carried numbers -/

/-- The position after reading the characters from `position` on. -/
def positionAfter (position : Position) (text : List Char) : Position :=
  text.foldl Position.after position

/-- Offset and position are those of the characters read. -/
structure Follows (cursor : Cursor) : Prop where
  offset_eq : cursor.offset = byteLength cursor.behind
  position_eq : cursor.position = positionAfter Position.origin cursor.behind.reverse

theorem follows_ofList (text : List Char) : Follows (ofList text) := ⟨rfl, rfl⟩

theorem follows_step {cursor : Cursor} (h : Follows cursor) (c : Char) (rest : List Char) :
    Follows (cursor.step c rest) := by
  constructor
  · simp [step, byteLength, h.offset_eq, Nat.add_comm]
  · simp [step, positionAfter, h.position_eq]

theorem length_advanceWhile (accept : Char → Bool) (ahead : List Char) (cursor : Cursor)
    (h : cursor.ahead = ahead) :
    (advanceWhile accept cursor ahead).ahead.length ≤ ahead.length := by
  induction ahead generalizing cursor with
  | nil => simp [advanceWhile, h]
  | cons c rest ih =>
    by_cases hc : accept c = true
    · rw [advanceWhile, if_pos hc]
      exact Nat.le_succ_of_le (ih (cursor.step c rest) rfl)
    · rw [advanceWhile, if_neg hc]
      simp [h]

theorem length_eatWhile (cursor : Cursor) (accept : Char → Bool) :
    (cursor.eatWhile accept).ahead.length ≤ cursor.ahead.length :=
  length_advanceWhile accept _ cursor rfl

end Cursor

end Simian
