/-!
# Places in a source text

A place is given twice: as a line and a column for the reader, and as a range of
byte offsets into the UTF-8 form of the text for tools. Both are plain data here.
The cursor keeps the two in step. A span holds its offsets in 32 bits, so those of a
text of 4 GiB or more are cut when a span is made of them.
-/
namespace Simian

/-- Number of bytes that the characters take in UTF-8. -/
def byteLength : (text : List Char) → Nat
  | [] => 0
  | c :: rest => c.utf8Size + byteLength rest

/-- A line and a column, both counted from one. Columns count characters. The counts are not
cut: a text must have at least 2 ^ 32 - 1 characters before one of them takes more than 32
bits. -/
structure Position where
  line : Nat
  column : Nat
  deriving Repr, DecidableEq, Inhabited

namespace Position

/-- The first character of a text. -/
def origin : Position := ⟨1, 1⟩

/-- The place after `c`, when `c` stands at `position`. -/
def after (position : Position) (c : Char) : Position :=
  if c = '\n' then ⟨position.line + 1, 1⟩ else ⟨position.line, position.column + 1⟩

def render (position : Position) : String :=
  s!"line: {position.line}, column: {position.column}"

end Position

/-- The byte offsets from `start` up to but not including `stop`. Offsets of a text come into a
span by `Span.ofOffsets` only. -/
structure Span where
  start : Nat
  stop : Nat
  deriving Repr, DecidableEq, Inhabited

namespace Span

/-- The empty range at the start of a text. -/
def zero : Span := ⟨0, 0⟩

/-- The span between two offsets of a text, each cut to 32 bits. -/
def ofOffsets (start stop : Nat) : Span := ⟨start % UInt32.size, stop % UInt32.size⟩

/-- Offsets that fit in 32 bits are kept. -/
theorem ofOffsets_of_lt {start stop : Nat} (hle : start ≤ stop) (h : stop < UInt32.size) :
    ofOffsets start stop = ⟨start, stop⟩ := by
  rw [ofOffsets, Nat.mod_eq_of_lt h, Nat.mod_eq_of_lt (Nat.lt_of_le_of_lt hle h)]

/-- The smallest span that covers both. -/
def merge (a b : Span) : Span := ⟨min a.start b.start, max a.stop b.stop⟩

def length (span : Span) : Nat := span.stop - span.start

def isEmpty (span : Span) : Bool := span.start == span.stop

end Span

end Simian
