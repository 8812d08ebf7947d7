import Simian.Source

/-!
# Showing a place in a source

A line table knows where each line of a source starts. An error is shown with the line
that its span starts in and with carets under the part of the span in that line, at
least one. The carets are placed by characters, whatever the number of bytes they take.
A place inside a character counts in bytes instead, and has one caret.
-/
namespace Simian

/-- One line of a source, without the characters that end it. -/
structure Line where
  /-- Byte offset of the first character. -/
  start : Nat
  text : List Char
  deriving Repr, DecidableEq, Inhabited

structure LineTable where
  lines : List Line
  /-- Bytes of the whole source. -/
  length : Nat
  deriving Repr, Inhabited

/-- A line counted from one and a byte offset in it. -/
structure Location where
  line : Nat
  column : Nat
  deriving Repr, DecidableEq, Inhabited

namespace LineTable

def isLineEnd (c : Char) : Bool := c == '\n' || c == '\r'

/-- The line with these characters, the latest first, any line ends at its end left out. -/
def close (start : Nat) (reversed : List Char) : Line :=
  ⟨start, (reversed.dropWhile isLineEnd).reverse⟩

/-- The table of the characters from `offset` on, where the open line, which is given the latest
character first, starts at `start`, and the lines before it are given the latest first. -/
def build (lines : List Line) (start offset : Nat) (reversed : List Char) :
    List Char → LineTable
  | [] => ⟨(close start reversed :: lines).reverse, offset⟩
  | c :: rest =>
    let next := offset + c.utf8Size
    if c = '\n' then build (close start reversed :: lines) next next [] rest
    else build lines start next (c :: reversed) rest

def ofString (source : String) : LineTable := build [] 0 0 [] source.toList

def lineCount (table : LineTable) : Nat := table.lines.length

/-- The line that the offset is in. An offset past the end counts as the end. -/
def locate (table : LineTable) (offset : Nat) : Location :=
  let offset := min offset table.length
  let before := table.lines.takeWhile (·.start ≤ offset)
  ⟨before.length, offset - (before.getLast?.map Line.start).getD 0⟩

/-- The text of a line counted from one. -/
def lineText? (table : LineTable) (line : Nat) : Option (List Char) :=
  if line = 0 then none else (table.lines[line - 1]?).map Line.text

end LineTable

namespace Diagnostic

/-- The text before and after its first `count` bytes, unless that is inside a character or past
the end. -/
def splitAtByte? : (text : List Char) → (count : Nat) → Option (List Char × List Char)
  | text, 0 => some ([], text)
  | [], _ + 1 => none
  | c :: rest, count + 1 =>
    if count + 1 < c.utf8Size then none
    else (splitAtByte? rest (count + 1 - c.utf8Size)).map fun (before, after) =>
      (c :: before, after)

/-- The indentation and the number of the carets under the bytes of `text` from `column` up to
`stop`. -/
def underline (text : List Char) (column stop : Nat) : Nat × Nat :=
  match splitAtByte? text column with
  | none => (column, 1)
  | some (before, after) =>
    match splitAtByte? after (stop - column) with
    | none => (before.length, 1)
    | some (marked, _) => (before.length, max 1 marked.length)

/-- The file name, the line with its carets, and the labelled message. -/
def render (table : LineTable) (filename : String) (span : Span) (label message : String) :
    String :=
  let location := table.locate span.start
  let title := "  File \"" ++ filename ++ s!"\", line {location.line}\n"
  let excerpt := match table.lineText? location.line with
    | none => ""
    | some text =>
      let length := byteLength text
      let column := min location.column length
      let stop := min (span.stop - span.start + column) length
      let (indent, width) := underline text column stop
      "    " ++ String.ofList text ++ "\n    " ++ String.ofList (List.replicate indent ' ') ++
        String.ofList (List.replicate width '^') ++ "\n"
  title ++ excerpt ++ label ++ ": " ++ message

end Diagnostic

end Simian
