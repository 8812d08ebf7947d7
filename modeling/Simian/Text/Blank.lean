import Simian.Text.Ranges

/-!
# White space

The characters with the Unicode property `White_Space`: tab, line feed, vertical
tab, form feed, carriage return, space, next line, and the spaces and separators
of the table.
-/
namespace Simian.Text

/-- Code points from U+0080 with the property `White_Space`. -/
def blankRanges : Ranges :=
  #[(0x85, 0x85), (0xa0, 0xa0), (0x1680, 0x1680), (0x2000, 0x200a), (0x2028, 0x2029),
  (0x202f, 0x202f), (0x205f, 0x205f), (0x3000, 0x3000)]

/-- Whether the character is white space. -/
def isBlank (c : Char) : Bool :=
  if c.toNat < 0x80 then c == ' ' || (9 ≤ c.toNat && c.toNat ≤ 13)
  else blankRanges.contains c.toNat

/-- The four ASCII blanks of the core library are white space here too. -/
theorem isBlank_of_isWhitespace {c : Char} (h : c.isWhitespace = true) : isBlank c = true := by
  simp only [Char.isWhitespace, Bool.or_eq_true, decide_eq_true_eq] at h
  rcases h with ((h | h) | h) | h <;> subst h <;> decide

/-- The text without the white space at either end. -/
def trimBlank (text : String) : String :=
  String.ofList
    ((((text.toList.dropWhile isBlank).reverse).dropWhile isBlank).reverse)

end Simian.Text
