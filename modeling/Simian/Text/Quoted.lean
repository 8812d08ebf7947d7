import Simian.Text.Printable

/-!
# Quoted text

Text and single characters are shown between quotes, with a backslash before the
quote and the backslash, short escapes for the four common controls, and the
hexadecimal code point of every other character that cannot be shown by itself.
-/
namespace Simian.Text

/-- The characters that stand for `c` between the quotes `quote`. -/
def escape (quote : Char) (c : Char) : List Char :=
  if c == quote || c == '\\' then ['\\', c]
  else if c == '\n' then ['\\', 'n']
  else if c == '\r' then ['\\', 'r']
  else if c == '\t' then ['\\', 't']
  else if c == '\x00' then ['\\', '0']
  else if isPrintable c then [c]
  else ['\\', 'u', '\x7b'] ++ Nat.toDigits 16 c.toNat ++ ['\x7d']

/-- The text between double quotes. -/
def quoted (text : String) : String :=
  (text.foldl (fun shown c => (escape '"' c).foldl String.push shown) "\"").push '"'

/-- The character between single quotes. -/
def quotedChar (c : Char) : String :=
  String.ofList ('\'' :: (escape '\'' c ++ ['\'']))

end Simian.Text
