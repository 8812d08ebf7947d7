/-!
# Integer literals

A literal is a run of digits, with single underscores between digits if wanted.
The radix is 16, 8 or 2 after `0x`, `0o` or `0b`, 8 after a bare leading zero, and
10 otherwise. The value has to fit into 63 bits, since no literal has a sign.
-/
namespace Simian.Numeral

/-- The value of a digit or letter, letters counting on from ten in either case. -/
def digitValue? (c : Char) : Option Nat :=
  if c.isDigit then some (c.toNat - '0'.toNat)
  else if 'a' ≤ c ∧ c ≤ 'z' then some (c.toNat - 'a'.toNat + 10)
  else if 'A' ≤ c ∧ c ≤ 'Z' then some (c.toNat - 'A'.toNat + 10)
  else none

/-- Reads on after digits of the given value. An underscore has to come after a digit, and so
has the end. -/
def readDigits (radix value : Nat) (afterDigit : Bool) : List Char → Option Nat
  | [] => if afterDigit then some value else none
  | c :: rest =>
    if c = '_' then (if afterDigit then readDigits radix value false rest else none)
    else match digitValue? c with
      | some digit =>
        if digit < radix then readDigits radix (value * radix + digit) true rest else none
      | none => none

/-- The radix of a literal, and its digits. -/
def split (literal : List Char) : Nat × List Char :=
  match literal with
  | '0' :: 'x' :: digits | '0' :: 'X' :: digits => (16, digits)
  | '0' :: 'o' :: digits | '0' :: 'O' :: digits => (8, digits)
  | '0' :: 'b' :: digits | '0' :: 'B' :: digits => (2, digits)
  | '0' :: c :: digits => (8, c :: digits)
  | digits => (10, digits)

/-- The value of a literal, if it is well formed and fits. -/
def read? (literal : List Char) : Option Int64 :=
  let (radix, digits) := split literal
  match readDigits radix 0 false digits with
  | some value => if value ≤ Int64.maxValue.toNatClampNeg then some (Int64.ofNat value) else none
  | none => none

end Simian.Numeral
