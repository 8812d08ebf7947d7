import Simian.Text.Blank

/-!
# Limits written as text

A limit is a positive number that fits in 64 bits, written in decimal digits with a
plus sign before them or none. White space around it does not count.
-/
namespace Simian.Limit

def bound : Nat := UInt64.size

/-- The text without its plus sign, if it has one. -/
def unsigned : List Char → List Char
  | '+' :: rest => rest
  | digits => digits

/-- The number that the digits write, after digits that write `value`. -/
def ofDigits? (value : Nat) : List Char → Option Nat
  | [] => some value
  | c :: rest =>
    if '0' ≤ c ∧ c ≤ '9' then ofDigits? (10 * value + (c.toNat - '0'.toNat)) rest else none

/-- The limit that the text writes, if it writes one. No digits write zero, which is none. -/
def ofString? (text : String) : Option Nat :=
  (ofDigits? 0 (unsigned (Text.trimBlank text).toList)).filter fun value =>
    0 < value && value < bound

theorem lt_bound_of_ofString? {text : String} {value : Nat} (h : ofString? text = some value) :
    0 < value ∧ value < bound := by
  simpa using (Option.filter_eq_some_iff.1 h).2

end Simian.Limit
