/-!
# Tables of code point ranges

A character class beyond ASCII is given by the closed ranges of code points that
belong to it. Membership is a search of the table, and nothing here depends on
the ranges being sorted.
-/
namespace Simian.Text

/-- Closed ranges of code points, each from its first to its last member. -/
abbrev Ranges := Array (Nat × Nat)

/-- Whether some range of the table holds the code point. -/
def Ranges.contains (ranges : Ranges) (code : Nat) : Bool :=
  ranges.any fun range => range.1 ≤ code && code ≤ range.2

theorem Ranges.contains_iff (ranges : Ranges) (code : Nat) :
    ranges.contains code = true ↔ ∃ range ∈ ranges, range.1 ≤ code ∧ code ≤ range.2 := by
  rw [Ranges.contains, Array.any_eq_true']
  simp only [Bool.and_eq_true, decide_eq_true_eq]

end Simian.Text
