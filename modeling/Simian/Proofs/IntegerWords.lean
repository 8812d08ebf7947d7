import Simian.Machine.Shortcut
import Simian.Proofs.IntegerExactness

/-!
# Words and integers

Computing with machine words and looking for overflow gives the same as computing with all
integers and asking whether the result fits. So the shortcuts of the handlers change nothing
(`BinaryOp.calculate_eq_apply`, `BinaryOp.relate_eq_apply`).
-/
namespace Simian

namespace Integer

variable {a b : Int64}

/-- A word that is exact where nothing overflows is what fits. -/
theorem ite_eq_fit? {overflows : Bool} {word : Int64} {exact : Int}
    (ho : overflows = false ↔ Fits exact) (hw : overflows = false → word.toInt = exact) :
    (if overflows then none else some word) = fit? exact := by
  cases overflows with
  | false => exact (fit?_eq_some_iff.mpr (hw rfl)).symm
  | true =>
    refine (fit?_eq_none_iff_not_fits.mpr fun h => ?_).symm
    cases ho.mpr h

theorem sum?_eq (a b : Int64) : sum? a b = fit? (a.toInt + b.toInt) := by
  refine ite_eq_fit? ?_ fun h => ?_
  · simp only [BitVec.saddOverflow, Fits, Int64.toInt_toBitVec]
    simp
    omega
  · exact BitVec.toInt_add_of_not_saddOverflow (by rw [h]; exact Bool.false_ne_true)

theorem difference?_eq (a b : Int64) : difference? a b = fit? (a.toInt - b.toInt) := by
  refine ite_eq_fit? ?_ fun h => ?_
  · simp only [BitVec.ssubOverflow, Fits, Int64.toInt_toBitVec]
    simp
    omega
  · exact BitVec.toInt_sub_of_not_ssubOverflow (by rw [h]; exact Bool.false_ne_true)

theorem product?_eq (a b : Int64) : product? a b = fit? (a.toInt * b.toInt) := by
  refine ite_eq_fit? ?_ fun h => ?_
  · simp only [BitVec.smulOverflow, Fits, Int64.toInt_toBitVec]
    simp
    omega
  · exact BitVec.toInt_mul_of_not_smulOverflow (by rw [h]; exact Bool.false_ne_true)

theorem toInt_ne_zero (hb : b ≠ 0) : b.toInt ≠ 0 := fun h => hb (Int64.toInt_inj.mp h)

/-- A division by a word that is not zero fails just where its quotient does not fit. -/
theorem divisionFails_eq_false_iff (hb : b ≠ 0) :
    divisionFails a b = false ↔ Fits (a.toInt.tdiv b.toInt) := by
  have hdivides := divides_of_ne_zero a.toInt (toInt_ne_zero hb)
  constructor
  · intro h
    refine (hdivides.fits_quotient (fits_toInt a)).resolve_right fun ⟨ha, hm, _⟩ => ?_
    rw [show a = Int64.minValue from Int64.toInt_inj.mp ha,
      show b = -1 from Int64.toInt_inj.mp hm] at h
    exact absurd h (by decide)
  · intro h
    have hlost : a = Int64.minValue → b ≠ -1 := by
      rintro rfl rfl
      exact absurd h (by decide)
    simpa [divisionFails, hb] using hlost

theorem quotient?_eq (hb : b ≠ 0) : quotient? a b = fit? (a.toInt.tdiv b.toInt) := by
  refine ite_eq_fit? (divisionFails_eq_false_iff hb) fun h => ?_
  have hfits := (divisionFails_eq_false_iff hb).mp h
  rw [Int64.toInt_div]
  exact Int.bmod_eq_of_le (by have := hfits.1; omega) (by have := hfits.2; omega)

/-- A remainder comes with its quotient. -/
theorem remainder?_eq (hb : b ≠ 0) : remainder? a b =
    (fit? (a.toInt.tdiv b.toInt)).bind fun _ => fit? (a.toInt.tmod b.toInt) := by
  rw [← quotient?_eq hb, remainder?, quotient?]
  cases divisionFails a b with
  | true => rfl
  | false => exact (fit?_eq_some_iff.mpr (Int64.toInt_mod a b)).symm

end Integer

namespace BinaryOp

/-- Whether the operator compares its operands. -/
def compares : BinaryOp → Bool
  | .add | .sub | .mul | .div | .mod => false
  | .eq | .notEq | .lt | .ltEq | .gt | .gtEq => true

theorem map_checked_fit? (op : BinaryOp) (exact : Int) :
    (op.checked (Integer.fit? exact)).map .int = op.fitting exact := by
  unfold checked fitting
  cases Integer.fit? exact <;> rfl

/-- Arithmetic on words is arithmetic on all integers, with its errors. -/
theorem map_onWords (op : BinaryOp) (h : op.compares = false) (a b : Int64) :
    (op.onWords a b).map .int = op.apply (.int a) (.int b) := by
  cases op with
  | add => rw [onWords, Integer.sum?_eq, map_checked_fit?]; rfl
  | sub => rw [onWords, Integer.difference?_eq, map_checked_fit?]; rfl
  | mul => rw [onWords, Integer.product?_eq, map_checked_fit?]; rfl
  | div =>
    by_cases hb : b = 0
    · simp only [onWords, apply, onIntegers, if_pos hb]
      rfl
    · simp only [onWords, apply, onIntegers, if_neg hb]
      rw [Integer.quotient?_eq hb, map_checked_fit?]
      rfl
  | mod =>
    by_cases hb : b = 0
    · simp only [onWords, apply, onIntegers, if_pos hb]
      rfl
    · simp only [onWords, apply, onIntegers, if_neg hb, Integer.remainder?_eq hb]
      cases Integer.fit? (a.toInt.tdiv b.toInt) with
      | none => rfl
      | some quotient => exact map_checked_fit? .mod _
  | eq | notEq | lt | ltEq | gt | gtEq => cases h

/-- The shortcut of arithmetic changes nothing. -/
theorem calculate_eq_apply (op : BinaryOp) (h : op.compares = false) (left right : Value) :
    op.calculate left right = op.apply left right := by
  unfold calculate
  split
  · exact op.map_onWords h _ _
  · rfl

/-- Words are ordered as the integers that they are. -/
theorem ofOrdering?_compare_toInt (op : BinaryOp) (a b : Int64) :
    op.ofOrdering? (compare a.toInt b.toInt) =
      match op with
      | .lt => some (decide (a < b))
      | .ltEq => some (decide (a ≤ b))
      | .gt => some (decide (a > b))
      | .gtEq => some (decide (a ≥ b))
      | _ => none := by
  have hlt (a b : Int64) : a < b ↔ compare a.toInt b.toInt = .lt := by
    rw [Int64.lt_iff_toInt_lt, Int.compare_eq_lt]
  have hle (a b : Int64) : a ≤ b ↔ compare a.toInt b.toInt ≠ .gt := by
    rw [Int64.le_iff_toInt_le, Ne, Int.compare_eq_gt, Int.not_lt]
  have hswap : compare b.toInt a.toInt = (compare a.toInt b.toInt).swap := Std.OrientedCmp.eq_swap
  simp only [hlt, hle, GT.gt, GE.ge, hswap]
  cases op <;> cases compare a.toInt b.toInt <;> rfl

/-- The shortcut of comparing changes nothing. -/
theorem relate_eq_apply (op : BinaryOp) (left right : Value) :
    op.relate left right = op.apply left right := by
  unfold relate
  split
  next a b =>
    have hordering := op.ofOrdering?_compare_toInt a b
    cases op with
    | add | sub | mul | div | mod => rfl
    | eq | notEq => simp only [apply, BEq.beq, bne, Value.same]
    | lt | ltEq | gt | gtEq => simp only [apply, onIntegers, hordering]
  · rfl

end BinaryOp

end Simian
