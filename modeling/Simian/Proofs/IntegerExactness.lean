import Simian.Value.Operation

/-!
# Integer arithmetic is exact

An operator on two integers gives what it gives on all integers, as long as that fits in 64
bits, and fails where it does not. Division drops the fraction, and the remainder keeps the sign of
what is divided. One remainder that fits is refused: the quotient of the least integer by minus one
needs a bit more, and its remainder is lost with it.
-/
namespace Simian

namespace Integer

/-- The integer is one of those of 64 bits. -/
def Fits (value : Int) : Prop :=
  -9223372036854775808 ≤ value ∧ value ≤ 9223372036854775807

instance (value : Int) : Decidable (Fits value) := inferInstanceAs (Decidable (_ ∧ _))

theorem fits_toInt (word : Int64) : Fits word.toInt :=
  ⟨word.le_toInt, Int.le_of_lt_add_one word.toInt_lt⟩

theorem fit?_toInt (word : Int64) : fit? word.toInt = some word := by
  rw [fit?, if_pos ⟨word.minValue_le_toInt, word.toInt_le⟩, Int64.ofInt_toInt]

theorem fit?_eq_some_iff {value : Int} {word : Int64} :
    fit? value = some word ↔ word.toInt = value :=
  ⟨toInt_of_fit?, fun h => h ▸ fit?_toInt word⟩

theorem exists_of_fits {value : Int} (h : Fits value) : ∃ word : Int64, word.toInt = value :=
  ⟨Int64.ofInt value, Int64.toInt_ofInt_of_le h.1 (Int.lt_add_one_of_le h.2)⟩

theorem fit?_eq_none_iff_not_fits {value : Int} : fit? value = none ↔ ¬Fits value :=
  fit?_eq_none_iff

/-- Dividing the first integer by the second gives the quotient and leaves the remainder, which is
smaller than the divisor and has the sign of the dividend. -/
structure Divides (dividend divisor quotient remainder : Int) : Prop where
  split : dividend = quotient * divisor + remainder
  smaller : remainder.natAbs < divisor.natAbs
  nonneg : 0 ≤ dividend → 0 ≤ remainder
  nonpos : dividend ≤ 0 → remainder ≤ 0

variable {a b q r : Int}

theorem divides_of_ne_zero (a : Int) (hb : b ≠ 0) : Divides a b (a.tdiv b) (a.tmod b) where
  split := (Int.tdiv_mul_add_tmod a b).symm
  smaller := by
    rw [Int.natAbs_tmod]
    exact Nat.mod_lt _ (Int.natAbs_pos.mpr hb)
  nonneg := Int.tmod_nonneg b
  nonpos h := by
    have hneg := Int.tmod_nonneg b (Int.neg_nonneg_of_nonpos h)
    rw [Int.neg_tmod] at hneg
    exact Int.nonpos_of_neg_nonneg hneg

theorem Divides.ne_zero (h : Divides a b q r) : b ≠ 0 := by
  rintro rfl
  exact Nat.not_lt_zero _ h.smaller

/-- A division has one quotient and one remainder. -/
theorem Divides.unique (h : Divides a b q r) : a.tdiv b = q ∧ a.tmod b = r := by
  have hsplit := h.split
  have hsmaller := h.smaller
  rw [Int.mul_comm] at hsplit
  rcases Int.le_total 0 a with ha | ha
  · have hnonneg := h.nonneg ha
    exact (Int.tdiv_tmod_unique ha h.ne_zero).mpr (by omega)
  · have hnonpos := h.nonpos ha
    exact (Int.tdiv_tmod_unique' ha h.ne_zero).mpr (by omega)

theorem Divides.natAbs_quotient_le (h : Divides a b q r) : q.natAbs ≤ a.natAbs := by
  rw [← h.unique.1]
  exact Int.natAbs_tdiv_le_natAbs a b

/-- A quotient fits, but for that of the least integer by minus one, which has no remainder. -/
theorem Divides.fits_quotient (ha : Fits a) (h : Divides a b q r) :
    Fits q ∨ a = -9223372036854775808 ∧ b = -1 ∧ r = 0 := by
  refine Decidable.or_iff_not_imp_left.mpr fun hq => ?_
  have hle := h.natAbs_quotient_le
  have hsplit := h.split
  have hsmaller := h.smaller
  have hnonpos := h.nonpos
  obtain rfl : q = 9223372036854775808 := by unfold Fits at ha hq; omega
  unfold Fits at ha
  omega

theorem Divides.fits_remainder (hb : Fits b) (h : Divides a b q r) : Fits r := by
  have hsmaller := h.smaller
  unfold Fits at hb ⊢
  omega

end Integer

namespace BinaryOp

open Integer

/-- What an arithmetic operator gives on all integers. A division by zero gives nothing. -/
inductive Exactly (a b : Int) : BinaryOp → Int → Prop
  | add : Exactly a b .add (a + b)
  | sub : Exactly a b .sub (a - b)
  | mul : Exactly a b .mul (a * b)
  | div {quotient remainder : Int} (h : Divides a b quotient remainder) :
    Exactly a b .div quotient
  | mod {quotient remainder : Int} (h : Divides a b quotient remainder) :
    Exactly a b .mod remainder

theorem Exactly.unique {op : BinaryOp} {a b n m : Int} (hn : op.Exactly a b n)
    (hm : op.Exactly a b m) : n = m := by
  cases hn with
  | add | sub | mul =>
    cases hm
    rfl
  | div hn =>
    cases hm with
    | div hm => exact hn.unique.1.symm.trans hm.unique.1
  | mod hn =>
    cases hm with
    | mod hm => exact hn.unique.2.symm.trans hm.unique.2

/-- A division by zero gives nothing. -/
theorem Exactly.divisor_ne_zero {op : BinaryOp} {a b n : Int} (h : op.Exactly a b n)
    (hop : op = .div ∨ op = .mod) : b ≠ 0 := by
  cases h with
  | add | sub | mul => cases hop <;> contradiction
  | div h | mod h => exact h.ne_zero

/-- The one remainder that is refused though it fits, since its quotient does not. -/
def LosesRemainder (op : BinaryOp) (a b : Int64) : Prop :=
  op = .mod ∧ a = Int64.minValue ∧ b = -1

theorem LosesRemainder.ne_zero {op : BinaryOp} {a b : Int64} (h : op.LosesRemainder a b) :
    b ≠ 0 := by
  rw [h.2.2]
  decide

/-- The integer if it fits, or the overflow of the operator. -/
def fitting (op : BinaryOp) (exact : Int) : Except OperationError Value :=
  match fit? exact with
  | some word => .ok (.int word)
  | none => .error (.integerOverflow op.spelling)

variable {op : BinaryOp} {a b : Int64} {exact : Int}

theorem fitting_eq_ok {word : Int64} :
    op.fitting exact = .ok (.int word) ↔ word.toInt = exact := by
  rw [← fit?_eq_some_iff, fitting]
  split
  next h => simp [h]
  next h => simp [h]

theorem fitting_eq_overflow {operator : String} :
    op.fitting exact = .error (.integerOverflow operator) ↔
      operator = op.spelling ∧ ¬Fits exact := by
  rw [← fit?_eq_none_iff_not_fits, fitting]
  split
  next h => simp [h]
  next h => simp [h, eq_comm]

theorem fitting_ne_divisionByZero : op.fitting exact ≠ .error .divisionByZero := by
  unfold fitting
  split <;> nofun

theorem apply_of_losesRemainder (h : op.LosesRemainder a b) :
    op.apply (.int a) (.int b) = .error (.integerOverflow op.spelling) := by
  obtain ⟨rfl, rfl, rfl⟩ := h
  rfl

/-- Where the operator gives an integer on all integers, applying it gives that integer if it
fits. -/
theorem apply_of_exactly (h : op.Exactly a.toInt b.toInt exact) (hr : ¬op.LosesRemainder a b) :
    op.apply (.int a) (.int b) = op.fitting exact := by
  cases h with
  | add | sub | mul => rfl
  | div h =>
    have hb : b ≠ 0 := fun he => h.ne_zero (congrArg Int64.toInt he)
    rw [← h.unique.1]
    exact if_neg hb
  | mod h =>
    have hb : b ≠ 0 := fun he => h.ne_zero (congrArg Int64.toInt he)
    have hfits := (h.fits_quotient (fits_toInt a)).resolve_right fun ⟨ha, hm, _⟩ =>
      hr ⟨rfl, Int64.toInt_inj.mp ha, Int64.toInt_inj.mp hm⟩
    obtain ⟨word, hword⟩ := exists_of_fits hfits
    have hquotient : fit? (a.toInt.tdiv b.toInt) = some word := by
      rw [h.unique.1, fit?_eq_some_iff, hword]
    rw [← h.unique.2]
    simp only [BinaryOp.apply, onIntegers, if_neg hb, hquotient]
    rfl

/-- The results that an operator can have on two integers, and where it has them. -/
inductive Outcome (op : BinaryOp) (a b : Int64) : Except OperationError Value → Prop
  | exact {exact : Int} (h : op.Exactly a.toInt b.toInt exact) (hr : ¬op.LosesRemainder a b) :
    Outcome op a b (op.fitting exact)
  | lost (h : op.LosesRemainder a b) : Outcome op a b (.error (.integerOverflow op.spelling))
  | zero (hop : op = .div ∨ op = .mod) (hb : b = 0) : Outcome op a b (.error .divisionByZero)
  | comparison (hop : ∀ exact, ¬op.Exactly a.toInt b.toInt exact)
    (hdivision : ¬(op = .div ∨ op = .mod)) (holds : Bool) : Outcome op a b (.ok (.bool holds))

theorem outcome_of_exactly (h : op.Exactly a.toInt b.toInt exact) :
    op.Outcome a b (op.apply (.int a) (.int b)) := by
  by_cases hr : op.LosesRemainder a b
  · rw [apply_of_losesRemainder hr]
    exact .lost hr
  · rw [apply_of_exactly h hr]
    exact .exact h hr

theorem outcome_apply (op : BinaryOp) (a b : Int64) :
    op.Outcome a b (op.apply (.int a) (.int b)) := by
  have hdivides (hb : b ≠ 0) := divides_of_ne_zero a.toInt
    (fun h => hb (Int64.toInt_inj.mp h) : b.toInt ≠ 0)
  cases op with
  | add => exact outcome_of_exactly .add
  | sub => exact outcome_of_exactly .sub
  | mul => exact outcome_of_exactly .mul
  | div =>
    by_cases hb : b = 0
    · simp only [BinaryOp.apply, onIntegers, if_pos hb]
      exact .zero (.inl rfl) hb
    · exact outcome_of_exactly (.div (hdivides hb))
  | mod =>
    by_cases hb : b = 0
    · simp only [BinaryOp.apply, onIntegers, if_pos hb]
      exact .zero (.inr rfl) hb
    · exact outcome_of_exactly (.mod (hdivides hb))
  | eq | notEq | lt | ltEq | gt | gtEq =>
    refine .comparison (fun exact h => ?_) (by decide) _
    cases h

/-! ### What an outcome tells -/

namespace Outcome

variable {result : Except OperationError Value}

theorem ok_iff (houtcome : op.Outcome a b result) (exact : Int) :
    (∃ word : Int64, word.toInt = exact ∧ result = .ok (.int word)) ↔
      op.Exactly a.toInt b.toInt exact ∧ Fits exact ∧ ¬op.LosesRemainder a b := by
  cases houtcome with
  | exact h hr =>
    simp only [fitting_eq_ok]
    constructor
    · rintro ⟨word, rfl, rfl⟩
      exact ⟨h, fits_toInt word, hr⟩
    · rintro ⟨hexact, hfits, -⟩
      obtain rfl := h.unique hexact
      obtain ⟨word, hword⟩ := exists_of_fits hfits
      exact ⟨word, hword, hword⟩
  | lost h => exact iff_of_false (fun ⟨_, _, hok⟩ => nomatch hok) (fun ⟨_, _, hr⟩ => hr h)
  | zero hop hb =>
    refine iff_of_false (fun ⟨_, _, hok⟩ => nomatch hok) fun ⟨h, _⟩ => ?_
    exact h.divisor_ne_zero hop (congrArg Int64.toInt hb)
  | comparison hnone _ _ =>
    exact iff_of_false (fun ⟨_, _, hok⟩ => nomatch hok) (fun ⟨h, _⟩ => hnone exact h)

theorem divisionByZero_iff (houtcome : op.Outcome a b result) :
    result = .error .divisionByZero ↔ (op = .div ∨ op = .mod) ∧ b = 0 := by
  cases houtcome with
  | exact h _ =>
    refine iff_of_false fitting_ne_divisionByZero fun ⟨hop, hb⟩ => ?_
    exact h.divisor_ne_zero hop (congrArg Int64.toInt hb)
  | lost h => exact iff_of_false (fun he => nomatch he) (fun ⟨_, hb⟩ => h.ne_zero hb)
  | zero hop hb => exact iff_of_true rfl ⟨hop, hb⟩
  | comparison _ hdivision _ =>
    exact iff_of_false (fun he => nomatch he) (fun ⟨hop, _⟩ => hdivision hop)

theorem overflow_iff (houtcome : op.Outcome a b result) (operator : String) :
    result = .error (.integerOverflow operator) ↔ operator = op.spelling ∧
      ((∃ exact, op.Exactly a.toInt b.toInt exact ∧ ¬Fits exact) ∨ op.LosesRemainder a b) := by
  cases houtcome with
  | @exact exact h hr =>
    rw [fitting_eq_overflow]
    refine and_congr_right' ⟨fun hfits => .inl ⟨exact, h, hfits⟩, ?_⟩
    rintro (⟨other, hother, hfits⟩ | hlost)
    · rwa [h.unique hother]
    · exact absurd hlost hr
  | lost h =>
    simp only [Except.error.injEq, OperationError.integerOverflow.injEq]
    exact ⟨fun he => ⟨he.symm, .inr h⟩, fun he => he.1.symm⟩
  | zero hop hb =>
    refine iff_of_false (fun he => nomatch he) ?_
    rintro ⟨-, ⟨exact, h, -⟩ | h⟩
    · exact h.divisor_ne_zero hop (congrArg Int64.toInt hb)
    · exact h.ne_zero hb
  | comparison hnone hdivision _ =>
    refine iff_of_false (fun he => nomatch he) ?_
    rintro ⟨-, ⟨exact, h, -⟩ | h⟩
    · exact hnone exact h
    · exact hdivision (.inr h.1)

end Outcome

/-- What applying the operator to two integers gives, integer for integer and error for error. -/
structure Checks (op : BinaryOp) (a b : Int64) : Prop where
  ok : ∀ exact, (∃ word : Int64, word.toInt = exact ∧
      op.apply (.int a) (.int b) = .ok (.int word)) ↔
    op.Exactly a.toInt b.toInt exact ∧ Fits exact ∧ ¬op.LosesRemainder a b
  divisionByZero : op.apply (.int a) (.int b) = .error .divisionByZero ↔
    (op = .div ∨ op = .mod) ∧ b = 0
  overflow : ∀ operator, op.apply (.int a) (.int b) = .error (.integerOverflow operator) ↔
    operator = op.spelling ∧
      ((∃ exact, op.Exactly a.toInt b.toInt exact ∧ ¬Fits exact) ∨ op.LosesRemainder a b)

theorem checks (op : BinaryOp) (a b : Int64) : op.Checks a b :=
  have houtcome := op.outcome_apply a b
  ⟨houtcome.ok_iff, houtcome.divisionByZero_iff, houtcome.overflow_iff⟩

/-- The least integer leaves nothing when it is divided by minus one, and yet has no remainder. -/
theorem minValue_mod_overflows : BinaryOp.mod.Exactly Int64.minValue.toInt (-1) 0 ∧ Fits 0 ∧
    BinaryOp.mod.apply (.int Int64.minValue) (.int (-1)) = .error (.integerOverflow "%") :=
  ⟨.mod (divides_of_ne_zero _ (by decide)), by decide, rfl⟩

/-- The operators give back the dividend from the quotient, the divisor and the remainder. -/
def Recombines (a b : Int64) : Prop :=
  ∃ quotient product remainder : Int64,
    BinaryOp.div.apply (.int a) (.int b) = .ok (.int quotient) ∧
    BinaryOp.mul.apply (.int quotient) (.int b) = .ok (.int product) ∧
    BinaryOp.mod.apply (.int a) (.int b) = .ok (.int remainder) ∧
    BinaryOp.add.apply (.int product) (.int remainder) = .ok (.int a) ∧
    a = quotient * b + remainder

theorem recombines (hb : b ≠ 0) (hfits : Fits (a.toInt.tdiv b.toInt)) : Recombines a b := by
  have hdivides := divides_of_ne_zero a.toInt
    (fun h => hb (Int64.toInt_inj.mp h) : b.toInt ≠ 0)
  have hkept (op : BinaryOp) : ¬op.LosesRemainder a b := by
    rintro ⟨-, rfl, rfl⟩
    exact absurd hfits (by decide)
  obtain ⟨quotient, hquotient⟩ := exists_of_fits hfits
  obtain ⟨remainder, hremainder⟩ := exists_of_fits (hdivides.fits_remainder (fits_toInt b))
  have hsum := hdivides.split
  rw [← hquotient, ← hremainder] at hsum
  -- the product lies between zero and the dividend
  have hproduct : Fits (quotient.toInt * b.toInt) := by
    have hle : remainder.toInt.natAbs ≤ a.toInt.natAbs := by
      rw [hremainder, Int.natAbs_tmod]
      exact Nat.mod_le _ _
    have hnonneg := hdivides.nonneg
    have hnonpos := hdivides.nonpos
    have ha := fits_toInt a
    unfold Fits at ha ⊢
    omega
  obtain ⟨product, hproduct⟩ := exists_of_fits hproduct
  refine ⟨quotient, product, remainder, ?_, ?_, ?_, ?_, ?_⟩
  · rw [apply_of_exactly (.div hdivides) (hkept _), fitting_eq_ok, hquotient]
  · rw [apply_of_exactly .mul (fun h => nomatch h.1), fitting_eq_ok, hproduct]
  · rw [apply_of_exactly (.mod hdivides) (hkept _), fitting_eq_ok, hremainder]
  · rw [apply_of_exactly .add (fun h => nomatch h.1), fitting_eq_ok, hproduct, hsum]
  · rw [← Int64.ofInt_toInt a, hsum, Int64.ofInt_add, Int64.ofInt_mul]
    simp only [Int64.ofInt_toInt]

end BinaryOp

namespace Integer

/-- What negating the integer gives. -/
structure Negates (a : Int64) : Prop where
  ok : ∀ exact, (∃ word : Int64, word.toInt = exact ∧ (Value.int a).negate = .ok (.int word)) ↔
    exact = -a.toInt ∧ Fits exact
  error : ∀ error, (Value.int a).negate = .error error ↔
    error = .integerOverflow "-" ∧ ¬Fits (-a.toInt)

theorem negates (a : Int64) : Negates a := by
  by_cases h : Fits (-a.toInt)
  · obtain ⟨word, hword⟩ := exists_of_fits h
    have hresult : (Value.int a).negate = .ok (.int word) := by
      simp only [Value.negate, fit?_eq_some_iff.mpr hword]
    refine ⟨fun exact => ?_, fun error => ?_⟩ <;> rw [hresult]
    · simp only [Except.ok.injEq, Value.int.injEq]
      constructor
      · rintro ⟨_, rfl, rfl⟩
        exact ⟨hword, fits_toInt word⟩
      · rintro ⟨rfl, -⟩
        exact ⟨word, hword, rfl⟩
    · exact iff_of_false (fun he => nomatch he) fun he => he.2 h
  · have hresult : (Value.int a).negate = .error (.integerOverflow "-") := by
      simp only [Value.negate, fit?_eq_none_iff_not_fits.mpr h]
      rfl
    refine ⟨fun exact => ?_, fun error => ?_⟩ <;> rw [hresult]
    · refine iff_of_false (fun ⟨_, _, he⟩ => nomatch he) ?_
      rintro ⟨rfl, hfits⟩
      exact h hfits
    · rw [Except.error.injEq]
      exact ⟨fun he => ⟨he.symm, h⟩, fun he => he.1.symm⟩

/-- Operators on two integers give the exact result where it fits, name the overflow or the
division by zero where there is none, and where a quotient fits it is whole with its remainder. The
least integer by minus one has no remainder. -/
theorem exact_arithmetic (a b : Int64) :
    (∀ op : BinaryOp, op.Checks a b) ∧
      (b ≠ 0 → Fits (a.toInt.tdiv b.toInt) → BinaryOp.Recombines a b) ∧
      Negates a :=
  ⟨fun op => op.checks a b, BinaryOp.recombines, negates a⟩

end Integer

end Simian
