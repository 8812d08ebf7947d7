import Simian.Machine.Stack

/-!
# The stack as a bounded list

What is done to a stack can be told of a list of at most `capacity` values, without slots
(`StackStep.onList`). Each operation comes to the same on both (`StackStep.commutes`), and so does
a sequence of them, of which any may fail. After it the values are in the lowest slots, and all
slots above them hold null, whatever was there before (`ValueStack.shows_all`).
-/
namespace Simian

/-- An operation that may change a stack. -/
inductive StackStep where
  | push (value : Value)
  | pop
  | set (place : Nat) (value : Value)
  | resize (size : Nat)
  | takeTop (count : Nat)
  | clear

namespace StackStep

/-- The operation on a stack, with the values that it gives back. -/
def onStack : StackStep → Attempt Fault ValueStack (List Value)
  | push value => do
    ValueStack.push value
    pure []
  | pop => do
    let value ← Attempt.modifyGet ValueStack.pop
    pure [value]
  | set place value => do
    ValueStack.set place value
    pure []
  | resize size => do
    ValueStack.resize size
    pure []
  | takeTop count => Attempt.modifyGet fun stack => stack.takeTop count
  | clear => do
    Attempt.modify ValueStack.clear
    pure []

/-- The operation on a list that never has more than `capacity` values. -/
def onList (capacity : Nat) : StackStep → List Value → Except Fault (List Value) × List Value
  | push value, values =>
    if values.length < capacity then (.ok [], values ++ [value])
    else (.error .stackOverflow, values)
  | pop, values => (.ok [values.getLast?.getD .null], values.dropLast)
  | set place value, values =>
    if place < values.length then (.ok [], values.set place value)
    else (.error .stackOverflow, values)
  | resize size, values =>
    if size ≤ capacity then
      (.ok [], values.take size ++ List.replicate (size - values.length) .null)
    else (.error .stackOverflow, values)
  | takeTop count, values =>
    (.ok (values.drop (values.length - count)), values.take (values.length - count))
  | clear, _ => (.ok [], [])

/-- One operation after the other, also after one that fails. -/
def all {σ : Type} (perform : StackStep → σ → Except Fault (List Value) × σ) :
    List StackStep → σ → List (Except Fault (List Value)) × σ
  | [], state => ([], state)
  | step :: rest, state =>
    let (outcome, between) := perform step state
    let (outcomes, last) := all perform rest between
    (outcome :: outcomes, last)

/-! ### One operation -/

/-- The operation comes to the same on the stack and on its list. There is as much room as before,
and where it fails nothing has changed. -/
inductive Commutes (step : StackStep) (stack : ValueStack) : Prop where
  | gives {given : List Value} {after : ValueStack}
    (done : step.onStack stack = (.ok given, after)) (room : after.capacity = stack.capacity)
    (listed : step.onList stack.capacity stack.toList = (.ok given, after.toList))
  | fails (failed : step.onStack stack = (.error .stackOverflow, stack))
    (listed : step.onList stack.capacity stack.toList = (.error .stackOverflow, stack.toList))

section
variable {stack : ValueStack}

/-- An operation that gives nothing back, and is done under a condition. -/
theorem commutes_of_condition {step : StackStep} {work : Attempt Fault ValueStack Unit} {c : Prop}
    [Decidable c] {values : List Value}
    (hstack : step.onStack = do work; pure [])
    (hlist : step.onList stack.capacity stack.toList =
      if c then (.ok [], values) else (.error .stackOverflow, stack.toList))
    (hdone : c → ∃ after, work stack = (.ok (), after) ∧ after.capacity = stack.capacity ∧
      after.toList = values)
    (hfailed : ¬c → work stack = (.error .stackOverflow, stack)) : step.Commutes stack := by
  by_cases h : c
  · obtain ⟨after, hwork, hroom, rfl⟩ := hdone h
    rw [if_pos h] at hlist
    exact .gives (hstack ▸ Attempt.bind_of_ok hwork) hroom hlist
  · rw [if_neg h] at hlist
    exact .fails (hstack ▸ Attempt.bind_of_error (hfailed h)) hlist

variable (stack)

theorem commutes_push (value : Value) : (push value).Commutes stack :=
  commutes_of_condition rfl (by rw [onList, stack.length_toList]) (ValueStack.toList_push value)
    (ValueStack.push_full value)

theorem commutes_pop : pop.Commutes stack := by
  have hpop : pop.onStack stack = (.ok [stack.pop.1], stack.pop.2) := rfl
  refine .gives hpop stack.capacity_pop ?_
  rw [onList, stack.pop_value, stack.toList_pop]

theorem commutes_set (place : Nat) (value : Value) : (set place value).Commutes stack :=
  commutes_of_condition rfl (by rw [onList, stack.length_toList]) (ValueStack.toList_set value)
    (ValueStack.set_full value)

theorem commutes_resize (size : Nat) : (resize size).Commutes stack :=
  commutes_of_condition rfl (by rw [onList, stack.length_toList]) ValueStack.toList_resize
    ValueStack.resize_full

theorem commutes_takeTop (count : Nat) : (takeTop count).Commutes stack := by
  have htake : (takeTop count).onStack stack =
      (.ok (stack.topValues count), stack.cut (stack.size - count)) := rfl
  refine .gives htake (stack.capacity_cut _) ?_
  rw [onList, stack.length_toList, stack.topValues_eq, stack.toList_cut]

theorem commutes_clear : clear.Commutes stack := by
  have hclear : clear.onStack stack = (.ok [], stack.clear) := rfl
  refine .gives hclear stack.capacity_clear ?_
  rw [onList, stack.toList_clear]

theorem commutes (step : StackStep) : step.Commutes stack := by
  cases step with
  | push value => exact commutes_push stack value
  | pop => exact commutes_pop stack
  | set place value => exact commutes_set stack place value
  | resize size => exact commutes_resize stack size
  | takeTop count => exact commutes_takeTop stack count
  | clear => exact commutes_clear stack

variable {stack}

theorem onList_eq (step : StackStep) : step.onList stack.capacity stack.toList =
    ((step.onStack stack).1, (step.onStack stack).2.toList) := by
  cases commutes stack step with
  | gives done _ listed => rw [done, listed]
  | fails failed listed => rw [failed, listed]

theorem capacity_onStack (step : StackStep) :
    (step.onStack stack).2.capacity = stack.capacity := by
  cases commutes stack step with
  | gives done room _ => rw [done, room]
  | fails failed _ => rw [failed]

/-- The one way to fail, and nothing has changed then. -/
theorem of_error {step : StackStep} {fault : Fault} (h : (step.onStack stack).1 = .error fault) :
    fault = .stackOverflow ∧ (step.onStack stack).2 = stack := by
  cases commutes stack step with
  | gives done _ _ =>
    rw [done] at h
    cases h
  | fails failed _ =>
    rw [failed] at h ⊢
    cases h
    exact ⟨rfl, rfl⟩

/-! ### Any number of operations -/

variable (stack)

theorem capacity_all (steps : List StackStep) :
    (all onStack steps stack).2.capacity = stack.capacity := by
  induction steps generalizing stack with
  | nil => rfl
  | cons step rest ih => exact (ih _).trans (capacity_onStack step)

theorem all_onList (steps : List StackStep) : all (onList stack.capacity) steps stack.toList =
    ((all onStack steps stack).1, (all onStack steps stack).2.toList) := by
  induction steps generalizing stack with
  | nil => rfl
  | cons step rest ih =>
    -- the rest starts from another stack, with as much room
    have hrest := ih (step.onStack stack).2
    rw [capacity_onStack] at hrest
    simp only [all, onList_eq, hrest]

end

end StackStep

namespace ValueStack

/-- The stack shows these values, and there is room for `capacity` of them. -/
structure Shows (stack : ValueStack) (capacity : Nat) (values : List Value) : Prop where
  room : stack.capacity = capacity
  length_le : values.length ≤ capacity
  size : stack.size = values.length
  /-- Nothing else is kept of what was done before. -/
  whole : stack = ofList values capacity
  occupied : ∀ place < values.length, stack.slots[place]? = values[place]?
  vacant : ∀ place, stack.size ≤ place → place < capacity → stack.slots[place]? = some .null
  top : stack.top? = values.getLast?
  peek : ∀ distance, stack.peek? distance = values.reverse[distance]?
  get : ∀ place, stack.get place = values.getD place .null
  topValues : ∀ count, stack.topValues count = values.drop (values.length - count)
  /-- What cannot be done leaves the stack as it is. -/
  unchanged : ∀ (step : StackStep) (fault : Fault), (step.onStack stack).1 = .error fault →
    fault = .stackOverflow ∧ (step.onStack stack).2 = stack

theorem shows_toList (stack : ValueStack) : stack.Shows stack.capacity stack.toList where
  room := rfl
  length_le := stack.length_toList ▸ stack.size_le_capacity
  size := stack.length_toList.symm
  whole := stack.eq_ofList
  occupied place h := by
    rw [stack.length_toList] at h
    rw [stack.getElem?_toList, if_pos h]
  vacant place := stack.vacant place
  top := stack.top?_eq
  peek distance := by
    rw [stack.peek?_eq, ← stack.length_toList]
    split
    next h =>
      rw [List.getElem?_reverse h]
      congr 1
      omega
    next h =>
      have hout : stack.toList.reverse.length ≤ distance := by
        rw [List.length_reverse]
        exact Nat.le_of_not_lt h
      exact (List.getElem?_eq_none hout).symm
  get place := by
    rw [stack.get_eq, List.getD_eq_getElem?_getD]
  topValues count := by
    rw [stack.topValues_eq, stack.length_toList]
  unchanged step fault h := StackStep.of_error h

/-- A value that was dropped does not come back when the stack grows over its slot. -/
example : (StackStep.all StackStep.onStack [.push (.int 7), .resize 3, .set 2 (.int 9), .resize 1,
    .resize 3] (empty 4)).2.toList = [.int 7, .null, .null] := rfl

end ValueStack

end Simian
