import Simian.Attempt
import Simian.Machine.Fault

/-!
# The value stack

A block of slots, one for each value there is room for, and the number of values, which
are in the lowest slots. Every slot above them holds `null`: what takes a value off the
stack makes its slot null again. The stack can therefore be made higher by counting in
slots that are there already. Reading where there is no value gives `null`, and so does
taking from an empty stack. An operation that fails leaves the stack as it was.
`ValueStack.toList` is the stack from the bottom to the top, and each operation below has
one equation that says what it does to that list.
-/
namespace Simian

namespace ValueStack

/-! ### Slots without a value -/

/-- From this place on, the slots hold nothing but null. -/
def Vacant (slots : Array Value) (start : Nat) : Prop :=
  ∀ place, start ≤ place → place < slots.size → slots[place]? = some .null

/-- Makes this many slots null, from a place on. -/
def wipe (slots : Array Value) (start : Nat) : (count : Nat) → Array Value
  | 0 => slots
  | count + 1 => wipe (slots.setIfInBounds start .null) (start + 1) count

section
variable {slots : Array Value} {start stop : Nat}

theorem vacant_replicate (capacity : Nat) : Vacant (Array.replicate capacity .null) 0 := by
  intro place _ h
  rw [Array.getElem?_replicate, if_pos (by rwa [Array.size_replicate] at h)]

theorem vacant_padded (values : List Value) (count : Nat) :
    Vacant (values ++ List.replicate count Value.null).toArray values.length := by
  intro place hplace h
  rw [List.size_toArray, List.length_append, List.length_replicate] at h
  rw [List.getElem?_toArray, List.getElem?_append_right hplace, List.getElem?_replicate,
    if_pos (by omega)]

theorem Vacant.mono (h : Vacant slots start) (hle : start ≤ stop) : Vacant slots stop :=
  fun place hplace => h place (Nat.le_trans hle hplace)

/-- Below the slots that are null, any slot may be written. -/
theorem Vacant.set (h : Vacant slots start) {place : Nat} (hlow : place < start) (value : Value)
    (hp : place < slots.size) : Vacant (slots.set place value hp) start := by
  intro other hother hsize
  rw [Array.size_set] at hsize
  rw [Array.getElem?_set_ne hp (by omega)]
  exact h other hother hsize

/-- The slots that are null are one more when the slot before them is made null. -/
theorem Vacant.set_null (h : Vacant slots (start + 1)) (hp : start < slots.size) :
    Vacant (slots.set start .null hp) start := by
  intro other hother hsize
  rw [Array.size_set] at hsize
  rw [Array.getElem?_set]
  split
  next => rfl
  next hne => exact h other (by omega) hsize

theorem size_wipe (slots : Array Value) (start count : Nat) :
    (wipe slots start count).size = slots.size := by
  induction count generalizing slots start with
  | zero => rfl
  | succ count ih => rw [wipe, ih, Array.size_setIfInBounds]

theorem getElem?_wipe (slots : Array Value) (start count place : Nat) :
    (wipe slots start count)[place]? =
      if start ≤ place ∧ place < start + count ∧ place < slots.size then some .null
      else slots[place]? := by
  induction count generalizing slots start with
  | zero => rw [if_neg (by omega), wipe]
  | succ count ih =>
    rw [wipe, ih, Array.size_setIfInBounds, Array.getElem?_setIfInBounds]
    grind

theorem Vacant.wipe {count : Nat} (h : Vacant slots (start + count)) :
    Vacant (wipe slots start count) start := by
  intro place hplace hsize
  rw [size_wipe] at hsize
  rw [getElem?_wipe]
  split
  next => rfl
  next hout => exact h place (by omega) hsize

end

end ValueStack

@[ext] structure ValueStack where
  slots : Array Value
  /-- Number of values. They are in the lowest slots, from the bottom to the top. -/
  size : Nat
  size_le : size ≤ slots.size
  vacant : ValueStack.Vacant slots size

namespace ValueStack

/-- An empty stack with room for this many values. -/
def empty (capacity : Nat) : ValueStack where
  slots := Array.replicate capacity .null
  size := 0
  size_le := Nat.zero_le _
  vacant := vacant_replicate capacity

/-- The stack of these values, from the bottom to the top, with room for `capacity` of them. If
they are more, there is room for no others. -/
def ofList (values : List Value) (capacity : Nat) : ValueStack where
  slots := (values ++ List.replicate (capacity - values.length) Value.null).toArray
  size := values.length
  size_le := by rw [List.size_toArray, List.length_append]; exact Nat.le_add_right ..
  vacant := vacant_padded values _

instance : Inhabited ValueStack := ⟨empty 0⟩

/-- Number of values there is room for. -/
def capacity (stack : ValueStack) : Nat := stack.slots.size

def toList (stack : ValueStack) : List Value := stack.slots.toList.take stack.size

def push (value : Value) : Attempt Fault ValueStack Unit := fun stack =>
  match stack with
  | ⟨slots, size, hsize, hvacant⟩ =>
    if hroom : size < slots.size then
      (.ok (), ⟨slots.set size value hroom, size + 1, by rwa [Array.size_set],
        (hvacant.mono (Nat.le_succ size)).set (Nat.lt_succ_self size) value hroom⟩)
    else (.error .stackOverflow, ⟨slots, size, hsize, hvacant⟩)

/-- Takes the top value. -/
def pop (stack : ValueStack) : Value × ValueStack :=
  match stack with
  | ⟨slots, 0, hsize, hvacant⟩ => (.null, ⟨slots, 0, hsize, hvacant⟩)
  | ⟨slots, size + 1, hsize, hvacant⟩ =>
    let value := slots[size]
    (value, ⟨slots.set size .null, size, by rw [Array.size_set]; exact Nat.le_of_succ_le hsize,
      hvacant.set_null hsize⟩)

def top? (stack : ValueStack) : Option Value :=
  if stack.size = 0 then none else stack.slots[stack.size - 1]?

/-- The value `distance` places below the top. -/
def peek? (stack : ValueStack) (distance : Nat) : Option Value :=
  if distance < stack.size then stack.slots[stack.size - (distance + 1)]? else none

/-- The value at a place counted from the bottom. -/
def get (stack : ValueStack) (place : Nat) : Value :=
  if h : place < stack.size then
    have hplace : place < stack.slots.size := Nat.lt_of_lt_of_le h stack.size_le
    stack.slots[place]
  else .null

/-- Replaces the value at a place that holds one. -/
def set (place : Nat) (value : Value) : Attempt Fault ValueStack Unit := fun stack =>
  match stack with
  | ⟨slots, size, hsize, hvacant⟩ =>
    if hp : place < size then
      have hroom := Nat.lt_of_lt_of_le hp hsize
      (.ok (), ⟨slots.set place value, size, by rwa [Array.size_set], hvacant.set hp value hroom⟩)
    else (.error .stackOverflow, ⟨slots, size, hsize, hvacant⟩)

/-- The top `count` values, the lowest first, or all there are. -/
def topValues (stack : ValueStack) (count : Nat) : List Value :=
  (stack.slots.extract (stack.size - count) stack.size).toList

/-- Drops values until `size` are left, if there are more. -/
def cut (stack : ValueStack) (size : Nat) : ValueStack :=
  match stack with
  | ⟨slots, used, hused, hvacant⟩ =>
    if hlow : size < used then
      ⟨wipe slots size (used - size), size,
        by rw [size_wipe]; exact Nat.le_of_lt (Nat.lt_of_lt_of_le hlow hused),
        Vacant.wipe (by rwa [Nat.add_sub_of_le (Nat.le_of_lt hlow)])⟩
    else ⟨slots, used, hused, hvacant⟩

/-- Takes the top `count` values, the lowest first, or all there are. -/
def takeTop (stack : ValueStack) (count : Nat) : List Value × ValueStack :=
  let values := stack.topValues count
  let size := stack.size - count
  (values, stack.cut size)

/-- Makes the stack `size` values high: drops the values above, or counts in the nulls that are in
the slots above. -/
def resize (size : Nat) : Attempt Fault ValueStack Unit := fun stack =>
  match stack with
  | ⟨slots, used, hused, hvacant⟩ =>
    if hroom : size ≤ slots.size then
      if hlow : size < used then (.ok (), cut ⟨slots, used, hused, hvacant⟩ size)
      else (.ok (), ⟨slots, size, hroom, hvacant.mono (Nat.le_of_not_lt hlow)⟩)
    else (.error .stackOverflow, ⟨slots, used, hused, hvacant⟩)

def clear (stack : ValueStack) : ValueStack := stack.cut 0

/-! ### The stack as a list -/

section
variable (stack : ValueStack)

@[simp] theorem capacity_empty (capacity : Nat) : (empty capacity).capacity = capacity :=
  Array.size_replicate

theorem size_le_capacity : stack.size ≤ stack.capacity := stack.size_le

theorem toList_empty (capacity : Nat) : (empty capacity).toList = [] := rfl

theorem length_toList : stack.toList.length = stack.size := by
  rw [toList, List.length_take, Array.length_toList]
  exact Nat.min_eq_left stack.size_le

theorem getElem?_toList (place : Nat) :
    stack.toList[place]? = if place < stack.size then stack.slots[place]? else none := by
  rw [toList, List.getElem?_take, Array.getElem?_toList]

/-- The slots are the values and the nulls above them. -/
theorem slots_eq : stack.slots.toList =
    stack.toList ++ List.replicate (stack.capacity - stack.size) .null := by
  have hsize := stack.size_le
  refine List.ext_getElem? fun place => ?_
  rw [Array.getElem?_toList, List.getElem?_append, length_toList, getElem?_toList]
  split
  next => rfl
  next hout =>
    rw [List.getElem?_replicate]
    by_cases hplace : place < stack.slots.size
    · rw [stack.vacant place (by omega) hplace, if_pos (by unfold capacity; omega)]
    · rw [Array.getElem?_eq_none (by omega), if_neg (by unfold capacity; omega)]

/-- A stack is nothing but its list and its room. -/
theorem eq_ofList : stack = ofList stack.toList stack.capacity := by
  refine ValueStack.ext (Array.ext' ?_) stack.length_toList.symm
  rw [slots_eq, ← length_toList]
  rfl

end

theorem toList_push {stack : ValueStack} (value : Value) (h : stack.size < stack.capacity) :
    ∃ after, push value stack = (.ok (), after) ∧ after.capacity = stack.capacity ∧
      after.toList = stack.toList ++ [value] := by
  obtain ⟨slots, size, hsize, hvacant⟩ := stack
  have h : size < slots.size := h
  simp only [push, dif_pos h]
  refine ⟨_, rfl, Array.size_set h, ?_⟩
  simp only [toList, Array.toList_set]
  rw [List.take_add_one, List.take_set_of_le (Nat.le_refl size), List.getElem?_set_self (by simpa)]
  rfl

theorem push_full {stack : ValueStack} (value : Value) (h : ¬stack.size < stack.capacity) :
    push value stack = (.error .stackOverflow, stack) := by
  obtain ⟨slots, size, hsize, hvacant⟩ := stack
  have h : ¬size < slots.size := h
  simp only [push, dif_neg h]

theorem capacity_pop (stack : ValueStack) : stack.pop.2.capacity = stack.capacity := by
  obtain ⟨slots, _ | size, hsize, hvacant⟩ := stack
  · rfl
  · exact Array.size_set hsize

theorem toList_pop (stack : ValueStack) : stack.pop.2.toList = stack.toList.dropLast := by
  obtain ⟨slots, _ | size, hsize, hvacant⟩ := stack
  · rfl
  · simp only [pop, toList, Array.toList_set]
    rw [List.take_set_of_le (Nat.le_refl size), List.take_add_one,
      List.getElem?_eq_getElem (by simpa), Option.toList_some, List.dropLast_concat]

theorem pop_value (stack : ValueStack) : stack.pop.1 = stack.toList.getLast?.getD .null := by
  obtain ⟨slots, _ | size, hsize, hvacant⟩ := stack
  · rfl
  · have hlast : slots[size]? = some slots[size] := Array.getElem?_eq_getElem hsize
    simp [pop, toList, List.getLast?_take, hlast]

theorem top?_eq (stack : ValueStack) : stack.top? = stack.toList.getLast? := by
  rw [List.getLast?_eq_getElem?, length_toList, getElem?_toList, top?]
  by_cases h : stack.size = 0
  · rw [if_pos h, if_neg (by omega)]
  · rw [if_neg h, if_pos (by omega)]

theorem peek?_eq (stack : ValueStack) (distance : Nat) : stack.peek? distance =
    if distance < stack.size then stack.toList[stack.size - (distance + 1)]? else none := by
  rw [peek?]
  split
  next h => rw [getElem?_toList, if_pos (by omega)]
  next => rfl

theorem get_eq (stack : ValueStack) (place : Nat) :
    stack.get place = (stack.toList[place]?).getD .null := by
  rw [get, getElem?_toList]
  split
  next h => rw [Array.getElem?_eq_getElem]; rfl
  next => rfl

theorem topValues_eq (stack : ValueStack) (count : Nat) :
    stack.topValues count = stack.toList.drop (stack.size - count) := by
  rw [topValues, toList, Array.toList_extract, List.extract_eq_take_drop, List.drop_take]

theorem capacity_cut (stack : ValueStack) (size : Nat) :
    (stack.cut size).capacity = stack.capacity := by
  obtain ⟨slots, used, hused, hvacant⟩ := stack
  simp only [cut]
  split
  next => exact size_wipe ..
  next => rfl

theorem toList_cut (stack : ValueStack) (size : Nat) :
    (stack.cut size).toList = stack.toList.take size := by
  obtain ⟨slots, used, hused, hvacant⟩ := stack
  refine List.ext_getElem? fun place => ?_
  rw [List.getElem?_take, getElem?_toList, getElem?_toList]
  simp only [cut]
  split
  next hlow =>
    rw [getElem?_wipe]
    grind
  next => grind

theorem toList_resize {stack : ValueStack} {size : Nat} (h : size ≤ stack.capacity) :
    ∃ after, resize size stack = (.ok (), after) ∧ after.capacity = stack.capacity ∧
      after.toList = stack.toList.take size ++ List.replicate (size - stack.size) .null := by
  have hslots := stack.slots_eq
  have hlength := stack.length_toList
  obtain ⟨slots, used, hused, hvacant⟩ := stack
  simp only [resize, dif_pos (show size ≤ slots.size from h)]
  split
  next hlow =>
    refine ⟨_, rfl, capacity_cut .., ?_⟩
    rw [toList_cut, Nat.sub_eq_zero_of_le (Nat.le_of_lt hlow)]
    exact (List.append_nil _).symm
  next hhigh =>
    refine ⟨_, rfl, rfl, ?_⟩
    -- the new values are the lowest of the nulls above
    rw [toList, hslots, List.take_append, hlength, List.take_replicate]
    congr 2
    exact Nat.min_eq_left (Nat.sub_le_sub_right h used)

theorem resize_full {stack : ValueStack} {size : Nat} (h : ¬size ≤ stack.capacity) :
    resize size stack = (.error .stackOverflow, stack) := by
  obtain ⟨slots, used, hused, hvacant⟩ := stack
  simp only [resize, dif_neg (show ¬size ≤ slots.size from h)]

theorem toList_set {stack : ValueStack} {place : Nat} (value : Value) (h : place < stack.size) :
    ∃ after, set place value stack = (.ok (), after) ∧ after.capacity = stack.capacity ∧
      after.toList = stack.toList.set place value := by
  obtain ⟨slots, size, hsize, hvacant⟩ := stack
  have h : place < size := h
  simp only [set, dif_pos h]
  refine ⟨_, rfl, Array.size_set (Nat.lt_of_lt_of_le h hsize), ?_⟩
  simp only [toList, Array.toList_set, List.take_set]

theorem set_full {stack : ValueStack} {place : Nat} (value : Value) (h : ¬place < stack.size) :
    set place value stack = (.error .stackOverflow, stack) := by
  obtain ⟨slots, size, hsize, hvacant⟩ := stack
  have h : ¬place < size := h
  simp only [set, dif_neg h]

theorem capacity_clear (stack : ValueStack) : stack.clear.capacity = stack.capacity :=
  stack.capacity_cut 0

theorem toList_clear (stack : ValueStack) : stack.clear.toList = [] := stack.toList_cut 0

end ValueStack

end Simian
