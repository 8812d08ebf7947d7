import Simian.Machine.Stack

/-!
# The value stack in memory

A block of memory has a fixed number of cells and a height: the cells below the height are
in use. Cells are read, written and cut out by place, and nothing looks first whether a
place lies in the block. An access outside of it has no outcome (`none`), and so has a
difference of two numbers that would be negative. The operations of the value stack are
written here as accesses of this kind, with no other checks than those that decide what an
operation does.

`Memory.holding` is the block that has a list of values and null in every other cell. On
such a block each operation has an outcome, which is that of the list and again a block of
this form.
-/
namespace Simian

/-- The difference of two numbers of a kind that is never negative. -/
def minus (a b : Nat) : Option Nat := if b ≤ a then some (a - b) else none

structure Memory where
  cells : List Value
  /-- Number of cells in use. -/
  height : Nat

namespace Memory

/-! ### Accesses by place -/

def read (memory : Memory) (place : Nat) : Option Value := memory.cells[place]?

def write (memory : Memory) (place : Nat) (value : Value) : Option Memory :=
  if place < memory.cells.length then some { memory with cells := memory.cells.set place value }
  else none

/-- The cells from `start` up to `stop`. -/
def slice (memory : Memory) (start stop : Nat) : Option (List Value) :=
  if start ≤ stop ∧ stop ≤ memory.cells.length then some ((memory.cells.take stop).drop start)
  else none

/-- Makes the cells from `start` up to `stop` null. -/
def wipe (memory : Memory) (start stop : Nat) : Option Memory :=
  if start ≤ stop ∧ stop ≤ memory.cells.length then
    some { memory with
      cells := memory.cells.take start ++ List.replicate (stop - start) .null ++
        memory.cells.drop stop }
  else none

/-! ### Operations of the stack -/

def push (value : Value) (memory : Memory) : Option (Except Fault Unit × Memory) :=
  if memory.height < memory.cells.length then do
    let memory ← memory.write memory.height value
    return (.ok (), { memory with height := memory.height + 1 })
  else some (.error .stackOverflow, memory)

def pop (memory : Memory) : Option (Value × Memory) :=
  if memory.height = 0 then some (.null, memory)
  else do
    let top ← minus memory.height 1
    let value ← memory.read top
    let memory ← memory.write top .null
    return (value, { memory with height := top })

/-- The value `distance` places below the top. -/
def peek? (memory : Memory) (distance : Nat) : Option (Option Value) :=
  if distance + 1 ≤ memory.height then do
    let value ← memory.read (memory.height - (distance + 1))
    return some value
  else some none

def get (memory : Memory) (place : Nat) : Option Value :=
  if place < memory.height then memory.read place else some .null

def set (place : Nat) (value : Value) (memory : Memory) : Option (Except Fault Unit × Memory) :=
  if memory.height ≤ place then some (.error .stackOverflow, memory)
  else do
    let memory ← memory.write place value
    return (.ok (), memory)

/-- The top `count` values, or all there are. -/
def topValues (memory : Memory) (count : Nat) : Option (List Value) :=
  memory.slice (memory.height - count) memory.height

def takeTop (count : Nat) (memory : Memory) : Option (List Value × Memory) := do
  let start := memory.height - count
  let values ← memory.slice start memory.height
  let memory ← memory.wipe start memory.height
  return (values, { memory with height := start })

def resize (height : Nat) (memory : Memory) : Option (Except Fault Unit × Memory) :=
  if memory.cells.length < height then some (.error .stackOverflow, memory)
  else if height < memory.height then do
    let memory ← memory.wipe height memory.height
    return (.ok (), { memory with height })
  else some (.ok (), { memory with height })

def clear (memory : Memory) : Option Memory := do
  let memory ← memory.wipe 0 memory.height
  return { memory with height := 0 }

/-! ### Blocks that hold a list -/

/-- The block of this size with the values in its lowest cells and null in the others. -/
def holding (values : List Value) (size : Nat) : Memory :=
  ⟨values ++ List.replicate (size - values.length) .null, values.length⟩

section
variable {values : List Value} {size : Nat}

theorem length_cells (h : values.length ≤ size) : (holding values size).cells.length = size := by
  simp only [holding, List.length_append, List.length_replicate]
  omega

theorem read_holding {place : Nat} (hp : place < values.length) :
    (holding values size).read place = values[place]? := by
  simp only [read, holding]
  rw [List.getElem?_append_left hp]

theorem slice_holding (h : values.length ≤ size) (count : Nat) :
    (holding values size).slice (values.length - count) values.length =
      some (values.drop (values.length - count)) := by
  have hc := length_cells h
  rw [slice, if_pos ⟨by omega, by omega⟩]
  simp [holding]

/-- Making the upper values null leaves a block that holds the lower ones. -/
theorem wipe_holding (h : values.length ≤ size) {height : Nat} (hh : height ≤ values.length) :
    (holding values size).wipe height values.length =
      some { holding (values.take height) size with height := values.length } := by
  have hc := length_cells h
  have hlength : (values.take height).length = height := by
    rw [List.length_take]
    omega
  rw [wipe, if_pos ⟨hh, by omega⟩]
  simp only [holding, hlength, Option.some.injEq, mk.injEq, and_true]
  rw [List.take_append_of_le_length hh, List.drop_left, List.append_assoc,
    List.replicate_append_replicate]
  congr 2
  omega

theorem push_holding (h : values.length ≤ size) (value : Value) :
    (holding values size).push value = some
      (if values.length < size then (.ok (), holding (values ++ [value]) size)
      else (.error .stackOverflow, holding values size)) := by
  have hc := length_cells h
  have hheight : (holding values size).height = values.length := rfl
  by_cases hroom : values.length < size
  · rw [push, hheight, hc, if_pos hroom, if_pos hroom, write, hc, if_pos hroom]
    simp only [Option.bind_eq_bind, Option.bind_some, Option.pure_def, Option.some.injEq,
      Prod.mk.injEq, true_and]
    obtain ⟨room, hr⟩ : ∃ room, size - values.length = room + 1 :=
      ⟨size - values.length - 1, by omega⟩
    have hless : size - (values.length + 1) = room := by omega
    simp [holding, hr, hless, List.replicate_succ]
  · rw [push, hheight, hc, if_neg hroom, if_neg hroom]

theorem pop_holding (h : values.length ≤ size) : (holding values size).pop =
    some (values.getLast?.getD .null, holding values.dropLast size) := by
  have hc := length_cells h
  have hheight : (holding values size).height = values.length := rfl
  by_cases hempty : values = []
  · subst hempty
    rfl
  · have hpos := List.length_pos_iff.mpr hempty
    have hlast : values[values.length - 1]? = some (values.getLast hempty) := by
      rw [List.getElem?_eq_getElem (by omega), List.getLast_eq_getElem]
    rw [pop, hheight, if_neg (by omega), minus, if_pos (by omega)]
    simp only [Option.bind_eq_bind, Option.bind_some, Option.pure_def]
    rw [read_holding (by omega), hlast, write, hc, if_pos (by omega)]
    simp only [Option.bind_some, List.getLast?_eq_some_getLast hempty, Option.getD_some,
      Option.some.injEq, Prod.mk.injEq, true_and]
    obtain ⟨front, last, rfl⟩ := List.eq_nil_or_concat values |>.resolve_left hempty
    rw [List.length_concat] at h
    obtain ⟨room, hr⟩ : ∃ room, size - front.length = room + 1 :=
      ⟨size - front.length - 1, by omega⟩
    have hless : size - (front.length + 1) = room := by omega
    simp [holding, hr, hless, List.replicate_succ]

/-- A height past the last cell leaves `pop` without an outcome. -/
example : pop ⟨[], 1⟩ = none := rfl

theorem peek?_holding (distance : Nat) : (holding values size).peek? distance =
    some (if distance < values.length then values[values.length - (distance + 1)]? else none) := by
  have hheight : (holding values size).height = values.length := rfl
  by_cases hd : distance < values.length
  · rw [peek?, hheight, if_pos (show distance + 1 ≤ values.length from hd), if_pos hd,
      read_holding (by omega),
      List.getElem?_eq_getElem (by omega)]
    rfl
  · rw [peek?, hheight, if_neg (show ¬distance + 1 ≤ values.length from hd), if_neg hd]

theorem get_holding (place : Nat) :
    (holding values size).get place = some ((values[place]?).getD .null) := by
  have hheight : (holding values size).height = values.length := rfl
  by_cases hp : place < values.length
  · rw [get, hheight, if_pos hp, read_holding hp, List.getElem?_eq_getElem hp]
    rfl
  · rw [get, hheight, if_neg hp, List.getElem?_eq_none (by omega)]
    rfl

theorem set_holding (h : values.length ≤ size) (place : Nat) (value : Value) :
    (holding values size).set place value = some
      (if place < values.length then (.ok (), holding (values.set place value) size)
      else (.error .stackOverflow, holding values size)) := by
  have hc := length_cells h
  have hheight : (holding values size).height = values.length := rfl
  by_cases hp : place < values.length
  · rw [set, hheight, if_neg (by omega), if_pos hp, write, hc, if_pos (by omega)]
    simp [holding, List.set_append_left _ _ hp]
  · rw [set, hheight, if_pos (by omega), if_neg hp]

theorem topValues_holding (h : values.length ≤ size) (count : Nat) :
    (holding values size).topValues count = some (values.drop (values.length - count)) :=
  slice_holding h count

theorem takeTop_holding (h : values.length ≤ size) (count : Nat) :
    (holding values size).takeTop count =
      some (values.drop (values.length - count),
        holding (values.take (values.length - count)) size) := by
  have hheight : (holding values size).height = values.length := rfl
  rw [takeTop, hheight, slice_holding h]
  simp only [Option.bind_eq_bind, Option.bind_some, Option.pure_def]
  rw [wipe_holding h (by omega)]
  simp [holding]

theorem resize_holding (h : values.length ≤ size) (height : Nat) :
    (holding values size).resize height = some
      (if height ≤ size then (.ok (), holding
        (values.take height ++ List.replicate (height - values.length) .null) size)
      else (.error .stackOverflow, holding values size)) := by
  have hc := length_cells h
  have hheight : (holding values size).height = values.length := rfl
  by_cases hroom : height ≤ size
  · rw [resize, hc, if_neg (by omega), if_pos hroom, hheight]
    by_cases hlow : height < values.length
    · rw [if_pos hlow, wipe_holding h (by omega), Nat.sub_eq_zero_of_le (by omega)]
      simp [holding, Nat.min_eq_left (Nat.le_of_lt hlow)]
    · rw [if_neg hlow, List.take_of_length_le (by omega)]
      have hcells : size - values.length = (height - values.length) + (size - height) := by omega
      have hlength : values.length + (height - values.length) = height := by omega
      simp [holding, hcells, hlength, List.append_assoc, List.replicate_append_replicate]
  · rw [resize, hc, if_pos (by omega), if_neg hroom]

theorem clear_holding (h : values.length ≤ size) :
    (holding values size).clear = some (holding [] size) := by
  have hheight : (holding values size).height = values.length := rfl
  rw [clear, hheight, wipe_holding h (Nat.zero_le _)]
  rfl

end

end Memory

end Simian
