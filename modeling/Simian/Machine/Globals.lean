import Simian.Attempt
import Simian.Machine.Fault

/-!
# Global slots

The slots of the top-level names. They outlive the runs that write them. A slot that
was never written reads as `null`, and a number past the capacity is no slot.
-/
namespace Simian

structure Globals where
  /-- The slots up to the last one written. -/
  slots : Array Value
  capacity : Nat
  deriving Inhabited

namespace Globals

/-- Slots that an operand of two bytes can name. -/
def defaultCapacity : Nat := 65536

def empty (capacity : Nat) : Globals := ⟨#[], capacity⟩

/-- Number of slots up to the last one written. -/
def size (globals : Globals) : Nat := globals.slots.size

def get (globals : Globals) (index : Nat) : Except Fault Value :=
  if globals.capacity ≤ index then .error (.globalOutOfRange index)
  else .ok ((globals.slots[index]?).getD .null)

def set (index : Nat) (value : Value) : Attempt Fault Globals Unit := fun globals =>
  match globals with
  | ⟨slots, capacity⟩ =>
    if capacity ≤ index then (.error (.globalOutOfRange index), ⟨slots, capacity⟩)
    else
      let slots := slots ++ List.replicate (index + 1 - slots.size) Value.null
      (.ok (), ⟨slots.setIfInBounds index value, capacity⟩)

end Globals

end Simian
