import Simian.Attempt
import Simian.Machine.Fault

/-!
# Calls in progress

A frame is a call in progress: the closure that runs, the offset of its next
instruction and the place of its first local slot on the value stack. The innermost
frame runs, and the outermost one is the unit itself. There are never more frames than
the limit allows.
-/
namespace Simian

structure Frame where
  /-- Identity of the closure. -/
  id : Nat
  body : CompiledFunction
  captured : List Value
  /-- Offset of the next instruction. -/
  ip : Nat
  /-- Place of the first local slot on the value stack. -/
  base : Nat
  deriving Inhabited

namespace Frame

/-- The closure that runs, as a value. -/
def closure (frame : Frame) : Value := .closure frame.id frame.body frame.captured

/-- The captured value of this number. -/
def capture (frame : Frame) (index : Nat) : Except Fault Value :=
  match frame.captured[index]? with
  | some value => .ok value
  | none => .error (.captureOutOfRange index)

end Frame

structure FrameStack where
  /-- The frames, the innermost first. -/
  frames : List Frame
  depth : Nat
  maxDepth : Nat
  depth_eq : depth = frames.length
  depth_le : depth ≤ maxDepth

namespace FrameStack

def empty (maxDepth : Nat) : FrameStack := ⟨[], 0, maxDepth, rfl, Nat.zero_le _⟩

instance : Inhabited FrameStack := ⟨empty 0⟩

def isEmpty (stack : FrameStack) : Bool := stack.frames.isEmpty

def push (frame : Frame) : Attempt Fault FrameStack Unit := fun stack =>
  match stack with
  | ⟨frames, depth, maxDepth, he, hl⟩ =>
    if hd : depth < maxDepth then
      (.ok (), ⟨frame :: frames, depth + 1, maxDepth, by rw [he, List.length_cons], hd⟩)
    else (.error .frameOverflow, ⟨frames, depth, maxDepth, he, hl⟩)

/-- Takes the innermost frame. -/
def pop (stack : FrameStack) : Option Frame × FrameStack :=
  match stack with
  | ⟨[], depth, maxDepth, he, hl⟩ => (none, ⟨[], depth, maxDepth, he, hl⟩)
  | ⟨frame :: frames, depth, maxDepth, he, hl⟩ =>
    (some frame, ⟨frames, depth - 1, maxDepth, by rw [he]; rfl, by omega⟩)

/-- The frame that runs. -/
def current? (stack : FrameStack) : Option Frame := stack.frames.head?

/-- Makes the running frame go on at the offset. -/
def jump (stack : FrameStack) (ip : Nat) : FrameStack :=
  match stack with
  | ⟨[], depth, maxDepth, he, hl⟩ => ⟨[], depth, maxDepth, he, hl⟩
  | ⟨frame :: frames, depth, maxDepth, he, hl⟩ =>
    ⟨{ frame with ip } :: frames, depth, maxDepth, he, hl⟩

def clear (stack : FrameStack) : FrameStack := empty stack.maxDepth

end FrameStack

end Simian
