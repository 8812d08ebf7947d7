import Simian.Bytecode.Compiler
import Simian.Proofs.Decoding

/-!
# What instructions take and give

An instruction takes values from the stack, gives at most one and goes on at some
offsets. `Code.Balanced` follows these effects through code: on every way from an offset
with some number of values there are always enough of them, until the code returns or
reaches its end with a number of values that is allowed there.

`Verified` is what a function body has to satisfy to run: it is balanced and never
reaches its end, its operands are within their bounds, its jumps go forward to instructions
and the functions that it makes closures of are verified for the values they capture.
-/
namespace Simian

namespace Instruction

/-- How many values the instruction takes from the stack. -/
def takes (instruction : Instruction) : Nat :=
  match instruction.opcode with
  | .constant | .pushTrue | .pushFalse | .pushNull | .getGlobal | .getLocal | .getBuiltin
  | .getFree | .currentClosure | .jump | .returnNull => 0
  | .pop | .setGlobal | .setLocal | .minus | .bang | .jumpNotTruthy | .returnValue => 1
  | .add | .sub | .mul | .div | .mod | .equal | .notEqual | .greaterThan | .greaterEqual
  | .lessThan | .lessEqual | .index => 2
  | .array | .hash => instruction.operand 0
  | .call => instruction.operand 0 + 1
  | .closure => instruction.operand 1

/-- How many values the instruction puts on the stack. -/
def gives (instruction : Instruction) : Nat :=
  match instruction.opcode with
  | .pop | .setGlobal | .setLocal | .jumpNotTruthy | .jump | .returnValue | .returnNull => 0
  | _ => 1

/-- Where the same code can go on after the instruction at the offset. -/
def successors (instruction : Instruction) (offset : Nat) : List Nat :=
  match instruction.opcode with
  | .jump => [instruction.operand 0]
  | .jumpNotTruthy => [offset + instruction.size, instruction.operand 0]
  | .returnValue | .returnNull => []
  | _ => [offset + instruction.size]

/-- The code goes on behind the offset of the instruction, wherever it goes on. -/
def Forward (instruction : Instruction) (offset : Nat) : Prop :=
  ∀ next ∈ instruction.successors offset, offset < next

theorem forward_of_next {instruction : Instruction} {offset : Nat}
    (h : instruction.successors offset = [offset + instruction.size]) :
    instruction.Forward offset := by
  intro next hnext
  rw [h, List.mem_singleton] at hnext
  have hpos := instruction.size_pos
  omega

/-- The operands are good for this pool, this code, this many local slots and this many captured
values, and the running closure is named in functions only. -/
def Legal (instruction : Instruction) (pool : Array Value) (code : Code) (locals captures : Nat)
    (inFunction : Bool) : Prop :=
  match instruction.opcode with
  | .constant => ∃ value, pool[instruction.operand 0]? = some value ∧
      (value.kind = .integer ∨ value.kind = .string)
  | .getGlobal | .setGlobal => instruction.operand 0 < maxGlobals
  | .getLocal | .setLocal => instruction.operand 0 < locals
  | .getBuiltin => ∃ builtin, Builtin.ofIndex? (instruction.operand 0) = some builtin
  | .getFree => instruction.operand 0 < captures
  | .jump | .jumpNotTruthy => code.Boundary (instruction.operand 0)
  | .currentClosure => inFunction = true
  | .closure => ∃ id body, pool[instruction.operand 0]? = some (.compiled id body)
  | _ => True

end Instruction

namespace Code

variable {code : Code}

/-! ### Boundaries -/

theorem size_le_of_readNumberFrom {offset value width number : Nat}
    (h : readNumberFrom code offset value width = some number) (hw : offset ≤ code.size) :
    offset + width ≤ code.size := by
  induction width generalizing offset value with
  | zero => exact hw
  | succ width ih =>
    rw [readNumberFrom] at h
    split at h
    next byte hb =>
      have hlt := (Array.getElem?_eq_some_iff.mp hb).1
      have := ih h hlt
      omega
    · cases h

theorem size_le_of_readNumbers {offset : Nat} {widths numbers : List Nat}
    (h : readNumbers code offset widths = some numbers) (hw : offset ≤ code.size) :
    offset + Opcode.bytesOf widths ≤ code.size := by
  induction widths generalizing offset numbers with
  | nil => exact hw
  | cons width rest ih =>
    rw [readNumbers] at h
    split at h
    next number hn =>
      obtain ⟨tail, ht, _⟩ := Option.map_eq_some_iff.mp h
      have := ih ht (size_le_of_readNumberFrom hn hw)
      rw [Opcode.bytesOf]
      omega
    · cases h

/-- An instruction lies in the code as a whole. -/
theorem Holds.next_le {offset : Nat} {instruction : Instruction}
    (h : code.Holds offset instruction) : offset + instruction.size ≤ code.size := by
  have hlt := h.lt_size
  unfold Holds decode? at h
  split at h
  · cases h
  next byte hb =>
    split at h
    · cases h
    next op hop =>
      split at h
      next operands hr =>
        cases h
        have := size_le_of_readNumbers hr hlt
        show offset + (1 + Opcode.bytesOf op.widths) ≤ code.size
        omega
      · cases h

theorem Boundary.le_size {offset : Nat} (h : code.Boundary offset) : offset ≤ code.size := by
  cases h with
  | first => exact Nat.zero_le _
  | next _ hi => exact hi.next_le

/-- No instruction starts inside another one. -/
theorem Boundary.apart (later : Nat) : ∀ {offset : Nat} {instruction : Instruction},
    code.Boundary later → code.Boundary offset → code.Holds offset instruction → offset < later →
      offset + instruction.size ≤ later := by
  induction later using Nat.strongRecOn with
  | _ later ih =>
    intro offset instruction hlater hoffset hat hlt
    cases hlater with
    | first => omega
    | next hbefore hother =>
      rename_i before other
      have hpos := other.size_pos
      rcases Nat.lt_trichotomy offset before with hl | rfl | hg
      · have := ih before (by omega) hbefore hoffset hat hl
        omega
      · exact Nat.le_of_eq (by rw [hat.unique hother])
      · have := ih offset hlt hoffset hbefore hother hg
        omega

/-! ### Balance -/

/-- With this many values on the stack at the offset, every way on from there finds the values it
needs, and reaches the limit only with a number of values that is allowed there. -/
inductive Balanced (code : Code) (limit : Nat) (ends : Nat → Prop) : Nat → Nat → Prop where
  | done {depth : Nat} : ends depth → Balanced code limit ends limit depth
  | step {offset depth : Nat} {instruction : Instruction} :
    offset < limit → code.Holds offset instruction → instruction.takes ≤ depth →
    (∀ next ∈ instruction.successors offset,
      Balanced code limit ends next (depth - instruction.takes + instruction.gives)) →
    Balanced code limit ends offset depth

namespace Balanced

variable {limit : Nat} {ends : Nat → Prop} {offset depth : Nat} {instruction : Instruction}

theorem le_limit (h : Balanced code limit ends offset depth) : offset ≤ limit := by
  cases h with
  | done _ => exact Nat.le_refl _
  | step hlt => exact Nat.le_of_lt hlt

theorem done_of_eq (h : Balanced code limit ends offset depth) (he : offset = limit) :
    ends depth := by
  cases h with
  | done hend => exact hend
  | step hlt => omega

theorem of_lt (h : Balanced code limit ends offset depth) (hlt : offset < limit) :
    ∃ instruction, code.Holds offset instruction ∧ instruction.takes ≤ depth ∧
      ∀ next ∈ instruction.successors offset,
        Balanced code limit ends next (depth - instruction.takes + instruction.gives) := by
  cases h with
  | done hend => omega
  | step _ hat htakes hnext => exact ⟨_, hat, htakes, hnext⟩

/-- An instruction that goes on behind itself. -/
theorem before (takes : Nat) (h : code.Holds offset instruction)
    (hs : instruction.successors offset = [offset + instruction.size])
    (ht : instruction.takes = takes)
    (hn : Balanced code limit ends (offset + instruction.size) (depth + instruction.gives)) :
    Balanced code limit ends offset (depth + takes) := by
  have hle := hn.le_limit
  have hpos := instruction.size_pos
  refine .step (by omega) h (by omega) fun next hnext => ?_
  rw [hs] at hnext
  cases List.mem_singleton.mp hnext
  rw [ht, Nat.add_sub_cancel]
  exact hn

/-- A jump forward. -/
theorem jump {target : Nat} (h : code.Holds offset ⟨.jump, [target]⟩) (hlt : offset < target)
    (hn : Balanced code limit ends target depth) : Balanced code limit ends offset depth := by
  have hle := hn.le_limit
  refine .step (by omega) h (Nat.zero_le _) fun next hnext => ?_
  cases List.mem_singleton.mp hnext
  exact hn

/-- A jump that is taken or not. -/
theorem fork {target : Nat} (h : code.Holds offset ⟨.jumpNotTruthy, [target]⟩)
    (hn : Balanced code limit ends (offset + 3) depth)
    (ht : Balanced code limit ends target depth) :
    Balanced code limit ends offset (depth + 1) := by
  have hle := hn.le_limit
  refine .step (by omega) h (Nat.le_add_left _ _) fun next hnext => ?_
  rcases List.mem_cons.mp hnext with rfl | hnext
  · exact hn
  · cases List.mem_singleton.mp hnext
    exact ht

end Balanced

end Code

/-! ### Verified functions -/

/-- The body runs without a fault of its own when a closure of it has this many captured values. -/
inductive Verified (pool : Array Value) : CompiledFunction → Nat → Prop where
  | intro {body : CompiledFunction} {captures : Nat} :
    body.code.Balanced body.code.size (fun _ => False) 0 0 →
    body.code.Boundary body.code.size →
    (∀ offset instruction, body.code.Boundary offset → body.code.Holds offset instruction →
      instruction.Legal pool body.code body.numLocals captures true) →
    (∀ offset instruction id inner, body.code.Boundary offset →
      body.code.Holds offset instruction → instruction.opcode = .closure →
      pool[instruction.operand 0]? = some (.compiled id inner) →
      Verified pool inner (instruction.operand 1)) →
    (∀ offset instruction, body.code.Boundary offset → body.code.Holds offset instruction →
      instruction.Forward offset) →
    Verified pool body captures

/-- The second pool goes on from the first one. -/
def Pool.Extends (pool later : Array Value) : Prop :=
  ∃ more, later.toList = pool.toList ++ more

theorem Pool.Extends.refl (pool : Array Value) : Pool.Extends pool pool :=
  ⟨[], (List.append_nil _).symm⟩

theorem Pool.Extends.trans {a b c : Array Value} (hab : Pool.Extends a b)
    (hbc : Pool.Extends b c) : Pool.Extends a c := by
  obtain ⟨front, hf⟩ := hab
  obtain ⟨back, hb⟩ := hbc
  exact ⟨front ++ back, by rw [hb, hf, List.append_assoc]⟩

theorem Pool.Extends.getElem? {pool later : Array Value} (h : Pool.Extends pool later)
    {index : Nat} {value : Value} (hv : pool[index]? = some value) :
    later[index]? = some value := by
  obtain ⟨more, hm⟩ := h
  have hi : index < pool.toList.length := (Array.getElem?_eq_some_iff.mp hv).1
  rw [← Array.getElem?_toList, hm, List.getElem?_append_left hi, Array.getElem?_toList, hv]

theorem Pool.extends_push (pool : Array Value) (value : Value) :
    Pool.Extends pool (pool.push value) :=
  ⟨[value], Array.toList_push⟩

theorem Instruction.Legal.mono {instruction : Instruction} {pool later : Array Value} {code : Code}
    {locals captures : Nat} {inFunction : Bool} (hp : Pool.Extends pool later)
    (h : instruction.Legal pool code locals captures inFunction) :
    instruction.Legal later code locals captures inFunction := by
  unfold Legal at h ⊢
  split at h
  · obtain ⟨value, hv, hk⟩ := h
    exact ⟨value, hp.getElem? hv, hk⟩
  all_goals first | exact h | skip
  · obtain ⟨id, body, hv⟩ := h
    exact ⟨id, body, hp.getElem? hv⟩

/-- Verified functions stay so when constants are added: closures refer to constants that are
there. -/
theorem Verified.mono {pool later : Array Value} (hp : Pool.Extends pool later)
    {body : CompiledFunction} {captures : Nat} (h : Verified pool body captures) :
    Verified later body captures := by
  induction h with
  | intro hbalanced htiled hlegal _ hforward ih =>
    refine .intro hbalanced htiled (fun offset instruction hb hat => (hlegal _ _ hb hat).mono hp)
      (fun offset instruction id inner hb hat ho hpool => ?_) hforward
    have hclosure := hlegal _ _ hb hat
    rw [Instruction.Legal, ho] at hclosure
    obtain ⟨id', inner', hold⟩ := hclosure
    have hnew := hp.getElem? hold
    rw [hpool] at hnew
    cases hnew
    exact ih _ _ _ _ hb hat ho hold

/-- Functions from the place `start` on are verified, each for some number of captured values. -/
def Pool.VerifiedFrom (start : Nat) (pool : Array Value) : Prop :=
  ∀ index id body, start ≤ index → pool[index]? = some (.compiled id body) →
    ∃ captures, Verified pool body captures

theorem Pool.verifiedFrom_size (pool : Array Value) : Pool.VerifiedFrom pool.size pool :=
  fun _ _ _ hle hat => absurd (Array.getElem?_eq_some_iff.mp hat).1 (Nat.not_lt_of_le hle)

/-- One more constant. -/
theorem Pool.VerifiedFrom.push {pool : Array Value} {value : Value}
    (h : ∀ id body, value = .compiled id body →
      ∃ captures, Verified (pool.push value) body captures) :
    Pool.VerifiedFrom pool.size (pool.push value) := by
  intro index id body hle hat
  obtain ⟨hlt, he⟩ := Array.getElem?_eq_some_iff.mp hat
  rw [Array.size_push] at hlt
  obtain rfl : index = pool.size := by omega
  rw [Array.getElem_push_eq] at he
  exact h id body he

theorem Pool.VerifiedFrom.trans {start : Nat} {pool later : Array Value}
    (hp : Pool.Extends pool later) (h : Pool.VerifiedFrom start pool)
    (k : Pool.VerifiedFrom pool.size later) : Pool.VerifiedFrom start later := by
  intro index id body hle hat
  by_cases hlt : index < pool.size
  · have hold : pool[index]? = some (.compiled id body) := by
      have hget := Array.getElem?_eq_getElem hlt
      rw [hp.getElem? hget] at hat
      rw [hget, hat]
    obtain ⟨captures, hv⟩ := h index id body hle hold
    exact ⟨captures, hv.mono hp⟩
  · exact k index id body (Nat.le_of_not_lt hlt) hat

end Simian
