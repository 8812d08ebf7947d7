import Mathlib.Algebra.Group.Nat.Defs
import Simian.Bytecode.Codec

/-!
# Decoding what was encoded

`Code.Spells` says that the code has given bytes from an offset on, and `Code.Holds`
that an instruction stands there. Encoded instructions whose operands fit their widths
are held where their bytes are spelled. `Code.Boundary` marks the offsets at which
instructions start when the code is read from its first byte.
-/
namespace Simian

namespace Code

/-- The code has these bytes from the offset on. -/
def Spells (code : Code) (offset : Nat) (bytes : List UInt8) : Prop :=
  ∀ i byte, bytes[i]? = some byte → code[offset + i]? = some byte

/-- The instruction stands at the offset. -/
def Holds (code : Code) (offset : Nat) (instruction : Instruction) : Prop :=
  code.decode? offset = some (.ok instruction)

/-- The offsets at which instructions start, and the one behind the last of them. -/
inductive Boundary (code : Code) : Nat → Prop where
  | first : Boundary code 0
  | next {offset : Nat} {instruction : Instruction} :
    Boundary code offset → code.Holds offset instruction →
      Boundary code (offset + instruction.size)

theorem Spells.head {code : Code} {offset : Nat} {byte : UInt8} {bytes : List UInt8}
    (h : code.Spells offset (byte :: bytes)) : code[offset]? = some byte :=
  h 0 byte rfl

theorem Spells.tail {code : Code} {offset : Nat} {byte : UInt8} {bytes : List UInt8}
    (h : code.Spells offset (byte :: bytes)) : code.Spells (offset + 1) bytes := by
  intro i b hb
  have hs := h (i + 1) b hb
  rwa [Nat.add_assoc, Nat.add_comm 1 i]

theorem Spells.left {code : Code} {offset : Nat} {front back : List UInt8}
    (h : code.Spells offset (front ++ back)) : code.Spells offset front := by
  intro i b hb
  have hi := (List.getElem?_eq_some_iff.mp hb).1
  exact h i b (by rw [List.getElem?_append_left hi]; exact hb)

theorem Spells.right {code : Code} {offset : Nat} {front back : List UInt8}
    (h : code.Spells offset (front ++ back)) : code.Spells (offset + front.length) back := by
  intro i b hb
  have hs := h (front.length + i) b
    (by rw [List.getElem?_append_right (Nat.le_add_right ..), Nat.add_sub_cancel_left]; exact hb)
  rwa [← Nat.add_assoc] at hs

theorem Spells.nil {code : Code} {offset : Nat} : code.Spells offset [] := by
  intro i b hb
  cases hb

theorem Spells.append {code : Code} {offset : Nat} {front back : List UInt8}
    (hf : code.Spells offset front) (hb : code.Spells (offset + front.length) back) :
    code.Spells offset (front ++ back) := by
  intro i byte hi
  rcases Nat.lt_or_ge i front.length with hlt | hge
  · rw [List.getElem?_append_left hlt] at hi
    exact hf i byte hi
  · rw [List.getElem?_append_right hge] at hi
    have hplace := hb _ byte hi
    rwa [Nat.add_assoc, Nat.add_sub_cancel' hge] at hplace

theorem Spells.cons {code : Code} {offset : Nat} {byte : UInt8} {bytes : List UInt8}
    (hb : code[offset]? = some byte) (h : code.Spells (offset + 1) bytes) :
    code.Spells offset (byte :: bytes) := by
  have hfirst : code.Spells offset [byte] := by
    intro i b hi
    cases i with
    | zero => exact hb.trans hi
    | succ i => cases hi
  exact hfirst.append h

theorem Spells.toList_eq {code : Code} {bytes : List UInt8} (h : code.Spells 0 bytes)
    (hs : code.size = bytes.length) : code.toList = bytes := by
  refine List.ext_getElem (Array.length_toList.trans hs) fun i hi hib => ?_
  have hbyte := h i _ (List.getElem?_eq_getElem hib)
  rw [Nat.zero_add, ← Array.getElem?_toList, List.getElem?_eq_getElem hi] at hbyte
  exact Option.some.inj hbyte

theorem Holds.lt_size {code : Code} {offset : Nat} {instruction : Instruction}
    (h : code.Holds offset instruction) : offset < code.size :=
  lt_size_of_decode? h

theorem Holds.unique {code : Code} {offset : Nat} {a b : Instruction}
    (ha : code.Holds offset a) (hb : code.Holds offset b) : a = b := by
  have h := Option.some.inj (ha.symm.trans hb)
  exact Except.ok.inj h

/-! ### Numbers -/

theorem length_encodeNumber (width number : Nat) : (encodeNumber width number).length = width := by
  induction width with
  | zero => rfl
  | succ width ih => rw [encodeNumber, List.length_cons, ih]

theorem readNumberFrom_spells {code : Code} (number width : Nat) :
    ∀ (offset value : Nat), code.Spells offset (encodeNumber width number) →
      readNumberFrom code offset value width =
        some (value * 256 ^ width + number % 256 ^ width) := by
  induction width with
  | zero => intro offset value _; simp [readNumberFrom, Nat.mod_one]
  | succ width ih =>
    intro offset value h
    rw [encodeNumber] at h
    have hb : ((number >>> (8 * width)).toUInt8).toNat = number / 256 ^ width % 256 := by
      rw [Nat.shiftRight_eq_div_pow, Nat.pow_mul]
      simp
    rw [readNumberFrom, h.head]
    dsimp only
    rw [ih (offset + 1) _ h.tail, hb, Nat.mod_pow_succ, Nat.add_mul, Nat.pow_succ]
    congr 1
    rw [Nat.mul_assoc, Nat.mul_comm 256 (256 ^ width), Nat.mul_comm (number / 256 ^ width % 256)]
    omega

theorem readNumber_spells {code : Code} {offset width number : Nat}
    (h : code.Spells offset (encodeNumber width number)) :
    readNumber code offset width = some (number % 256 ^ width) := by
  rw [readNumber, readNumberFrom_spells number width offset 0 h, Nat.zero_mul, Nat.zero_add]

/-! ### Instructions -/

end Code

namespace Instruction

/-- As many operands as widths, and each fits its own. -/
def Fits : (operands widths : List Nat) → Prop
  | [], [] => True
  | operand :: operands, width :: widths => operand < 256 ^ width ∧ Fits operands widths
  | _, _ => False

instance : (operands widths : List Nat) → Decidable (Fits operands widths)
  | [], [] => isTrue trivial
  | operand :: operands, width :: widths =>
    have := instDecidableFits operands widths
    inferInstanceAs (Decidable (operand < 256 ^ width ∧ Fits operands widths))
  | [], _ :: _ => isFalse id
  | _ :: _, [] => isFalse id

theorem Fits.length_eq : ∀ {operands widths : List Nat}, Fits operands widths →
    operands.length = widths.length
  | [], [], _ => rfl
  | _ :: _, _ :: _, h => congrArg (· + 1) (length_eq h.2)

theorem length_encodeOperands (operands widths : List Nat)
    (h : operands.length = widths.length) :
    (encodeOperands operands widths).length = Opcode.bytesOf widths := by
  induction operands generalizing widths with
  | nil =>
    cases widths with
    | nil => rfl
    | cons width widths => simp at h
  | cons operand operands ih =>
    cases widths with
    | nil => simp at h
    | cons width widths =>
      rw [encodeOperands, List.length_append, Code.length_encodeNumber, Opcode.bytesOf,
        ih widths (by simpa using h)]

theorem length_encode (instruction : Instruction)
    (h : instruction.operands.length = instruction.opcode.widths.length) :
    instruction.encode.length = instruction.size := by
  rw [encode, List.length_cons, length_encodeOperands _ _ h, size, Opcode.size, Nat.add_comm]

/-- The numbers without the bits that their widths, counted in bytes, have no room for. -/
def lowBits (operands widths : List Nat) : List Nat :=
  List.zipWith (fun operand width => operand % 2 ^ (8 * width)) operands widths

theorem lowBits_of_fits : ∀ {operands widths : List Nat}, Fits operands widths →
    lowBits operands widths = operands
  | [], [], _ => rfl
  | operand :: operands, width :: widths, h => by
    have hrest := lowBits_of_fits h.2
    rw [lowBits] at hrest ⊢
    rw [List.zipWith_cons_cons, hrest, Nat.pow_mul, Nat.mod_eq_of_lt h.1]

theorem readNumbers_spells {code : Code} (operands widths : List Nat)
    (hl : operands.length = widths.length) :
    ∀ offset : Nat, code.Spells offset (encodeOperands operands widths) →
      Code.readNumbers code offset widths = some (lowBits operands widths) := by
  induction operands generalizing widths with
  | nil =>
    intro offset _
    obtain rfl : widths = [] := List.length_eq_zero_iff.mp hl.symm
    rfl
  | cons operand operands ih =>
    intro offset h
    cases widths with
    | nil => cases hl
    | cons width widths =>
      rw [encodeOperands] at h
      have hrest := h.right
      rw [Code.length_encodeNumber] at hrest
      rw [Code.readNumbers, Code.readNumber_spells h.left]
      dsimp only
      rw [ih widths (Nat.succ.inj hl) _ hrest, lowBits, lowBits, List.zipWith_cons_cons,
        Nat.pow_mul]
      rfl

/-- As many operands as the operation takes. -/
def Formed (instruction : Instruction) : Prop :=
  instruction.operands.length = instruction.opcode.widths.length

/-- The instruction without the bits of its operands that encoding drops. -/
def reduced (instruction : Instruction) : Instruction :=
  ⟨instruction.opcode, lowBits instruction.operands instruction.opcode.widths⟩

end Instruction

/-- Where the bytes of an instruction stand, the instruction is read back without the bits that
were dropped. -/
theorem Code.holds_reduced {code : Code} {offset : Nat} {instruction : Instruction}
    (h : code.Spells offset instruction.encode) (hf : instruction.Formed) :
    code.Holds offset instruction.reduced := by
  rw [Instruction.encode] at h
  rw [Code.Holds, Code.decode?, h.head]
  dsimp only
  rw [Opcode.ofByte?_toByte]
  dsimp only
  rw [Instruction.readNumbers_spells _ _ hf _ h.tail]
  rfl

/-- An encoded instruction that fits is read back where its bytes are. -/
theorem Code.holds_of_spells {code : Code} {offset : Nat} {instruction : Instruction}
    (h : code.Spells offset instruction.encode)
    (hf : Instruction.Fits instruction.operands instruction.opcode.widths) :
    code.Holds offset instruction := by
  have hholds := holds_reduced h hf.length_eq
  rwa [Instruction.reduced, Instruction.lowBits_of_fits hf] at hholds

end Simian
