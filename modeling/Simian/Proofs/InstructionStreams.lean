import Simian.Bytecode.Listing
import Simian.Proofs.DraftCode

/-!
# Streams of instructions

A stream is the bytes of instructions one after the other. It decodes to the instructions that
were encoded, each operand without the bits that its width has no room for, and to nothing else.
Code that decodes to its end is the stream of what it decodes to. The listing of a stream has one
line for each instruction, which says where the instruction stands and what it is.
-/
namespace Simian

theorem Instruction.reduced_of_fitting {instruction : Instruction} (h : instruction.Fitting) :
    instruction.reduced = instruction :=
  congrArg (Instruction.mk instruction.opcode) (lowBits_of_fits h)

theorem Instruction.Fitting.formed {instruction : Instruction} (h : instruction.Fitting) :
    instruction.Formed := Fits.length_eq h

namespace Code

variable {code : Code} {offset stop : Nat} {instruction : Instruction}
  {instructions others : List Instruction}

/-! ### Reading what was written -/

/-- The bytes of the instructions one after the other. -/
def streamOf (instructions : List Instruction) : List UInt8 := instructions.flatMap (·.encode)

theorem streamOf_cons (instruction : Instruction) (rest : List Instruction) :
    streamOf (instruction :: rest) = instruction.encode ++ streamOf rest := List.flatMap_cons

theorem spells_toArray (bytes : List UInt8) : Spells bytes.toArray 0 bytes := by
  intro i byte hb
  rwa [Nat.zero_add, List.getElem?_toArray]

theorem decodes_streamOf (hf : ∀ instruction ∈ instructions, instruction.Formed)
    (h : code.Spells offset (streamOf instructions)) :
    code.Decodes offset (instructions.map (·.reduced))
      (offset + (streamOf instructions).length) := by
  induction instructions generalizing offset with
  | nil => rfl
  | cons instruction rest ih =>
    obtain ⟨hfirst, hrest⟩ := List.forall_mem_cons.mp hf
    rw [streamOf_cons] at h ⊢
    have hlength := instruction.length_encode hfirst
    have hbehind := h.right
    rw [hlength] at hbehind
    have hlater := ih hrest hbehind
    rw [List.length_append, hlength, ← Nat.add_assoc]
    exact ⟨holds_reduced h.left hfirst, hlater⟩

/-- Code decodes to its end in one way. -/
theorem Decodes.unique (h : code.Decodes offset instructions code.size)
    (ho : code.Decodes offset others code.size) : instructions = others := by
  induction instructions generalizing offset others with
  | nil =>
    obtain rfl : offset = code.size := h
    cases others with
    | nil => rfl
    | cons other rest => exact absurd ho.1.lt_size (Nat.lt_irrefl _)
  | cons instruction rest ih =>
    cases others with
    | nil =>
      obtain rfl : offset = code.size := ho
      exact absurd h.1.lt_size (Nat.lt_irrefl _)
    | cons other more =>
      obtain rfl := h.1.unique ho.1
      rw [ih h.2 ho.2]

/-- A stream decodes to the instructions that were encoded, and in no other way. -/
theorem decodes_stream_iff (hf : ∀ instruction ∈ instructions, instruction.Formed) :
    Decodes (streamOf instructions).toArray 0 others (streamOf instructions).length ↔
      others = instructions.map (·.reduced) := by
  have hdecodes := decodes_streamOf hf (spells_toArray _)
  rw [Nat.zero_add] at hdecodes
  constructor
  · intro ho
    exact ho.unique hdecodes
  · rintro rfl
    exact hdecodes

/-! ### Writing what was read -/

/-- The bytes that a number was read from are those that it is written as. What was read before
them is what stands above them in the number. -/
theorem spells_of_readNumberFrom {value width number : Nat}
    (h : readNumberFrom code offset value width = some number) :
    code.Spells offset (encodeNumber width number) ∧ number / 256 ^ width = value := by
  induction width generalizing offset value with
  | zero =>
    cases h
    exact ⟨.nil, by rw [Nat.pow_zero, Nat.div_one]⟩
  | succ width ih =>
    rw [readNumberFrom] at h
    split at h
    next byte hbyte =>
      obtain ⟨hrest, hvalue⟩ := ih h
      have hlt : byte.toNat < 256 := byte.toNat_lt
      have hhead : (number >>> (8 * width)).toUInt8 = byte := by
        rw [Nat.shiftRight_eq_div_pow, Nat.pow_mul, hvalue]
        apply UInt8.toNat_inj.mp
        show (value * 256 + byte.toNat) % 256 = byte.toNat
        omega
      constructor
      · rw [encodeNumber, hhead]
        exact .cons hbyte hrest
      · rw [Nat.pow_succ, ← Nat.div_div_eq_div_mul, hvalue]
        omega
    · cases h

theorem spells_of_readNumbers {widths numbers : List Nat}
    (h : readNumbers code offset widths = some numbers) :
    code.Spells offset (Instruction.encodeOperands numbers widths) ∧
      numbers.length = widths.length := by
  induction widths generalizing offset numbers with
  | nil =>
    cases h
    exact ⟨.nil, rfl⟩
  | cons width widths ih =>
    rw [readNumbers] at h
    split at h
    next number hnumber =>
      obtain ⟨rest, hrest, rfl⟩ := Option.map_eq_some_iff.mp h
      obtain ⟨hspells, hlength⟩ := ih hrest
      have hfirst := (spells_of_readNumberFrom hnumber).1
      rw [← length_encodeNumber width number] at hspells
      exact ⟨hfirst.append hspells, congrArg (· + 1) hlength⟩
    · cases h

/-- An instruction that is decoded has its bytes there. -/
theorem Holds.spells (h : code.Holds offset instruction) :
    code.Spells offset instruction.encode ∧ instruction.Formed := by
  unfold Holds decode? at h
  split at h
  · cases h
  next byte hbyte =>
    have h := Option.some.inj h
    split at h
    · cases h
    next op hop =>
      split at h
      next operands hoperands =>
        cases h
        obtain ⟨hspells, hlength⟩ := spells_of_readNumbers hoperands
        rw [← Opcode.toByte_of_ofByte? hop] at hbyte
        exact ⟨.cons hbyte hspells, hlength⟩
      · cases h

theorem Decodes.spells (h : code.Decodes offset instructions stop) :
    code.Spells offset (streamOf instructions) ∧
      stop = offset + (streamOf instructions).length := by
  induction instructions generalizing offset with
  | nil =>
    obtain rfl : offset = stop := h
    exact ⟨.nil, rfl⟩
  | cons instruction rest ih =>
    obtain ⟨hholds, hrest⟩ := h
    obtain ⟨hfirst, hformed⟩ := hholds.spells
    obtain ⟨hspells, hstop⟩ := ih hrest
    have hlength := instruction.length_encode hformed
    rw [streamOf_cons]
    constructor
    · rw [← hlength] at hspells
      exact hfirst.append hspells
    · rw [hstop, List.length_append, hlength, Nat.add_assoc]

/-- Code that decodes to its end is the stream of the instructions. -/
theorem Decodes.toList_eq (h : code.Decodes 0 instructions code.size) :
    code.toList = streamOf instructions := by
  obtain ⟨hspells, hsize⟩ := h.spells
  rw [Nat.zero_add] at hsize
  exact hspells.toList_eq hsize

end Code

/-! ### Listings -/

namespace Instruction

/-- What a listing says of the instruction at the offset: the offset, the name of the operation and
the operands, each behind a space. -/
def line (offset : Nat) (instruction : Instruction) : String :=
  fourDigits offset ++ " " ++ instruction.opcode.name ++
    String.join (instruction.operands.map fun operand => " " ++ toString operand)

/-- The lines for the instructions from the offset on. -/
def lines (offset : Nat) : List Instruction → List String
  | [] => []
  | instruction :: rest => instruction.line offset :: lines (offset + instruction.size) rest

theorem length_lines (instructions : List Instruction) (offset : Nat) :
    (lines offset instructions).length = instructions.length := by
  induction instructions generalizing offset with
  | nil => rfl
  | cons instruction rest ih => exact congrArg (· + 1) (ih _)

theorem exists_of_mem_lines {instructions : List Instruction} {offset : Nat} {line : String}
    (h : line ∈ lines offset instructions) :
    ∃ place instruction, line = Instruction.line place instruction := by
  induction instructions generalizing offset with
  | nil => cases h
  | cons instruction rest ih =>
    rcases List.mem_cons.mp h with rfl | h
    · exact ⟨offset, instruction, rfl⟩
    · exact ih h

theorem render_eq (instruction : Instruction) : instruction.render = instruction.opcode.name ++
    String.join (instruction.operands.map fun operand => " " ++ toString operand) := by
  unfold render
  generalize instruction.opcode.name = out
  induction instruction.operands generalizing out with
  | nil => exact String.append_empty.symm
  | cons operand rest ih =>
    rw [List.foldl_cons, ih, List.map_cons, String.join_cons]
    simp only [String.append_assoc]

/-- A line that says why no instruction stands at an offset. -/
def IsComplaint (line : String) : Prop := ∃ front back, line = front ++ " ERROR: " ++ back

/-- The character neither ends a line nor occurs in complaints only. -/
def isPlain (c : Char) : Bool := c != '\n' && c != ':'

theorem isPlain_of_isDigit {c : Char} (h : c.isDigit = true) : isPlain c = true := by
  rw [isPlain, Bool.and_eq_true, bne_iff_ne, bne_iff_ne]
  constructor
  · rintro rfl
    exact Bool.noConfusion h
  · rintro rfl
    exact Bool.noConfusion h

theorem isPlain_toString (number : Nat) : ∀ c ∈ (toString number).toList, isPlain c = true := by
  have hdigits : (toString number).toList = Nat.toDigits 10 number := Nat.toList_repr
  rw [hdigits]
  exact fun c hc => isPlain_of_isDigit (Nat.isDigit_of_mem_toDigits (by decide) (by decide) hc)

theorem isPlain_fourDigits (number : Nat) : ∀ c ∈ (fourDigits number).toList, isPlain c = true := by
  unfold fourDigits
  intro c hc
  rw [String.toList_append, String.toList_ofList, List.mem_append] at hc
  rcases hc with hzero | hdigit
  · rw [List.eq_of_mem_replicate hzero]
    exact isPlain_of_isDigit rfl
  · exact isPlain_toString number c hdigit

theorem isPlain_name (op : Opcode) : ∀ c ∈ op.name.toList, isPlain c = true := by
  have hall : op.name.toList.all isPlain = true := by cases op <;> rfl
  exact List.all_eq_true.mp hall

theorem isPlain_line (offset : Nat) (instruction : Instruction) :
    ∀ c ∈ (instruction.line offset).toList, isPlain c = true := by
  have hspace : ∀ c ∈ " ".toList, isPlain c = true := List.forall_mem_singleton.mpr rfl
  unfold line
  simp only [String.toList_append, List.forall_mem_append]
  refine ⟨⟨⟨isPlain_fourDigits offset, hspace⟩, isPlain_name _⟩, ?_⟩
  intro c hc
  rw [String.toList_join, List.mem_flatMap] at hc
  obtain ⟨part, hpart, hc⟩ := hc
  obtain ⟨operand, -, rfl⟩ := List.mem_map.mp hpart
  rw [String.toList_append, List.mem_append] at hc
  exact hc.elim (hspace c) (isPlain_toString operand c)

theorem not_isComplaint_line (offset : Nat) (instruction : Instruction) :
    ¬IsComplaint (instruction.line offset) := by
  rintro ⟨front, back, h⟩
  have hcolon : ':' ∈ (instruction.line offset).toList := by
    rw [h]
    simp
  exact Bool.noConfusion (isPlain_line offset instruction ':' hcolon)

end Instruction

namespace Code

variable {code : Code} {offset : Nat} {instruction : Instruction} {instructions : List Instruction}

theorem writeListing_of_holds (h : code.Holds offset instruction) (out : String) :
    code.writeListing out offset =
      code.writeListing (out ++ instruction.line offset ++ "\n") (offset + instruction.size) := by
  rw [writeListing]
  split
  next hnone => cases h.symm.trans hnone
  next other hother =>
    obtain rfl := h.unique hother
    rw [Instruction.line, Instruction.render_eq]
    simp only [String.append_assoc]
  next byte hunknown => cases h.symm.trans hunknown
  next op hcut => cases h.symm.trans hcut

theorem writeListing_size (out : String) : code.writeListing out code.size = out := by
  have hnone : code.decode? code.size = none := by
    rw [decode?, Array.getElem?_eq_none (Nat.le_refl _)]
  rw [writeListing]
  split
  next => rfl
  next hother => cases hnone.symm.trans hother
  next hunknown => cases hnone.symm.trans hunknown
  next hcut => cases hnone.symm.trans hcut

theorem Decodes.writeListing (h : code.Decodes offset instructions code.size) (out : String) :
    code.writeListing out offset =
      out ++ String.join ((Instruction.lines offset instructions).map (· ++ "\n")) := by
  induction instructions generalizing offset out with
  | nil =>
    obtain rfl : offset = code.size := h
    rw [writeListing_size]
    exact String.append_empty.symm
  | cons instruction rest ih =>
    rw [writeListing_of_holds h.1, ih h.2, Instruction.lines, List.map_cons, String.join_cons]
    simp only [String.append_assoc]

theorem getElem?_lines (hf : ∀ instruction ∈ instructions, instruction.Formed) {place : Nat}
    (hp : instructions[place]? = some instruction) :
    (Instruction.lines offset instructions)[place]? =
      some (instruction.line (offset + (streamOf (instructions.take place)).length)) := by
  induction instructions generalizing offset place with
  | nil => cases hp
  | cons first rest ih =>
    obtain ⟨hfirst, hrest⟩ := List.forall_mem_cons.mp hf
    cases place with
    | zero =>
      cases hp
      rfl
    | succ place =>
      rw [Instruction.lines, List.getElem?_cons_succ, ih hrest hp, List.take_succ_cons,
        streamOf_cons, List.length_append, first.length_encode hfirst, Nat.add_assoc]

/-- The listing of code that decodes to its end. -/
theorem Decodes.listing (h : code.Decodes 0 instructions code.size) :
    code.listing = String.join ((Instruction.lines 0 instructions).map (· ++ "\n")) := by
  rw [Code.listing, h.writeListing, String.empty_append]

/-- Instructions with the right numbers of operands are decoded from their stream, which leaves no
byte over, and code that decodes to its end is the stream of what it decodes to. The listing of a
stream whose operands are in range has the line of each instruction, with the number of bytes
before it, and nothing else. -/
theorem roundTrips (instructions : List Instruction) (code : Code) :
    ((∀ instruction ∈ instructions, instruction.Formed) → ∀ decoded,
      (Decodes (streamOf instructions).toArray 0 decoded (streamOf instructions).length ↔
        decoded = instructions.map (·.reduced))) ∧
    (code.Decodes 0 instructions code.size → code.toList = streamOf instructions) ∧
    ((∀ instruction ∈ instructions, instruction.Fitting) → ∃ lines : List String,
      listing (streamOf instructions).toArray = String.join (lines.map (· ++ "\n")) ∧
      lines.length = instructions.length ∧
      (∀ (place : Nat) (instruction : Instruction), instructions[place]? = some instruction →
        lines[place]? = some (instruction.line (streamOf (instructions.take place)).length)) ∧
      ∀ line ∈ lines, '\n' ∉ line.toList ∧ ¬Instruction.IsComplaint line) := by
  refine ⟨fun hf decoded => decodes_stream_iff hf, Decodes.toList_eq, fun hfit => ?_⟩
  have hf : ∀ instruction ∈ instructions, instruction.Formed := fun instruction hm =>
    (hfit instruction hm).formed
  have hsame : instructions = instructions.map (·.reduced) := by
    rw [List.map_congr_left fun instruction hm => Instruction.reduced_of_fitting (hfit _ hm),
      List.map_id']
  have hdecodes := (decodes_stream_iff hf).mpr hsame
  refine ⟨Instruction.lines 0 instructions, hdecodes.listing, Instruction.length_lines _ _,
    fun place instruction hp => ?_, fun line hl => ?_⟩
  · rw [getElem?_lines hf hp, Nat.zero_add]
  · obtain ⟨offset, instruction, rfl⟩ := Instruction.exists_of_mem_lines hl
    exact ⟨fun hnew => Bool.noConfusion (Instruction.isPlain_line _ _ _ hnew),
      Instruction.not_isComplaint_line _ _⟩

/-- A closure of 255 values, a `pop` and a local slot, and beside them a constant whose number has
a bit too many. -/
theorem roundTrips_closure :
    let instructions : List Instruction :=
      [⟨.closure, [65534, 255]⟩, ⟨.pop, []⟩, ⟨.getLocal, [126]⟩]
    let code : Code := #[33, 255, 254, 255, 1, 22, 126]
    (code.Decodes 0 instructions code.size ∧ code.toList = streamOf instructions) ∧
    ((∀ instruction ∈ instructions, instruction.Fitting) ∧
      ∃ lines : List String, code.listing = String.join (lines.map (· ++ "\n")) ∧
        lines.length = 3) ∧
    (∀ instruction ∈ [Instruction.mk .constant [65536 + 7]], instruction.Formed) ∧
      Decodes #[0, 0, 7] 0 [⟨.constant, [7]⟩] 3 := by
  intro instructions code
  have hcode : code.Decodes 0 instructions code.size := by cbv
  have hfit : ∀ instruction ∈ instructions, instruction.Fitting := by
    simp [instructions, Instruction.Fitting, Instruction.Fits, Opcode.widths]
  obtain ⟨lines, hlisting, hlength, -⟩ := (roundTrips instructions code).2.2 hfit
  have hformed : ∀ instruction ∈ [Instruction.mk .constant [65536 + 7]], instruction.Formed :=
    List.forall_mem_singleton.mpr rfl
  exact ⟨⟨hcode, (roundTrips instructions code).2.1 hcode⟩, ⟨hfit, lines, hlisting, hlength⟩,
    hformed, ((roundTrips _ code).1 hformed _).mpr rfl⟩

end Code

end Simian
