import Simian.Bytecode.Builder
import Simian.Proofs.Decoding

/-!
# Code under construction

`CodeBuilder.Completes` says that finished code has everything that a builder holds:
its bytes outside the operands of pending jumps, the targets of its labels in those
operands, and its bound labels at their offsets. What a builder is extended to completes
it too, so each instruction can be looked up in the finished code from the moment at
which it is emitted.
-/
namespace Simian

namespace CodeBuilder

/-- Pending operands lie in the code and apart from each other, and no label is bound past the
end. -/
structure Sound (builder : CodeBuilder) : Prop where
  jumps_le : ∀ jump ∈ builder.jumps.toList, jump.operandOffset + 2 ≤ builder.code.size
  jumps_apart : builder.jumps.toList.Pairwise fun a b => a.operandOffset + 2 ≤ b.operandOffset
  labels_le : ∀ i offset : Nat, builder.labels[i]? = some (some offset) →
    offset ≤ builder.code.size

/-- The second builder has everything that the first one has. -/
structure Extends (builder later : CodeBuilder) : Prop where
  code : ∃ bytes : List UInt8, later.code.toList = builder.code.toList ++ bytes
  jumps : ∃ more : List PendingJump, later.jumps.toList = builder.jumps.toList ++ more ∧
    ∀ jump ∈ more, builder.code.size ≤ jump.operandOffset
  labels : ∀ i offset : Nat, builder.labels[i]? = some (some offset) →
    later.labels[i]? = some (some offset)

/-- The code and the targets of labels are what the builder can be finished to. -/
structure Completes (builder : CodeBuilder) (code : Code) (targets : Label → Nat) : Prop where
  bytes : ∀ offset byte, builder.code[offset]? = some byte →
    (∀ jump ∈ builder.jumps.toList,
      offset ≠ jump.operandOffset ∧ offset ≠ jump.operandOffset + 1) →
    code[offset]? = some byte
  jumps : ∀ jump ∈ builder.jumps.toList, targets jump.label ≤ jumpLimit ∧
    code[jump.operandOffset]? = some (targets jump.label / 256).toUInt8 ∧
    code[jump.operandOffset + 1]? = some (targets jump.label).toUInt8
  labels : ∀ (label : Label) offset, builder.labels[label.index]? = some (some offset) →
    targets label = offset

/-- The label is there and has no offset yet. -/
def Unbound (builder : CodeBuilder) (label : Label) : Prop :=
  builder.labels[label.index]? = some none

/-! ### Extension -/

theorem Extends.refl (builder : CodeBuilder) : Extends builder builder where
  code := ⟨[], (List.append_nil _).symm⟩
  jumps := ⟨[], (List.append_nil _).symm, by simp⟩
  labels := fun _ _ h => h

theorem Extends.size_le {builder later : CodeBuilder} (h : Extends builder later) :
    builder.code.size ≤ later.code.size := by
  obtain ⟨bytes, hb⟩ := h.code
  rw [← Array.length_toList, ← Array.length_toList, hb, List.length_append]
  omega

theorem Extends.trans {a b c : CodeBuilder} (hab : Extends a b) (hbc : Extends b c) :
    Extends a c where
  code := by
    obtain ⟨front, hf⟩ := hab.code
    obtain ⟨back, hb⟩ := hbc.code
    exact ⟨front ++ back, by rw [hb, hf, List.append_assoc]⟩
  jumps := by
    obtain ⟨front, hf, hfl⟩ := hab.jumps
    obtain ⟨back, hb, hbl⟩ := hbc.jumps
    refine ⟨front ++ back, by rw [hb, hf, List.append_assoc], fun jump hj => ?_⟩
    rcases List.mem_append.mp hj with h | h
    · exact hfl jump h
    · exact Nat.le_trans hab.size_le (hbl jump h)
  labels := fun i offset h => hbc.labels i offset (hab.labels i offset h)

theorem Completes.of_extends {builder later : CodeBuilder} {code : Code} {targets : Label → Nat}
    (he : Extends builder later) (hc : Completes later code targets) :
    Completes builder code targets where
  bytes := by
    intro offset byte hb hj
    obtain ⟨bytes, hbytes⟩ := he.code
    obtain ⟨more, hmore, hle⟩ := he.jumps
    have hlt : offset < builder.code.size := (Array.getElem?_eq_some_iff.mp hb).1
    apply hc.bytes
    · rw [← Array.getElem?_toList, hbytes, List.getElem?_append_left (by simpa using hlt),
        Array.getElem?_toList, hb]
    · intro jump hm
      rw [hmore] at hm
      rcases List.mem_append.mp hm with h | h
      · exact hj jump h
      · have := hle jump h
        omega
  jumps := by
    intro jump hm
    obtain ⟨more, hmore, _⟩ := he.jumps
    exact hc.jumps jump (by rw [hmore]; exact List.mem_append_left _ hm)
  labels := fun label offset h => hc.labels label offset (he.labels label.index offset h)

/-! ### Emitting -/

theorem sound_empty : Sound empty where
  jumps_le := by intro jump h; cases h
  jumps_apart := List.Pairwise.nil
  labels_le := by intro i offset h; simp [empty] at h

section emit
variable (builder : CodeBuilder) (opcode : Opcode) (operands : List Nat)

@[simp] theorem labels_emit : (builder.emit opcode operands).labels = builder.labels := by
  cases builder; rfl

@[simp] theorem jumps_emit : (builder.emit opcode operands).jumps = builder.jumps := by
  cases builder; rfl

theorem toList_emit : (builder.emit opcode operands).code.toList =
    builder.code.toList ++ Instruction.encode ⟨opcode, operands⟩ := by
  cases builder; simp [emit]

theorem lastIs_emit (other : Opcode) :
    (builder.emit opcode operands).lastIs other = (opcode == other) := by
  cases builder; rfl

theorem size_emit (h : operands.length = opcode.widths.length) :
    (builder.emit opcode operands).code.size = builder.code.size + opcode.size := by
  rw [← Array.length_toList, toList_emit, List.length_append,
    Instruction.length_encode ⟨opcode, operands⟩ h, Array.length_toList]
  rfl

theorem size_le_emit : builder.code.size ≤ (builder.emit opcode operands).code.size := by
  rw [← Array.length_toList, ← Array.length_toList, toList_emit, List.length_append]
  omega

theorem extends_emit : Extends builder (builder.emit opcode operands) where
  code := ⟨_, toList_emit ..⟩
  jumps := ⟨[], by simp, by simp⟩
  labels := by intro i offset h; simpa using h

variable {builder}

theorem Sound.emit (h : Sound builder) : Sound (builder.emit opcode operands) where
  jumps_le := by
    intro jump hj
    rw [jumps_emit] at hj
    exact Nat.le_trans (h.jumps_le jump hj) (size_le_emit ..)
  jumps_apart := by rw [jumps_emit]; exact h.jumps_apart
  labels_le := by
    intro i offset hl
    rw [labels_emit] at hl
    exact Nat.le_trans (h.labels_le i offset hl) (size_le_emit ..)

/-- The bytes of an instruction are in the finished code, since no pending operand before it
reaches into them. -/
theorem Completes.spells_emit {code : Code} {targets : Label → Nat} (h : Sound builder)
    (hc : Completes (builder.emit opcode operands) code targets) :
    code.Spells builder.code.size (Instruction.encode ⟨opcode, operands⟩) := by
  intro i byte hb
  apply hc.bytes
  · rw [← Array.getElem?_toList, toList_emit,
      List.getElem?_append_right (by rw [Array.length_toList]; omega), Array.length_toList,
      Nat.add_sub_cancel_left, hb]
  · intro jump hj
    rw [jumps_emit] at hj
    have := h.jumps_le jump hj
    omega

theorem Completes.holds_emit {code : Code} {targets : Label → Nat} (h : Sound builder)
    (hf : Instruction.Fits operands opcode.widths)
    (hc : Completes (builder.emit opcode operands) code targets) :
    code.Holds builder.code.size ⟨opcode, operands⟩ :=
  Code.holds_of_spells (hc.spells_emit opcode operands h) hf

end emit

/-! ### Jumps and labels -/

section emitJump
variable (builder : CodeBuilder) (opcode : Opcode) (label : Label)

theorem emitJump_eq : builder.emitJump opcode label =
    { builder.emit opcode [0] with
      jumps := builder.jumps.push ⟨(builder.emit opcode [0]).code.size - 2, label⟩ } := by
  cases builder; rfl

@[simp] theorem labels_emitJump : (builder.emitJump opcode label).labels = builder.labels := by
  cases builder; rfl

theorem lastIs_emitJump (other : Opcode) :
    (builder.emitJump opcode label).lastIs other = (opcode == other) := by
  cases builder; rfl

variable {opcode}

theorem size_emitJump (hw : opcode.widths = [2]) :
    (builder.emitJump opcode label).code.size = builder.code.size + 3 := by
  rw [emitJump_eq]
  dsimp only
  rw [size_emit _ _ _ (by rw [hw]; rfl), Opcode.size, hw]
  rfl

theorem jumps_emitJump (hw : opcode.widths = [2]) : (builder.emitJump opcode label).jumps.toList =
    builder.jumps.toList ++ [⟨builder.code.size + 1, label⟩] := by
  rw [emitJump_eq]
  dsimp only
  rw [Array.toList_push, size_emit _ _ _ (by rw [hw]; rfl), Opcode.size, hw]
  rfl

theorem extends_emitJump (hw : opcode.widths = [2]) :
    Extends builder (builder.emitJump opcode label) where
  code := by rw [emitJump_eq]; exact ⟨_, toList_emit ..⟩
  jumps := ⟨_, jumps_emitJump builder label hw, by simp⟩
  labels := by intro i offset h; simpa using h

variable {builder}

theorem Sound.emitJump (h : Sound builder) (hw : opcode.widths = [2]) :
    Sound (builder.emitJump opcode label) where
  jumps_le := by
    intro jump hj
    rw [jumps_emitJump builder label hw] at hj
    rw [size_emitJump builder label hw]
    rcases List.mem_append.mp hj with hj | hj
    · exact Nat.le_trans (h.jumps_le jump hj) (Nat.le_add_right ..)
    · cases List.mem_singleton.mp hj
      exact Nat.le_refl _
  jumps_apart := by
    rw [jumps_emitJump builder label hw, List.pairwise_append]
    refine ⟨h.jumps_apart, List.pairwise_singleton .., fun a ha b hb => ?_⟩
    cases List.mem_singleton.mp hb
    exact Nat.le_succ_of_le (h.jumps_le a ha)
  labels_le := by
    intro i offset hl
    rw [labels_emitJump] at hl
    rw [size_emitJump builder label hw]
    exact Nat.le_trans (h.labels_le i offset hl) (Nat.le_add_right ..)

/-- The bytes of a jump are in the finished code, with the target of its label as the operand. -/
theorem Completes.spells_emitJump {code : Code} {targets : Label → Nat} (h : Sound builder)
    (hw : opcode.widths = [2]) (hc : Completes (builder.emitJump opcode label) code targets) :
    targets label ≤ jumpLimit ∧
      code.Spells builder.code.size (Instruction.encode ⟨opcode, [targets label]⟩) := by
  have hj := hc.jumps ⟨builder.code.size + 1, label⟩
    (by rw [jumps_emitJump builder label hw]; simp)
  have hbyte : code[builder.code.size]? = some opcode.toByte := by
    apply hc.bytes
    · rw [emitJump_eq]
      dsimp only
      rw [← Array.getElem?_toList, toList_emit, List.getElem?_append_right (by simp)]
      simp [Instruction.encode]
    · intro jump hm
      rw [jumps_emitJump builder label hw] at hm
      rcases List.mem_append.mp hm with hm | hm
      · have := h.jumps_le jump hm
        omega
      · cases List.mem_singleton.mp hm
        dsimp only
        omega
  refine ⟨hj.1, fun i byte hi => ?_⟩
  rw [Instruction.encode, hw] at hi
  simp only [Instruction.encodeOperands, Code.encodeNumber, List.append_nil,
    Nat.shiftRight_eq_div_pow, Nat.reduceMul, Nat.reducePow, Nat.div_one] at hi
  rcases i with _ | _ | _ | i <;> simp only [List.getElem?_cons_zero, List.getElem?_cons_succ,
    List.getElem?_nil, Option.some.injEq] at hi
  · rw [← hi]; exact hbyte
  · rw [← hi]; exact hj.2.1
  · rw [← hi]; exact hj.2.2
  · cases hi

/-- In the finished code the jump goes to the target of its label. -/
theorem Completes.holds_emitJump {code : Code} {targets : Label → Nat} (h : Sound builder)
    (hw : opcode.widths = [2]) (hc : Completes (builder.emitJump opcode label) code targets) :
    code.Holds builder.code.size ⟨opcode, [targets label]⟩ := by
  obtain ⟨hle, hspells⟩ := hc.spells_emitJump label h hw
  refine Code.holds_of_spells hspells ?_
  rw [hw]
  exact ⟨Nat.lt_succ_of_le hle, trivial⟩

end emitJump

section label
variable (builder : CodeBuilder)

theorem labels_createLabel (builder : CodeBuilder) :
    (builder.createLabel).2.labels = builder.labels.push none := by
  cases builder; rfl

@[simp] theorem code_createLabel : (builder.createLabel).2.code = builder.code := by
  cases builder; rfl

@[simp] theorem jumps_createLabel : (builder.createLabel).2.jumps = builder.jumps := by
  cases builder; rfl

theorem extends_createLabel : Extends builder (builder.createLabel).2 where
  code := ⟨[], by simp⟩
  jumps := ⟨[], by simp, by simp⟩
  labels := by
    intro i offset h
    have hi := (Array.getElem?_eq_some_iff.mp h).1
    rw [labels_createLabel, Array.getElem?_push_lt hi]
    exact congrArg some ((Array.getElem?_eq_some_iff.mp h).2)

variable (label : Label)

theorem labels_bindLabel : (builder.bindLabel label).labels =
    builder.labels.setIfInBounds label.index (some builder.code.size) := by
  cases builder; rfl

@[simp] theorem code_bindLabel : (builder.bindLabel label).code = builder.code := by
  cases builder; rfl

@[simp] theorem jumps_bindLabel : (builder.bindLabel label).jumps = builder.jumps := by
  cases builder; rfl

theorem extends_bindLabel (h : builder.Unbound label) :
    Extends builder (builder.bindLabel label) where
  code := ⟨[], by simp⟩
  jumps := ⟨[], by simp, by simp⟩
  labels := by
    intro i offset hi
    have hne : label.index ≠ i := by rintro rfl; rw [Unbound, hi] at h; cases h
    rw [labels_bindLabel, Array.getElem?_setIfInBounds_ne hne, hi]

variable {builder}

theorem Sound.createLabel (h : Sound builder) : Sound (builder.createLabel).2 where
  jumps_le := by simpa using h.jumps_le
  jumps_apart := by simpa using h.jumps_apart
  labels_le := by
    intro i offset hl
    rw [labels_createLabel, Array.getElem?_push] at hl
    split at hl
    · cases hl
    · simpa using h.labels_le i offset hl

theorem Sound.bindLabel (h : Sound builder) : Sound (builder.bindLabel label) where
  jumps_le := by simpa using h.jumps_le
  jumps_apart := by simpa using h.jumps_apart
  labels_le := by
    intro i offset hl
    rw [labels_bindLabel, Array.getElem?_setIfInBounds] at hl
    rw [code_bindLabel]
    split at hl
    · split at hl
      · cases hl; exact Nat.le_refl _
      · cases hl
    · exact h.labels_le i offset hl

theorem Completes.target_bindLabel {code : Code} {targets : Label → Nat}
    (hl : label.index < builder.labels.size)
    (hc : Completes (builder.bindLabel label) code targets) :
    targets label = builder.code.size := by
  apply hc.labels
  rw [labels_bindLabel, Array.getElem?_setIfInBounds_self_of_lt hl]

end label

theorem Unbound.bindLabel {builder : CodeBuilder} {label other : Label}
    (h : builder.Unbound label) (hne : label.index ≠ other.index) :
    (builder.bindLabel other).Unbound label := by
  rw [Unbound, labels_bindLabel, Array.getElem?_setIfInBounds_ne (Ne.symm hne)]
  exact h

/-! ### Taking back a `pop` -/

/-- Dropping a `pop` that was just emitted leaves what was there before it. -/
theorem removeLastPop_emit {builder : CodeBuilder} (h : Sound builder) :
    (builder.emit .pop []).removeLastPop = (true, { builder with previous := none }) := by
  obtain ⟨code, last, previous, labels, jumps⟩ := builder
  have hcode : (code ++ Instruction.encode ⟨.pop, []⟩).shrink code.size = code := by
    apply Array.toList_inj.mp
    simp
  have hlabels : labels.map (·.map (min · code.size)) = labels := by
    apply Array.ext_getElem?
    intro i
    rw [Array.getElem?_map]
    cases hi : labels[i]? with
    | none => rfl
    | some bound =>
      cases bound with
      | none => rfl
      | some offset => simp [Nat.min_eq_left (h.labels_le i offset hi)]
  simp only [emit, removeLastPop, hcode, hlabels]

/-- Turning a `pop` that was just emitted into a return is emitting the return instead. -/
theorem replaceLastPop_emit (builder : CodeBuilder) :
    (builder.emit .pop []).replaceLastPop = (true, builder.emit .returnValue []) := by
  obtain ⟨code, last, previous, labels, jumps⟩ := builder
  have hcode : (code ++ Instruction.encode ⟨.pop, []⟩).setIfInBounds code.size
      Opcode.returnValue.toByte = code ++ Instruction.encode ⟨.returnValue, []⟩ := by
    apply Array.toList_inj.mp
    simp [Instruction.encode, Instruction.encodeOperands, List.set_append_right]
  simp only [emit, replaceLastPop, hcode]

theorem removeLastPop_of_not {builder : CodeBuilder} (h : builder.lastIs .pop = false) :
    builder.removeLastPop = (false, builder) := by
  obtain ⟨code, last, previous, labels, jumps⟩ := builder
  rcases last with _ | ⟨opcode, offset⟩
  · rfl
  · cases opcode <;> first | rfl | simp [lastIs] at h

theorem replaceLastPop_of_not {builder : CodeBuilder} (h : builder.lastIs .pop = false) :
    builder.replaceLastPop = (false, builder) := by
  obtain ⟨code, last, previous, labels, jumps⟩ := builder
  rcases last with _ | ⟨opcode, offset⟩
  · rfl
  · cases opcode <;> first | rfl | simp [lastIs] at h

/-! ### Finishing -/

theorem size_patch (code : Code) (offset number : Nat) :
    (patch code offset number).size = code.size := by
  simp [patch]

theorem getElem?_patch_of_ne (code : Code) {offset place : Nat} (number : Nat)
    (h : place ≠ offset ∧ place ≠ offset + 1) :
    (patch code offset number)[place]? = code[place]? := by
  rw [patch, Array.getElem?_setIfInBounds_ne (Ne.symm h.2),
    Array.getElem?_setIfInBounds_ne (Ne.symm h.1)]

theorem getElem?_patch (code : Code) {offset : Nat} (number : Nat) (h : offset + 2 ≤ code.size) :
    (patch code offset number)[offset]? = some (number / 256).toUInt8 ∧
      (patch code offset number)[offset + 1]? = some number.toUInt8 := by
  constructor
  · rw [patch, Array.getElem?_setIfInBounds_ne (by omega),
      Array.getElem?_setIfInBounds_self_of_lt (by omega)]
  · rw [patch, Array.getElem?_setIfInBounds_self_of_lt (by rw [Array.size_setIfInBounds]; omega)]

/-- Filling in the operands of jumps that lie apart changes these operands and nothing else. -/
theorem patchJumps_ok {labels : Array (Option Nat)} (jumps : List PendingJump) :
    ∀ {code finished : Code}, patchJumps labels code jumps = .ok finished →
      (∀ jump ∈ jumps, jump.operandOffset + 2 ≤ code.size) →
      jumps.Pairwise (fun a b => a.operandOffset + 2 ≤ b.operandOffset) →
      finished.size = code.size ∧
      (∀ place, (∀ jump ∈ jumps, place ≠ jump.operandOffset ∧ place ≠ jump.operandOffset + 1) →
        finished[place]? = code[place]?) ∧
      ∀ jump ∈ jumps, target labels code.size jump.label ≤ jumpLimit ∧
        finished[jump.operandOffset]? = some (target labels code.size jump.label / 256).toUInt8 ∧
        finished[jump.operandOffset + 1]? = some (target labels code.size jump.label).toUInt8 := by
  induction jumps with
  | nil =>
    intro code finished h _ _
    cases h
    exact ⟨rfl, fun _ _ => rfl, by simp⟩
  | cons jump rest ih =>
    intro code finished h hle hapart
    rw [patchJumps] at h
    split at h
    · cases h
    next hlimit =>
    obtain ⟨hhead, htail⟩ := List.pairwise_cons.mp hapart
    have hsize := size_patch code jump.operandOffset (target labels code.size jump.label)
    obtain ⟨hs, hkeep, hset⟩ := ih h
      (fun j hj => by rw [hsize]; exact hle j (List.mem_cons_of_mem _ hj)) htail
    rw [hsize] at hs hset
    have hpatch := getElem?_patch code (target labels code.size jump.label)
      (hle jump List.mem_cons_self)
    refine ⟨hs, fun place hp => ?_, fun j hj => ?_⟩
    · rw [hkeep place fun j hj => hp j (List.mem_cons_of_mem _ hj)]
      exact getElem?_patch_of_ne code _ (hp jump List.mem_cons_self)
    · rcases List.mem_cons.mp hj with rfl | hj
      · refine ⟨by omega, ?_, ?_⟩
        · rw [hkeep _ fun k hk => by have := hhead k hk; omega]
          exact hpatch.1
        · rw [hkeep _ fun k hk => by have := hhead k hk; omega]
          exact hpatch.2
      · exact hset j hj

/-- What a builder is finished to completes it. -/
theorem completes_finish {builder : CodeBuilder} {code : Code} (h : Sound builder)
    (hf : builder.finish = .ok code) :
    Completes builder code (target builder.labels code.size) ∧ code.size = builder.code.size := by
  obtain ⟨draft, last, previous, labels, jumps⟩ := builder
  obtain ⟨hs, hkeep, hset⟩ := patchJumps_ok jumps.toList hf h.jumps_le h.jumps_apart
  refine ⟨⟨fun offset byte hb hj => ?_, fun jump hj => ?_, fun label offset hl => ?_⟩, hs⟩
  · rw [hkeep offset hj]; exact hb
  · rw [hs]; exact hset jump hj
  · rw [target, hl]
    rfl

end CodeBuilder

end Simian
