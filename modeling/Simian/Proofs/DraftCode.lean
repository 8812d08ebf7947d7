import Simian.Proofs.CodeConstruction

/-!
# Code that is not bytes yet

A draft is what a function's code is to be: its instructions with their operands, and
jumps with the labels that they go to. `Draft.Describes` says that a builder holds the
bytes of a draft. Every step of building keeps that, and if all instructions of the
draft fit their widths, then decoding the finished code gives these instructions and
nothing else.
-/
namespace Simian

/-- Each operand fits the bytes of its width. -/
def Instruction.Fitting (instruction : Instruction) : Prop :=
  Instruction.Fits instruction.operands instruction.opcode.widths

instance (instruction : Instruction) : Decidable instruction.Fitting :=
  inferInstanceAs (Decidable (Instruction.Fits _ _))

/-- Decoding from the first offset on gives these instructions, and ends at the second offset. -/
def Code.Decodes (code : Code) : Nat → List Instruction → Nat → Prop
  | offset, [], stop => offset = stop
  | offset, instruction :: rest, stop =>
    code.Holds offset instruction ∧ code.Decodes (offset + instruction.size) rest stop

theorem Code.Decodes.append {code : Code} {instructions : List Instruction} {last : Instruction}
    {offset stop : Nat} (h : code.Decodes offset instructions stop) (hl : code.Holds stop last) :
    code.Decodes offset (instructions ++ [last]) (stop + last.size) := by
  induction instructions generalizing offset with
  | nil =>
    obtain rfl : offset = stop := h
    exact ⟨hl, rfl⟩
  | cons instruction rest ih => exact ⟨h.1, ih h.2⟩

/-- An instruction of a draft. -/
inductive Entry where
  | plain (instruction : Instruction)
  /-- A jump whose operand is known when the code is finished. -/
  | jump (opcode : Opcode) (label : Label)

namespace Entry

/-- The instruction, where the label of a jump goes to its target. -/
def instruction (targets : Label → Nat) : Entry → Instruction
  | plain instruction => instruction
  | jump opcode label => ⟨opcode, [targets label]⟩

/-- Jumps have one operand of two bytes. -/
def Formed : Entry → Prop
  | plain _ => True
  | jump opcode _ => opcode.widths = [2]

end Entry

/-- The instructions that the code of a function is to have, the last one first. -/
abbrev Draft := List Entry

namespace Draft

/-- The builder that got the instructions one after the other. -/
def builder : Draft → CodeBuilder
  | [] => .empty
  | .plain instruction :: rest => (builder rest).emit instruction.opcode instruction.operands
  | .jump opcode label :: rest => (builder rest).emitJump opcode label

/-- The instructions in their order, where labels go to their targets. -/
def instructions (draft : Draft) (targets : Label → Nat) : List Instruction :=
  (draft.map (·.instruction targets)).reverse

/-- The draft whose last instruction is a return instead. -/
def returning : Draft → Draft
  | [] => []
  | _ :: rest => .plain ⟨.returnValue, []⟩ :: rest

/-- The builder has the bytes and the pending jumps of the draft. The instructions that it
remembers as the last ones are the last ones of the draft. -/
structure Describes (draft : Draft) (builder : CodeBuilder) : Prop where
  formed : ∀ entry ∈ draft, entry.Formed
  code_eq : builder.code = draft.builder.code
  jumps_eq : builder.jumps = draft.builder.jumps
  last : ∀ emitted, builder.last = some emitted → draft.builder.last = some emitted
  previous : ∀ emitted, builder.previous = some emitted → draft.builder.previous = some emitted

theorem sound_builder {draft : Draft} (h : ∀ entry ∈ draft, entry.Formed) :
    draft.builder.Sound := by
  induction draft with
  | nil => exact CodeBuilder.sound_empty
  | cons entry rest ih =>
    have hrest := ih fun other hm => h other (List.mem_cons_of_mem _ hm)
    cases entry with
    | plain instruction => exact hrest.emit instruction.opcode instruction.operands
    | jump opcode label => exact hrest.emitJump label (h _ List.mem_cons_self)

theorem labels_builder (draft : Draft) : draft.builder.labels = #[] := by
  induction draft with
  | nil => rfl
  | cons entry rest ih =>
    cases entry with
    | plain instruction => exact (CodeBuilder.labels_emit ..).trans ih
    | jump opcode label => exact (CodeBuilder.labels_emitJump ..).trans ih

/-! ### Steps of building -/

namespace Describes

variable {draft : Draft} {builder : CodeBuilder}

theorem empty : Describes [] .empty :=
  ⟨by simp, rfl, rfl, fun _ h => h, fun _ h => h⟩

theorem emit (h : Describes draft builder) (opcode : Opcode) (operands : List Nat) :
    Describes (.plain ⟨opcode, operands⟩ :: draft) (builder.emit opcode operands) where
  formed := List.forall_mem_cons.mpr ⟨trivial, h.formed⟩
  code_eq := by
    have hcode := h.code_eq
    cases builder
    simp only [CodeBuilder.emit, Draft.builder] at hcode ⊢
    rw [hcode]
  jumps_eq := by
    rw [CodeBuilder.jumps_emit, h.jumps_eq, Draft.builder, CodeBuilder.jumps_emit]
  last := by
    intro emitted he
    have hcode := h.code_eq
    cases builder
    simp only [CodeBuilder.emit, Draft.builder] at hcode he ⊢
    rw [← hcode]
    exact he
  previous := by
    intro emitted he
    have hlast := h.last
    cases builder
    exact hlast emitted he

theorem emitJump (h : Describes draft builder) {opcode : Opcode} (hw : opcode.widths = [2])
    (label : Label) :
    Describes (.jump opcode label :: draft) (builder.emitJump opcode label) := by
  have he := h.emit opcode [0]
  refine ⟨List.forall_mem_cons.mpr ⟨hw, h.formed⟩, ?_, ?_, ?_, ?_⟩ <;>
    rw [Draft.builder, CodeBuilder.emitJump_eq, CodeBuilder.emitJump_eq]
  · exact he.code_eq
  · dsimp only
    rw [h.jumps_eq, he.code_eq]
    rfl
  · exact he.last
  · exact he.previous

/-- Where labels are bound is not a matter of the draft. -/
theorem relabel (h : Describes draft builder) (labels : Array (Option Nat)) :
    Describes draft { builder with labels } :=
  ⟨h.formed, h.code_eq, h.jumps_eq, h.last, h.previous⟩

/-- A `pop` that the builder remembers is the last instruction of the draft. -/
theorem pop_of_lastIs (h : Describes draft builder) (hl : builder.lastIs .pop = true) :
    ∃ operands rest, draft = .plain ⟨.pop, operands⟩ :: rest ∧
      builder.last = some ⟨.pop, (Draft.builder rest).code.size⟩ := by
  have hlast := h.last
  unfold CodeBuilder.lastIs at hl
  cases hb : builder.last with
  | none =>
    rw [hb] at hl
    cases hl
  | some emitted =>
    obtain ⟨opcode, offset⟩ := emitted
    rw [hb] at hl
    obtain rfl : opcode = .pop := by simpa using hl
    specialize hlast _ hb
    cases draft with
    | nil => cases hlast
    | cons entry rest =>
      cases entry with
      | plain instruction =>
        obtain ⟨opcode, operands⟩ := instruction
        cases hlast
        exact ⟨operands, rest, rfl, rfl⟩
      | jump opcode label =>
        cases hlast
        cases h.formed _ List.mem_cons_self

/-- Either nothing is dropped, or the draft ends in a `pop` and loses it. -/
theorem removeLastPop (h : Describes draft builder) :
    builder.removeLastPop = (false, builder) ∨
    ∃ operands rest, draft = .plain ⟨.pop, operands⟩ :: rest ∧ builder.removeLastPop.1 = true ∧
      Describes rest builder.removeLastPop.2 := by
  cases hpop : builder.lastIs .pop with
  | false => exact .inl (CodeBuilder.removeLastPop_of_not hpop)
  | true =>
    obtain ⟨operands, rest, rfl, hlast⟩ := h.pop_of_lastIs hpop
    obtain ⟨code, last, previous, labels, jumps⟩ := builder
    obtain rfl : last = _ := hlast
    have hcode : code.shrink (Draft.builder rest).code.size = (Draft.builder rest).code := by
      apply Array.toList_inj.mp
      rw [Array.toList_shrink, show code = _ from h.code_eq, Draft.builder, CodeBuilder.toList_emit]
      exact List.take_left' Array.length_toList
    have hjumps : jumps = ((Draft.builder rest).emit .pop operands).jumps := h.jumps_eq
    exact .inr ⟨operands, rest, rfl, rfl, (List.forall_mem_cons.mp h.formed).2, hcode,
      hjumps.trans (CodeBuilder.jumps_emit ..), h.previous, fun _ he => by cases he⟩

/-- Either nothing is changed, or the draft ends in a `pop` and ends in a return then. -/
theorem replaceLastPop (h : Describes draft builder) :
    builder.replaceLastPop = (false, builder) ∨
    ∃ operands rest, draft = .plain ⟨.pop, operands⟩ :: rest ∧ builder.replaceLastPop.1 = true ∧
      Describes (.plain ⟨.returnValue, []⟩ :: rest) builder.replaceLastPop.2 := by
  cases hpop : builder.lastIs .pop with
  | false => exact .inl (CodeBuilder.replaceLastPop_of_not hpop)
  | true =>
    obtain ⟨operands, rest, rfl, hlast⟩ := h.pop_of_lastIs hpop
    obtain ⟨code, last, previous, labels, jumps⟩ := builder
    obtain rfl : last = _ := hlast
    have hcode : code.setIfInBounds (Draft.builder rest).code.size Opcode.returnValue.toByte =
        ((Draft.builder rest).emit .returnValue []).code := by
      apply Array.toList_inj.mp
      rw [Array.toList_setIfInBounds, show code = _ from h.code_eq, Draft.builder,
        CodeBuilder.toList_emit, CodeBuilder.toList_emit, List.set_append_right _ _ (by simp)]
      cases operands <;> simp [Instruction.encode, Instruction.encodeOperands, Opcode.widths]
    have hjumps : jumps = ((Draft.builder rest).emit .returnValue []).jumps := by
      rw [show jumps = _ from h.jumps_eq, Draft.builder, CodeBuilder.jumps_emit,
        CodeBuilder.jumps_emit]
    exact .inr ⟨operands, rest, rfl, rfl,
      List.forall_mem_cons.mpr ⟨trivial, (List.forall_mem_cons.mp h.formed).2⟩, hcode, hjumps,
      fun _ he => he, h.previous⟩

end Describes

/-! ### Finished code -/

/-- Code that completes the builder of the draft decodes to the instructions of the draft, if they
fit. By induction on the draft: each instruction stands behind those before it. -/
theorem decodes_of_completes {draft : Draft} {code : Code} {targets : Label → Nat}
    (hformed : ∀ entry ∈ draft, entry.Formed)
    (hfit : ∀ instruction ∈ draft.instructions targets, instruction.Fitting)
    (hc : draft.builder.Completes code targets) :
    code.Decodes 0 (draft.instructions targets) draft.builder.code.size := by
  induction draft with
  | nil => rfl
  | cons entry rest ih =>
    have hrest := (List.forall_mem_cons.mp hformed).2
    rw [instructions, List.map_cons, List.reverse_cons] at hfit ⊢
    have hlast : (entry.instruction targets).Fitting := hfit _ (by simp)
    have hfits := fun instruction hm => hfit instruction (List.mem_append_left _ hm)
    have hsound := sound_builder hrest
    cases entry with
    | plain instruction =>
      have hbefore := ih hrest hfits (.of_extends (CodeBuilder.extends_emit ..) hc)
      have hlast : instruction.Fitting := hlast
      rw [Draft.builder, CodeBuilder.size_emit _ _ _ hlast.length_eq]
      exact hbefore.append (hc.holds_emit instruction.opcode instruction.operands hsound hlast)
    | jump opcode label =>
      have hw := hformed _ List.mem_cons_self
      have hbefore := ih hrest hfits (.of_extends (CodeBuilder.extends_emitJump _ label hw) hc)
      rw [Draft.builder, CodeBuilder.size_emitJump _ label hw]
      have hsize : (Entry.instruction targets (.jump opcode label)).size = 3 := by
        show Opcode.size opcode = 3
        rw [Opcode.size, hw]
        rfl
      rw [← hsize]
      exact hbefore.append (hc.holds_emitJump label hsound hw)

/-- The targets of the labels in code that the builder is finished to. -/
def targets (builder : CodeBuilder) : Label → Nat :=
  CodeBuilder.target builder.labels builder.code.size

variable {draft : Draft} {builder : CodeBuilder} {code : Code}

theorem Describes.completes (h : Describes draft builder) (hf : builder.finish = .ok code) :
    draft.builder.Completes code (targets builder) ∧ code.size = draft.builder.code.size := by
  obtain ⟨bytes, last, previous, labels, jumps⟩ := builder
  have hsound := sound_builder h.formed
  obtain rfl : bytes = draft.builder.code := h.code_eq
  obtain rfl : jumps = draft.builder.jumps := h.jumps_eq
  obtain ⟨hsize, hkeep, hset⟩ :=
    CodeBuilder.patchJumps_ok _ hf hsound.jumps_le hsound.jumps_apart
  refine ⟨⟨fun offset byte hb hj => (hkeep offset hj).trans hb, hset, fun label offset hl => ?_⟩,
    hsize⟩
  rw [labels_builder] at hl
  cases hl

/-- Finished code decodes to the instructions of the draft, if they fit. -/
theorem Describes.decodes (h : Describes draft builder) (hf : builder.finish = .ok code)
    (hfit : ∀ instruction ∈ draft.instructions (targets builder), instruction.Fitting) :
    code.Decodes 0 (draft.instructions (targets builder)) code.size := by
  obtain ⟨hc, hsize⟩ := h.completes hf
  rw [hsize]
  exact decodes_of_completes h.formed hfit hc

/-- Each jump of a draft is pending in its builder. -/
theorem pending_of_jump {opcode : Opcode} {label : Label} (hw : opcode.widths = [2])
    (hm : .jump opcode label ∈ draft) :
    ∃ pending ∈ draft.builder.jumps.toList, pending.label = label := by
  induction draft with
  | nil => cases hm
  | cons entry rest ih =>
    rcases List.mem_cons.mp hm with rfl | hm
    · refine ⟨⟨(Draft.builder rest).code.size + 1, label⟩, ?_, rfl⟩
      rw [Draft.builder, CodeBuilder.jumps_emitJump _ _ hw]
      exact List.mem_append_right _ List.mem_cons_self
    · obtain ⟨pending, hp, rfl⟩ := ih hm
      refine ⟨pending, ?_, rfl⟩
      cases entry with
      | plain instruction => rwa [Draft.builder, CodeBuilder.jumps_emit]
      | jump other label =>
        rw [Draft.builder, CodeBuilder.emitJump_eq, Array.toList_push]
        exact List.mem_append_left _ hp

/-- The jumps of finished code fit. -/
theorem Describes.fitting_jump (h : Describes draft builder) (hf : builder.finish = .ok code)
    {opcode : Opcode} {label : Label} (hm : .jump opcode label ∈ draft) :
    (Entry.instruction (targets builder) (.jump opcode label)).Fitting := by
  have hw : opcode.widths = [2] := h.formed _ hm
  obtain ⟨pending, hp, rfl⟩ := pending_of_jump hw hm
  have hle := ((h.completes hf).1.jumps pending hp).1
  show Instruction.Fits [targets builder pending.label] opcode.widths
  rw [hw]
  exact ⟨Nat.lt_succ_of_le hle, trivial⟩

end Draft

end Simian
