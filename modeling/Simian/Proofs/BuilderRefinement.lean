import Mathlib.Algebra.GroupWithZero.Nat
import Simian.Proofs.DraftCode

/-!
# A builder makes a list of labelled instructions

A plan is what the steps of building come to without bytes and offsets: a list of instructions, and
for each label the place in the list that it was last bound to. A builder knows only its last two
instructions, offsets of labels and offsets of operands. Each step keeps them in line with the plan
(`Building.sound_step`), so the builder finishes to the encoding of the plan or fails at the first
jump target that is out of range (`Building.refines_run`).
-/
namespace Simian

namespace Entry

def opcode : Entry → Opcode
  | plain instruction => instruction.opcode
  | jump opcode _ => opcode

def size (entry : Entry) : Nat := entry.opcode.size

theorem size_instruction (targets : Label → Nat) (entry : Entry) :
    (entry.instruction targets).size = entry.size := by
  cases entry <;> rfl

/-- The operands are in range, where the operand of a jump is not known yet. -/
def Fitting : Entry → Prop
  | plain instruction => instruction.Fitting
  | jump opcode _ => opcode.widths = [2]

theorem Fitting.formed {entry : Entry} (h : entry.Fitting) : entry.Formed := by
  cases entry with
  | plain => trivial
  | jump => exact h

theorem Fitting.length_encode {entry : Entry} (h : entry.Fitting) (targets : Label → Nat) :
    (entry.instruction targets).encode.length = entry.size := by
  rw [← size_instruction targets entry]
  refine Instruction.length_encode _ ?_
  cases entry with
  | plain => exact Instruction.Fits.length_eq h
  | jump opcode label =>
    have hw : opcode.widths = [2] := h
    show 1 = opcode.widths.length
    rw [hw]
    rfl

/-- The label that it goes to, if it is a jump. -/
def label? : Entry → Option Label
  | plain _ => none
  | jump _ label => some label

end Entry

/-- Each instruction of a list that the code decodes to stands at a boundary. -/
theorem Code.Decodes.boundary {code : Code} {instructions : List Instruction} {offset stop : Nat}
    (hd : code.Decodes offset instructions stop) (hb : code.Boundary offset) (place : Nat) :
    code.Boundary (offset + ((instructions.take place).map (·.size)).sum) := by
  induction instructions generalizing offset place with
  | nil => simpa using hb
  | cons instruction rest ih =>
    cases place with
    | zero => exact hb
    | succ place =>
      rw [List.take_succ_cons, List.map_cons, List.sum_cons, ← Nat.add_assoc]
      exact ih hd.2 (.next hb hd.1) place

namespace Draft

/-- The offset of a place in the list, which is the size of the instructions before it. -/
def offset (draft : Draft) (place : Nat) : Nat :=
  ((draft.reverse.take place).map (·.size)).sum

variable {draft : Draft} {entry : Entry} {place : Nat}

theorem offset_eq (draft : Draft) (targets : Label → Nat) (place : Nat) :
    draft.offset place = (((draft.instructions targets).take place).map (·.size)).sum := by
  rw [offset, instructions, ← List.map_reverse, ← List.map_take, List.map_map]
  exact congrArg List.sum (List.map_congr_left fun entry _ => (entry.size_instruction _).symm)

theorem offset_cons (h : place ≤ draft.length) :
    offset (entry :: draft) place = draft.offset place := by
  have hle : place ≤ draft.reverse.length := by rwa [List.length_reverse]
  rw [offset, List.reverse_cons, List.take_append_of_le_length hle, offset]

theorem offset_end : offset (entry :: draft) (draft.length + 1) =
    draft.offset draft.length + entry.size := by
  have hall : (entry :: draft).reverse.take (draft.length + 1) = draft.reverse ++ [entry] := by
    rw [List.reverse_cons, List.take_of_length_le (by simp)]
  have hbefore : draft.reverse.take draft.length = draft.reverse :=
    List.take_of_length_le (Nat.le_of_eq List.length_reverse)
  rw [offset, hall, offset, hbefore, List.map_append, List.sum_append]
  simp

theorem offset_le_end : draft.offset place ≤ draft.offset draft.length := by
  have hall : draft.reverse.take draft.length = draft.reverse :=
    List.take_of_length_le (Nat.le_of_eq List.length_reverse)
  rw [offset, offset, hall]
  conv => rhs; rw [← List.take_append_drop place draft.reverse]
  rw [List.map_append, List.sum_append]
  exact Nat.le_add_right _ _

theorem offset_congr {other : Draft} (h : draft.map (·.size) = other.map (·.size)) (place : Nat) :
    draft.offset place = other.offset place := by
  rw [offset, offset, List.map_take, List.map_take, List.map_reverse, List.map_reverse, h]

/-- A place behind the last instruction becomes the end when that instruction is dropped. -/
theorem min_offset (h : place ≤ draft.length + 1) :
    min (offset (entry :: draft) place) (draft.offset draft.length) =
      draft.offset (min place draft.length) := by
  rcases Nat.le_succ_iff.mp h with hle | rfl
  · rw [offset_cons hle, Nat.min_eq_left hle, Nat.min_eq_left offset_le_end]
  · rw [offset_end, Nat.min_eq_right (Nat.le_add_right _ _), Nat.min_eq_right (Nat.le_succ _)]

theorem size_builder (h : ∀ entry ∈ draft, entry.Fitting) :
    draft.builder.code.size = draft.offset draft.length := by
  induction draft with
  | nil => rfl
  | cons entry rest ih =>
    obtain ⟨hentry, hrest⟩ := List.forall_mem_cons.mp h
    rw [List.length_cons, offset_end, ← ih hrest]
    cases entry with
    | plain instruction => exact CodeBuilder.size_emit _ _ _ (Instruction.Fits.length_eq hentry)
    | jump opcode label =>
      have hw : opcode.widths = [2] := hentry
      rw [builder, CodeBuilder.size_emitJump _ label hw, Entry.size, Entry.opcode, Opcode.size, hw]
      rfl

/-- The labels of its jumps, in their order. -/
def jumpLabels (draft : Draft) : List Label := draft.reverse.filterMap Entry.label?

theorem jumps_builder (draft : Draft) :
    draft.builder.jumps.toList.map (·.label) = draft.jumpLabels := by
  induction draft with
  | nil => rfl
  | cons entry rest ih =>
    rw [jumpLabels, List.reverse_cons, List.filterMap_append, ← jumpLabels, ← ih]
    cases entry with
    | plain instruction =>
      rw [builder, CodeBuilder.jumps_emit]
      exact (List.append_nil _).symm
    | jump opcode label =>
      rw [builder, CodeBuilder.emitJump_eq, Array.toList_push, List.map_append]
      rfl

/-- In code that completes the builder, the last instruction stands behind the others. -/
theorem spells_last {rest : Draft} {code : Code} {targets : Label → Nat}
    (hfit : ∀ other ∈ entry :: rest, other.Fitting)
    (hc : (builder (entry :: rest)).Completes code targets) :
    rest.builder.Completes code targets ∧
      code.Spells rest.builder.code.size (entry.instruction targets).encode := by
  obtain ⟨hentry, hrest⟩ := List.forall_mem_cons.mp hfit
  have hsound := sound_builder fun other hm => (hrest other hm).formed
  cases entry with
  | plain instruction =>
    exact ⟨.of_extends (CodeBuilder.extends_emit ..) hc,
      hc.spells_emit instruction.opcode instruction.operands hsound⟩
  | jump opcode label =>
    exact ⟨.of_extends (CodeBuilder.extends_emitJump _ label hentry) hc,
      (hc.spells_emitJump label hsound hentry).2⟩

/-- Code that completes the builder of the draft has the bytes of its instructions, one after the
other. -/
theorem spells_of_completes {code : Code} {targets : Label → Nat}
    (hfit : ∀ entry ∈ draft, entry.Fitting) (hc : draft.builder.Completes code targets) :
    code.Spells 0 ((draft.instructions targets).flatMap Instruction.encode) ∧
      ((draft.instructions targets).flatMap Instruction.encode).length =
        draft.builder.code.size := by
  induction draft with
  | nil => exact ⟨fun i byte hi => absurd hi (by simp [instructions]), rfl⟩
  | cons entry rest ih =>
    obtain ⟨hentry, hrest⟩ := List.forall_mem_cons.mp hfit
    obtain ⟨hbefore, hlast⟩ := spells_last hfit hc
    obtain ⟨hspells, hlength⟩ := ih hrest hbefore
    have hsplit : (instructions (entry :: rest) targets).flatMap Instruction.encode =
        (instructions rest targets).flatMap Instruction.encode ++
          (entry.instruction targets).encode := by
      rw [instructions, List.map_cons, List.reverse_cons, List.flatMap_append, ← instructions,
        List.flatMap_singleton]
    rw [hsplit]
    constructor
    · refine hspells.append ?_
      rwa [hlength, Nat.zero_add]
    · rw [List.length_append, hlength, hentry.length_encode, size_builder hrest, size_builder hfit,
        List.length_cons, offset_end]

end Draft

namespace CodeBuilder

variable {builder : CodeBuilder} {offset : Nat}

theorem removeLastPop_of_last (h : builder.last = some ⟨.pop, offset⟩) :
    builder.removeLastPop.1 = true ∧
      builder.removeLastPop.2.labels = builder.labels.map (·.map (min · offset)) := by
  obtain ⟨code, last, previous, labels, jumps⟩ := builder
  obtain rfl : last = _ := h
  exact ⟨rfl, rfl⟩

theorem replaceLastPop_of_last (h : builder.last = some ⟨.pop, offset⟩) :
    builder.replaceLastPop.1 = true ∧ builder.replaceLastPop.2.labels = builder.labels := by
  obtain ⟨code, last, previous, labels, jumps⟩ := builder
  obtain rfl : last = _ := h
  exact ⟨rfl, rfl⟩

/-- Finishing fails at the first jump with a target out of range. -/
theorem patchJumps_eq_error {labels : Array (Option Nat)} {code : Code} {far : Nat}
    (jumps : List PendingJump) : patchJumps labels code jumps = .error far ↔
      (jumps.map (target labels code.size ·.label)).find? (fun t => decide (jumpLimit < t)) =
        some far := by
  induction jumps generalizing code with
  | nil =>
    constructor
    · intro h
      cases h
    · intro h
      cases h
  | cons jump rest ih =>
    rw [patchJumps, List.map_cons, List.find?_cons]
    by_cases hlimit : jumpLimit < target labels code.size jump.label
    · rw [decide_eq_true hlimit, if_pos hlimit]
      exact ⟨fun h => congrArg some (Except.error.inj h), fun h => congrArg _ (Option.some.inj h)⟩
    · rw [decide_eq_false hlimit, if_neg hlimit, ih, size_patch]

end CodeBuilder

/-! ### Plans -/

/-- What the steps of building come to, without bytes and offsets. A label is a number, and one
that was not created is bound nowhere. -/
structure Plan where
  draft : Draft
  /-- The place in the list that each label was last bound to. -/
  bound : List (Option Nat)

namespace Plan

def empty : Plan := ⟨[], []⟩

def append (plan : Plan) (entry : Entry) : Plan := { plan with draft := entry :: plan.draft }

def createLabel (plan : Plan) : Plan := { plan with bound := plan.bound ++ [none] }

/-- Binds the label to the end of the list. -/
def bindLabel (plan : Plan) (label : Label) : Plan :=
  { plan with bound := plan.bound.set label.index (some plan.draft.length) }

/-- The plan without its last instruction. Labels bound behind it are bound to the new end. -/
def dropLast (plan : Plan) : Plan :=
  ⟨plan.draft.tail, plan.bound.map (·.map (min · plan.draft.tail.length))⟩

/-- The plan whose last instruction is a return instead. -/
def returning (plan : Plan) : Plan := { plan with draft := plan.draft.returning }

/-- The place that the label stands for, which is the end if it is bound nowhere. -/
def place (plan : Plan) (label : Label) : Nat :=
  (plan.bound[label.index]?.join).getD plan.draft.length

def target (plan : Plan) (label : Label) : Nat := plan.draft.offset (plan.place label)

/-- The instructions in their order, where each jump has the target of its label. -/
def instructions (plan : Plan) : List Instruction := plan.draft.instructions plan.target

/-- The targets of the jumps, in their order. -/
def jumpTargets (plan : Plan) : List Nat := plan.draft.jumpLabels.map plan.target

def encoding (plan : Plan) : List UInt8 := plan.instructions.flatMap Instruction.encode

end Plan

/-! ### Building -/

/-- What can be asked of a builder before it is finished. -/
inductive BuildStep where
  | emit (opcode : Opcode) (operands : List Nat)
  | jump (opcode : Opcode) (label : Label)
  | createLabel
  | bindLabel (label : Label)
  | removeLastPop
  | replaceLastPop

/-- Operands are in range, and jumps have one operand of two bytes. -/
def BuildStep.Admissible : BuildStep → Prop
  | emit opcode operands => Instruction.Fitting ⟨opcode, operands⟩
  | jump opcode _ => opcode.widths = [2]
  | createLabel | bindLabel _ | removeLastPop | replaceLastPop => True

instance : DecidablePred BuildStep.Admissible
  | .emit opcode operands => inferInstanceAs (Decidable (Instruction.Fitting ⟨opcode, operands⟩))
  | .jump opcode _ => inferInstanceAs (Decidable (opcode.widths = [2]))
  | .createLabel | .bindLabel _ | .removeLastPop | .replaceLastPop => isTrue trivial

/-- A builder, and the plan that its answers call for. -/
structure Building where
  builder : CodeBuilder
  plan : Plan

namespace Building

def start : Building := ⟨.empty, .empty⟩

/-- The last instruction of the plan is dropped or replaced whenever the builder says so. -/
def step (building : Building) : BuildStep → Building
  | .emit opcode operands =>
    ⟨building.builder.emit opcode operands, building.plan.append (.plain ⟨opcode, operands⟩)⟩
  | .jump opcode label =>
    ⟨building.builder.emitJump opcode label, building.plan.append (.jump opcode label)⟩
  | .createLabel => ⟨building.builder.createLabel.2, building.plan.createLabel⟩
  | .bindLabel label => ⟨building.builder.bindLabel label, building.plan.bindLabel label⟩
  | .removeLastPop =>
    ⟨building.builder.removeLastPop.2,
      if building.builder.removeLastPop.1 then building.plan.dropLast else building.plan⟩
  | .replaceLastPop =>
    ⟨building.builder.replaceLastPop.2,
      if building.builder.replaceLastPop.1 then building.plan.returning else building.plan⟩

def run (steps : List BuildStep) : Building := steps.foldl step start

/-- The builder is in line with the plan. -/
structure Sound (building : Building) : Prop where
  describes : building.plan.draft.Describes building.builder
  fitting : ∀ entry ∈ building.plan.draft, entry.Fitting
  labels_eq : building.builder.labels.toList =
    building.plan.bound.map (·.map building.plan.draft.offset)
  bound_le : ∀ place, some place ∈ building.plan.bound → place ≤ building.plan.draft.length

namespace Sound

variable {building : Building} (h : building.Sound)
include h

theorem size_eq : building.builder.code.size =
    building.plan.draft.offset building.plan.draft.length := by
  rw [h.describes.code_eq, Draft.size_builder h.fitting]

theorem append {entry : Entry} {builder : CodeBuilder} (hentry : entry.Fitting)
    (hdescribes : Draft.Describes (entry :: building.plan.draft) builder)
    (hlabels : builder.labels = building.builder.labels) :
    Sound ⟨builder, building.plan.append entry⟩ where
  describes := hdescribes
  fitting := List.forall_mem_cons.mpr ⟨hentry, h.fitting⟩
  labels_eq := by
    rw [show Building.builder ⟨builder, _⟩ = builder from rfl, hlabels, h.labels_eq]
    refine List.map_congr_left fun bound hm => ?_
    cases bound with
    | none => rfl
    | some place => exact congrArg some (Draft.offset_cons (h.bound_le place hm)).symm
  bound_le := fun place hm => Nat.le_succ_of_le (h.bound_le place hm)

theorem createLabel : Sound ⟨building.builder.createLabel.2, building.plan.createLabel⟩ where
  describes := by
    have hrelabel := h.describes.relabel (building.builder.labels.push none)
    generalize building.builder = builder at hrelabel ⊢
    cases builder
    exact hrelabel
  fitting := h.fitting
  labels_eq := by
    rw [CodeBuilder.labels_createLabel, Array.toList_push, h.labels_eq, Plan.createLabel,
      List.map_append]
    rfl
  bound_le := by
    intro place hm
    rcases List.mem_append.mp hm with hm | hm
    · exact h.bound_le place hm
    · cases List.mem_singleton.mp hm

/-- A label is bound to a place in the list or to its end. -/
theorem place_le (label : Label) : building.plan.place label ≤ building.plan.draft.length := by
  rw [Plan.place]
  cases hb : building.plan.bound[label.index]? with
  | none => exact Nat.le_refl _
  | some bound =>
    cases bound with
    | none => exact Nat.le_refl _
    | some place => exact h.bound_le place (List.mem_of_getElem? hb)

theorem bindLabel (label : Label) :
    Sound ⟨building.builder.bindLabel label, building.plan.bindLabel label⟩ where
  describes := by
    have hrelabel := h.describes.relabel
      (building.builder.labels.setIfInBounds label.index (some building.builder.code.size))
    generalize building.builder = builder at hrelabel ⊢
    cases builder
    exact hrelabel
  fitting := h.fitting
  labels_eq := by
    rw [CodeBuilder.labels_bindLabel, Array.toList_setIfInBounds, h.labels_eq, h.size_eq,
      Plan.bindLabel, List.map_set]
    rfl
  bound_le := by
    intro place hm
    rcases List.mem_or_eq_of_mem_set hm with hm | he
    · exact h.bound_le place hm
    · cases he
      exact Nat.le_refl _

/-- A builder that says yes has the `pop` as the last instruction of the plan. -/
theorem pop_of_lastIs (hl : building.builder.lastIs .pop = true) :
    ∃ rest, building.plan.draft = .plain ⟨.pop, []⟩ :: rest ∧
      building.builder.last = some ⟨.pop, (Draft.builder rest).code.size⟩ := by
  obtain ⟨operands, rest, hdraft, hlast⟩ := h.describes.pop_of_lastIs hl
  have hfits : Instruction.Fits operands [] := h.fitting (.plain ⟨.pop, operands⟩) (by
    rw [hdraft]
    exact List.mem_cons_self)
  cases operands with
  | nil => exact ⟨rest, hdraft, hlast⟩
  | cons => exact hfits.elim

theorem removeLastPop : (building.step .removeLastPop).Sound := by
  rw [step]
  cases hl : building.builder.lastIs .pop with
  | false =>
    rw [CodeBuilder.removeLastPop_of_not hl]
    exact h
  | true =>
    obtain ⟨rest, hdraft, hlast⟩ := h.pop_of_lastIs hl
    obtain ⟨htrue, hlabels⟩ := CodeBuilder.removeLastPop_of_last hlast
    have hdescribes : Draft.Describes rest building.builder.removeLastPop.2 := by
      rcases h.describes.removeLastPop with heq | ⟨_, _, hd, -, hdescribes⟩
      · rw [heq] at htrue
        cases htrue
      · cases hdraft.symm.trans hd
        exact hdescribes
    have hfit := h.fitting
    have hle := h.bound_le
    have hbound := h.labels_eq
    rw [hdraft] at hfit hle hbound
    have hrest := (List.forall_mem_cons.mp hfit).2
    rw [htrue, if_pos rfl, Plan.dropLast, hdraft]
    refine ⟨hdescribes, hrest, ?_, ?_⟩
    · -- The builder cuts offsets to the new size, the plan cuts places to the new length.
      dsimp only
      rw [hlabels, Array.toList_map, hbound, List.map_map, List.map_map,
        Draft.size_builder hrest]
      refine List.map_congr_left fun bound hm => ?_
      cases bound with
      | none => rfl
      | some place => exact congrArg some (Draft.min_offset (hle place hm))
    · intro place hm
      obtain ⟨bound, -, hplace⟩ := List.mem_map.mp hm
      cases bound with
      | none => cases hplace
      | some before =>
        cases hplace
        exact Nat.min_le_right _ _

theorem replaceLastPop : (building.step .replaceLastPop).Sound := by
  rw [step]
  cases hl : building.builder.lastIs .pop with
  | false =>
    rw [CodeBuilder.replaceLastPop_of_not hl]
    exact h
  | true =>
    obtain ⟨rest, hdraft, hlast⟩ := h.pop_of_lastIs hl
    obtain ⟨htrue, hlabels⟩ := CodeBuilder.replaceLastPop_of_last hlast
    have hdescribes : Draft.Describes (.plain ⟨.returnValue, []⟩ :: rest)
        building.builder.replaceLastPop.2 := by
      rcases h.describes.replaceLastPop with heq | ⟨_, _, hd, -, hdescribes⟩
      · rw [heq] at htrue
        cases htrue
      · cases hdraft.symm.trans hd
        exact hdescribes
    have hfit := h.fitting
    have hle := h.bound_le
    have hbound := h.labels_eq
    rw [hdraft] at hfit hle hbound
    rw [htrue, if_pos rfl, Plan.returning, hdraft]
    refine ⟨hdescribes, List.forall_mem_cons.mpr ⟨trivial, (List.forall_mem_cons.mp hfit).2⟩,
      ?_, hle⟩
    dsimp only
    rw [hlabels, hbound]
    refine List.map_congr_left fun bound hm => ?_
    -- A return is as long as a `pop`, so no offset moves.
    have hoffset : Draft.offset (.plain ⟨.pop, []⟩ :: rest) =
        Draft.offset (.plain ⟨.returnValue, []⟩ :: rest) :=
      funext fun place => Draft.offset_congr (by rfl) place
    rw [hoffset]
    rfl

end Sound

/-- Every step keeps the builder in line with the plan. -/
theorem sound_step {building : Building} (h : building.Sound) {step : BuildStep}
    (ha : step.Admissible) : (building.step step).Sound := by
  cases step with
  | emit opcode operands =>
    exact h.append ha (h.describes.emit opcode operands) (CodeBuilder.labels_emit ..)
  | jump opcode label =>
    exact h.append ha (h.describes.emitJump ha label) (CodeBuilder.labels_emitJump ..)
  | createLabel => exact h.createLabel
  | bindLabel label => exact h.bindLabel label
  | removeLastPop => exact h.removeLastPop
  | replaceLastPop => exact h.replaceLastPop

theorem sound_run {steps : List BuildStep} (h : ∀ step ∈ steps, step.Admissible) :
    (run steps).Sound := by
  have hall : ∀ building : Building, building.Sound → (steps.foldl step building).Sound := by
    induction steps with
    | nil => exact fun _ hs => hs
    | cons first rest ih =>
      obtain ⟨hfirst, hrest⟩ := List.forall_mem_cons.mp h
      exact fun building hs => ih hrest _ (sound_step hs hfirst)
  refine hall start ⟨.empty, ?_, rfl, ?_⟩
  · exact fun entry hm => absurd hm List.not_mem_nil
  · exact fun place hm => absurd hm List.not_mem_nil

/-! ### Finishing -/

namespace Sound

variable {building : Building} (h : building.Sound) {code : Code}
include h

/-- A label goes to the offset of its place. -/
theorem targets_eq : Draft.targets building.builder = building.plan.target := by
  funext label
  rw [Draft.targets, CodeBuilder.target, h.size_eq, ← Array.getElem?_toList, h.labels_eq,
    List.getElem?_map, Plan.target, Plan.place]
  cases building.plan.bound[label.index]? with
  | none => rfl
  | some bound => cases bound <;> rfl

theorem finish_eq_error {far : Nat} : building.builder.finish = .error far ↔
    building.plan.jumpTargets.find? (fun t => decide (CodeBuilder.jumpLimit < t)) = some far := by
  have hfinish : building.builder.finish = CodeBuilder.patchJumps building.builder.labels
      building.builder.code building.builder.jumps.toList := by
    cases building.builder
    rfl
  have htargets : building.builder.jumps.toList.map (CodeBuilder.target building.builder.labels
      building.builder.code.size ·.label) = building.plan.jumpTargets := by
    rw [Plan.jumpTargets, ← Draft.jumps_builder, ← h.describes.jumps_eq, ← h.targets_eq,
      List.map_map]
    rfl
  rw [hfinish, CodeBuilder.patchJumps_eq_error, htargets]

/-- Finishing fails only at a jump that goes too far. -/
theorem far_of_error {far : Nat} (hf : building.builder.finish = .error far) :
    far ∈ building.plan.jumpTargets ∧ CodeBuilder.jumpLimit < far := by
  have hfar := h.finish_eq_error.mp hf
  exact ⟨List.mem_of_find?_eq_some hfar, of_decide_eq_true
    (List.find?_some (p := fun t => decide (CodeBuilder.jumpLimit < t)) hfar)⟩

theorem encodes (hf : building.builder.finish = .ok code) :
    code.toList = building.plan.encoding := by
  obtain ⟨hcompletes, hsize⟩ := h.describes.completes hf
  rw [h.targets_eq] at hcompletes
  obtain ⟨hspells, hlength⟩ := Draft.spells_of_completes h.fitting hcompletes
  exact hspells.toList_eq (hsize.trans hlength.symm)

theorem finish_eq_ok : building.builder.finish = .ok code ↔
    (∀ target ∈ building.plan.jumpTargets, target ≤ CodeBuilder.jumpLimit) ∧
      code.toList = building.plan.encoding := by
  constructor
  · intro hf
    refine ⟨fun target hm => Nat.le_of_not_lt fun hlt => ?_, h.encodes hf⟩
    have hfar : (building.plan.jumpTargets.find?
        fun t => decide (CodeBuilder.jumpLimit < t)).isSome := by
      rw [List.find?_isSome]
      exact ⟨target, hm, decide_eq_true hlt⟩
    obtain ⟨far, hfar⟩ := Option.isSome_iff_exists.mp hfar
    rw [h.finish_eq_error.mpr hfar] at hf
    cases hf
  · rintro ⟨hle, hcode⟩
    cases hf : building.builder.finish with
    | ok finished => rw [Array.toList_inj.mp ((h.encodes hf).trans hcode.symm)]
    | error far =>
      obtain ⟨hm, hlt⟩ := h.far_of_error hf
      exact absurd hlt (Nat.not_lt_of_le (hle far hm))

theorem decodes (hf : building.builder.finish = .ok code) :
    code.Decodes 0 building.plan.instructions code.size := by
  have hfit : ∀ instruction ∈ building.plan.draft.instructions (Draft.targets building.builder),
      instruction.Fitting := by
    intro instruction hm
    obtain ⟨entry, hentry, rfl⟩ := List.mem_map.mp (List.mem_reverse.mp hm)
    cases entry with
    | plain instruction => exact h.fitting _ hentry
    | jump opcode label => exact h.describes.fitting_jump hf hentry
  have hdecodes := h.describes.decodes hf hfit
  rwa [h.targets_eq] at hdecodes

/-- Every label goes to a boundary between instructions or to the end. -/
theorem boundary (hf : building.builder.finish = .ok code) (label : Label) :
    code.Boundary (building.plan.target label) ∧ building.plan.target label ≤ code.size := by
  constructor
  · have hboundary := (h.decodes hf).boundary .first (building.plan.place label)
    rwa [Nat.zero_add, Plan.instructions, ← Draft.offset_eq] at hboundary
  · rw [(h.describes.completes hf).2, Draft.size_builder h.fitting]
    exact Draft.offset_le_end

end Sound

/-- What the builder says and what it finishes to, by its plan. -/
structure Refines (building : Building) : Prop where
  finish_ok : ∀ code, building.builder.finish = .ok code ↔
    (∀ target ∈ building.plan.jumpTargets, target ≤ CodeBuilder.jumpLimit) ∧
      code.toList = building.plan.encoding
  fails : (∃ far, building.builder.finish = .error far) ↔
    ∃ target ∈ building.plan.jumpTargets, CodeBuilder.jumpLimit < target
  /-- The error is the first target out of range. -/
  finish_error : ∀ far, building.builder.finish = .error far ↔
    building.plan.jumpTargets.find? (fun t => decide (CodeBuilder.jumpLimit < t)) = some far
  /-- The code is read back as the instructions of the plan, with nothing before or behind. -/
  decodes : ∀ code, building.builder.finish = .ok code →
    code.Decodes 0 building.plan.instructions code.size
  boundary : ∀ code, building.builder.finish = .ok code →
    ∀ target ∈ building.plan.jumpTargets, code.Boundary target ∧ target ≤ code.size
  places_le : ∀ label, building.plan.place label ≤ building.plan.draft.length
  /-- Below 2 ^ 32 labels this is the number as it is stored, in 32 bits. -/
  label_eq : building.builder.createLabel.1 = ⟨building.plan.bound.length⟩
  removes : building.builder.removeLastPop.1 = true →
    building.plan.draft.head? = some (.plain ⟨.pop, []⟩)
  replaces : building.builder.replaceLastPop.1 = true →
    building.plan.draft.head? = some (.plain ⟨.pop, []⟩)

/-- Whatever is asked of a builder, it refines its plan. -/
theorem refines_run {steps : List BuildStep} (h : ∀ step ∈ steps, step.Admissible) :
    (run steps).Refines := by
  have hs := sound_run h
  have hpop : (run steps).builder.lastIs .pop = true →
      (run steps).plan.draft.head? = some (.plain ⟨.pop, []⟩) := by
    intro hl
    obtain ⟨rest, hdraft, -⟩ := hs.pop_of_lastIs hl
    rw [hdraft]
    rfl
  refine ⟨fun code => hs.finish_eq_ok, ?_, fun far => hs.finish_eq_error, fun code => hs.decodes,
    ?_, ?_, ?_, ?_, ?_⟩
  · constructor
    · rintro ⟨far, hf⟩
      exact ⟨far, hs.far_of_error hf⟩
    · rintro ⟨target, hm, hlt⟩
      cases hf : (run steps).builder.finish with
      | ok code => exact absurd ((hs.finish_eq_ok.mp hf).1 target hm) (Nat.not_le_of_lt hlt)
      | error far => exact ⟨far, rfl⟩
  · intro code hf target hm
    obtain ⟨label, -, rfl⟩ := List.mem_map.mp hm
    exact hs.boundary hf label
  · exact hs.place_le
  · have hlength := congrArg List.length hs.labels_eq
    rw [Array.length_toList, List.length_map] at hlength
    rw [← hlength]
    cases (run steps).builder
    rfl
  · intro hr
    cases hl : (run steps).builder.lastIs .pop with
    | true => exact hpop hl
    | false =>
      rw [CodeBuilder.removeLastPop_of_not hl] at hr
      cases hr
  · intro hr
    cases hl : (run steps).builder.lastIs .pop with
    | true => exact hpop hl
    | false =>
      rw [CodeBuilder.replaceLastPop_of_not hl] at hr
      cases hr

/-- A jump over a `pop` that is taken back goes to the end. -/
theorem refines_jump_over_pop :
    (run [.createLabel, .jump .jump ⟨0⟩, .emit .pop [], .bindLabel ⟨0⟩, .removeLastPop]).Refines ∧
    (run [.createLabel, .jump .jump ⟨0⟩, .emit .pop [], .bindLabel ⟨0⟩,
      .removeLastPop]).builder.finish = .ok #[Opcode.jump.toByte, 0, 3] :=
  ⟨refines_run (by decide), by with_unfolding_all rfl⟩

end Building

end Simian
