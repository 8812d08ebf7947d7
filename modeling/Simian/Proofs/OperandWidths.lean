import Simian.Proofs.RecordInvariants

/-!
# No operand is cut

Behind the last statement of a unit no function is open any more. So if the unit
compiles, everything that it asked for fits, and its code decodes to just that. If
something does not fit, the unit has failed, and either a limit refused it or another
error came before the end of the function that asked for it.
-/
namespace Simian

open Compile

/-- Where there is no function to leave, leaving its scope leaves its code only. -/
theorem Compile.leaveBuilder_of_isGlobal {compiler : Compiler}
    (hg : compiler.symbols.isGlobal = true) :
    leaveBuilder compiler = leaveScope compiler := by
  obtain ⟨constants, places, ⟨inner, outer⟩, builder, enclosing, depth, span, maxDepth⟩ := compiler
  cases outer with
  | nil => rfl
  | cons next rest => cases hg

theorem Compiler.Ready.sound_start {compiler : Compiler} (h : compiler.Ready) :
    Recorder.Sound compiler.constants.size
      (.start { compiler with builder := .empty, enclosing := [] }) where
  pool := h.pool
  symbols := h.symbols
  opened := by
    have hg := h.isGlobal
    obtain ⟨_, _, ⟨inner, outer⟩, _, _, _, _, _⟩ := compiler
    cases outer with
    | nil => exact ⟨⟨.empty, fun _ hm => by cases hm⟩, trivial⟩
    | cons next rest => cases hg
  finished := fun _ hm => by cases hm
  functions := fun index id body hle hat => by
    have hlt := (Array.getElem?_eq_some_iff.mp hat).1
    exact absurd hlt (Nat.not_lt_of_le hle)
  asked := fun _ hm => by cases hm

/-- What holds of the record of a unit that compiles. -/
structure Recorder.Completed (count : Nat) (unit : Bytecode) (recorder : Recorder) : Prop where
  sound : recorder.Sound count
  draft_eq : recorder.draft = []
  enclosing_eq : recorder.enclosing = []
  constants_eq : recorder.compiler.constants = unit.constants
  code : ∃ instructions, (unit.code, instructions) ∈ recorder.finished

/-- After the statements of a unit its own code is the only one that is open, and the limits that
concern functions do not matter to it. -/
theorem Record.ends_program {compiler : Compiler} (h : compiler.Ready) (tree : Program) :
    Ends compiler.constants.size (Recorder.Completed compiler.constants.size)
      (program tree (.start compiler)) := by
  unfold program
  have hopen : lift (Attempt.modify fun compiler =>
      { compiler with builder := .empty, enclosing := [] }) (.start compiler) =
    (.ok (), .start { compiler with builder := .empty, enclosing := [] }) := rfl
  rw [Attempt.bind_of_ok hopen]
  have hstart := h.sound_start
  have hstmts := (Script.stmts tree.statements).keeps_record _ hstart
  have herase := Script.erases_record (Script.stmts tree.statements)
    (.start { compiler with builder := .empty, enclosing := [] })
  cases hr : (Script.stmts tree.statements).record
      (.start { compiler with builder := .empty, enclosing := [] }) with
  | mk result recorder =>
    rw [hr] at hstmts herase
    cases hstmts with
    | limit hl =>
      rw [Attempt.bind_of_error hr]
      exact .limit hl
    | stopped hs =>
      rw [Attempt.bind_of_error hr]
      exact .stopped hs
    | ok hs =>
      rw [Attempt.bind_of_ok hr]
      have hsound : Compiler.Sound { compiler with builder := .empty, enclosing := [] } :=
        ⟨CodeBuilder.sound_empty, h.symbols, h.pool⟩
      have hlaid := lays_stmts tree.statements hsound herase.symm
      have hglobal : recorder.compiler.symbols.isGlobal = true :=
        hlaid.leads.symbols.isGlobal_eq.trans h.isGlobal
      have hcaptures := hs.symbols.captures_eq hglobal
      have henclosing : recorder.enclosing = [] := by
        have hopened := hs.opened.2
        rw [show recorder.compiler.enclosing = [] from hlaid.leads.enclosing] at hopened
        cases hd : recorder.enclosing with
        | nil => rfl
        | cons draft rest =>
          rw [hd] at hopened
          exact hopened.elim
      refine (ends_leave hs (leaveBuilder_of_isGlobal hglobal)).bind fun code after hleft => ?_
      refine .ok ⟨hleft.sound (fun hg => ?_) ?_, ?_, ?_, rfl, hleft.finished⟩
      · rw [hglobal] at hg
        cases hg
      · rw [hcaptures]
        exact Nat.zero_le _
      · rw [hleft.draft_eq, henclosing]
        rfl
      · rw [hleft.enclosing_eq, henclosing]
        rfl

namespace Compiler

theorem compile_of_ok {compiler later : Compiler} {tree : Program} {unit : Bytecode}
    (h : Compile.program tree compiler = (.ok unit, later)) :
    compiler.compile tree = (.ok unit, later) := by
  unfold compile
  rw [h]

theorem compile_of_error {compiler failed : Compiler} {tree : Program} {error : CompileError}
    (h : Compile.program tree compiler = (.error error, failed)) :
    ∃ later, compiler.compile tree = (.error error, later) := by
  unfold compile
  rw [h]
  exact ⟨_, rfl⟩

/-- What becomes of the operands that a unit asks for. -/
structure Uncut (compiler : Compiler) (tree : Program) : Prop where
  /-- The record is one of the compilation itself. -/
  recorded : (compiler.record tree).compiler = (Compile.program tree compiler).2
  /-- If the unit compiles, then every instruction that was asked for fits. -/
  fitting : ∀ unit later, compiler.compile tree = (.ok unit, later) →
    ∀ instruction ∈ (compiler.record tree).asked, instruction.Fitting
  /-- The code of the unit is in the record, and that of each function that the unit adds. -/
  code : ∀ unit later, compiler.compile tree = (.ok unit, later) →
    ∃ instructions, (unit.code, instructions) ∈ (compiler.record tree).finished
  functions : ∀ unit later, compiler.compile tree = (.ok unit, later) → ∀ index id body,
    compiler.constants.size ≤ index → unit.constants[index]? = some (.compiled id body) →
    ∃ instructions, (body.code, instructions) ∈ (compiler.record tree).finished
  /-- Code in the record decodes to what was asked for in it, from its first byte to its last. -/
  decodes : ∀ unit later, compiler.compile tree = (.ok unit, later) →
    ∀ stream ∈ (compiler.record tree).finished, stream.1.Decodes 0 stream.2 stream.1.size ∧
      ∀ instruction ∈ stream.2, instruction ∈ (compiler.record tree).asked
  /-- If an instruction does not fit, then the unit fails: by a limit, or else while the function
  that asks for the instruction is still being compiled. -/
  refused : ∀ instruction ∈ (compiler.record tree).asked, ¬instruction.Fitting →
    ∃ error later, compiler.compile tree = (.error error, later) ∧
      (error.cause.isLimit = true ∨
        ∃ draft ∈ (compiler.record tree).draft :: (compiler.record tree).enclosing,
          .plain instruction ∈ draft)

theorem compiler_record (compiler : Compiler) (tree : Program) :
    (compiler.record tree).compiler = (Compile.program tree compiler).2 :=
  congrArg Prod.snd (Record.Erases.program tree (.start compiler))

variable {compiler : Compiler} {tree : Program}

/-- A unit that compiles leaves no function open, so that everything in its record fits. -/
theorem uncut_of_completed {unit : Bytecode}
    (h : (compiler.record tree).Completed compiler.constants.size unit)
    (hc : (compiler.compile tree).1 = .ok unit) : compiler.Uncut tree := by
  have hunit : ∀ other later, compiler.compile tree = (.ok other, later) → other = unit := by
    intro other later he
    rw [he] at hc
    exact Except.ok.inj hc
  have herase := compiler_record compiler tree
  have hfit : ∀ instruction ∈ (compiler.record tree).asked, instruction.Fitting := by
    intro instruction hm
    by_contra hunfit
    obtain ⟨draft, hd, hi⟩ := h.sound.asked instruction hm hunfit
    rw [h.draft_eq, h.enclosing_eq] at hd
    cases List.mem_singleton.mp hd
    cases hi
  refine ⟨herase, fun _ _ _ => hfit, fun other later he => ?_,
    fun other later he index id body hle hat => ?_, fun _ _ _ stream hm => ?_,
    fun instruction hm hunfit => absurd (hfit instruction hm) hunfit⟩
  · rw [hunit other later he]
    exact h.code
  · rw [hunit other later he, ← h.constants_eq] at hat
    exact h.sound.functions index id body hle hat
  · obtain ⟨hdecodes, hall⟩ := h.sound.finished stream hm
    exact ⟨hdecodes, fun instruction hi => (hall instruction hi).1⟩

/-- A unit that fails is uncut if an instruction that does not fit explains the failure. -/
theorem uncut_of_error {error : CompileError} {later : Compiler}
    (hc : compiler.compile tree = (.error error, later))
    (h : error.cause.isLimit = true ∨ (compiler.record tree).Sound compiler.constants.size) :
    compiler.Uncut tree := by
  have herase := compiler_record compiler tree
  have hnot : ∀ (unit : Bytecode) (later : Compiler),
      compiler.compile tree ≠ (.ok unit, later) := by
    intro unit later he
    rw [hc] at he
    cases he
  refine ⟨herase, fun _ _ he => absurd he (hnot _ _), fun _ _ he => absurd he (hnot _ _),
    fun _ _ he => absurd he (hnot _ _), fun _ _ he => absurd he (hnot _ _),
    fun instruction hm hunfit => ⟨error, later, hc, ?_⟩⟩
  exact h.imp_right fun hs => hs.asked instruction hm hunfit

/-- Whatever was compiled before, no operand of a unit is cut. -/
theorem uncut_of_afterAll (maxDepth : Nat) (trees : List Program) (tree : Program) :
    ((create maxDepth).afterAll trees).Uncut tree := by
  have hready := Ready.afterAll trees (ready_create maxDepth)
  generalize (create maxDepth).afterAll trees = compiler at hready
  have hends := Record.ends_program hready tree
  have herase := Record.Erases.program tree (.start compiler)
  have hrecord : compiler.record tree = (Record.program tree (.start compiler)).2 := rfl
  cases hr : Record.program tree (.start compiler) with
  | mk result recorder =>
    rw [hr] at hends herase hrecord
    have hprogram : Compile.program tree compiler = (result, recorder.compiler) := herase.symm
    dsimp only at hrecord
    cases hends with
    | ok hcompleted =>
      refine uncut_of_completed (hrecord ▸ hcompleted) ?_
      rw [compile_of_ok hprogram]
    | limit hlimit =>
      obtain ⟨later, hc⟩ := compile_of_error hprogram
      exact uncut_of_error hc (.inl hlimit)
    | stopped hsound =>
      obtain ⟨later, hc⟩ := compile_of_error hprogram
      exact uncut_of_error hc (.inr (hrecord ▸ hsound))

end Compiler

end Simian
