import Simian.Proofs.FunctionSupport

/-!
# Instructions beside the evaluator

What the machine does with the operands of an expression is what the evaluator does with
their values. Each kind of instruction has its lemma here, for a machine that stands where
the instruction is, with its operands pending.
-/
namespace Simian

namespace Snapshot

variable {s : Snapshot} {front : List Value} {value : Value}

theorem top_of_values (h : s.values = front ++ [value]) : s.top = value := by
  rw [top, h, List.getLast?_append_of_ne_nil _ (List.cons_ne_nil _ _)]
  rfl

theorem dropped_of_values (h : s.values = front ++ [value]) :
    s.dropped = s.placed s.calls front := by
  rw [dropped, h, List.dropLast_concat]
  rfl

theorem topValues_of_values {back : List Value} (h : s.values = front ++ back) :
    s.topValues back.length = back := by
  rw [topValues, h, List.length_append, Nat.add_sub_cancel, List.drop_left]

theorem without_of_values {back : List Value} (h : s.values = front ++ back) :
    s.without back.length = s.placed s.calls front := by
  rw [without, h, List.length_append, Nat.add_sub_cancel, List.take_left]
  rfl

theorem execute_binary (s : Snapshot) (frame : Frame) (op : BinaryOp) :
    s.execute frame ⟨Compile.opcodeOfBinary op, []⟩ = s.binary op := by
  cases op <;> rfl

theorem execute_unary (s : Snapshot) (frame : Frame) (op : UnaryOp) :
    s.execute frame ⟨Compile.opcodeOfUnary op, []⟩ = s.unary op := by
  cases op <;> rfl

theorem execute_jumpNotTruthy (s : Snapshot) (frame : Frame) (target : Nat) :
    s.execute frame ⟨.jumpNotTruthy, [target]⟩ =
      .goes (if s.top.isTruthy then s.dropped else s.dropped.jumped target) := rfl

theorem execute_pop (s : Snapshot) (frame : Frame) :
    s.execute frame ⟨.pop, []⟩ = .goes { s.dropped with lastPopped := s.top } := rfl

theorem size_opcodeOfBinary (op : BinaryOp) :
    (⟨Compile.opcodeOfBinary op, []⟩ : Instruction).size = 1 := by
  cases op <;> rfl

theorem size_opcodeOfUnary (op : UnaryOp) :
    (⟨Compile.opcodeOfUnary op, []⟩ : Instruction).size = 1 := by
  cases op <;> rfl

end Snapshot

namespace Scene

variable {c : Scene} {table : SymbolTable} {depth ip : Nat} {pending : List (Value × Value)}
  {j : Joint}

/-- The machine stands behind an expression with the value of the evaluator. -/
def Gives (c : Scene) (table : SymbolTable) (depth ip : Nat) (pending : List (Value × Value))
    (value : Value) (j : Joint) : Prop :=
  ∃ other, c.Stands table depth ip (pending ++ [(value, other)]) j

theorem agrees_of_gives {value : Value} {ip : Nat} (h : j.machine.Meets c.setting.Apart fun s =>
    c.Gives table depth ip pending value ⟨j.made, j.evaluator, s⟩) :
    c.Agrees j ((pure value : Eval Value) j.evaluator) (c.Gives table depth ip pending) :=
  h.imp fun _ hs => ⟨j.made, hs⟩

/-- The values are those below the last operand and that operand. -/
theorem Stands.values_concat {value other : Value}
    (h : c.Stands table depth ip (pending ++ [(value, other)]) j) :
    j.machine.values = (c.act.low ++ (c.slots ++ pending.map Prod.snd)) ++ [other] := by
  rw [h.values, List.map_append, ← List.append_assoc c.slots, ← List.append_assoc c.act.low]
  rfl

theorem Stands.values_append {operands : List (Value × Value)}
    (h : c.Stands table depth ip (pending ++ operands) j) : j.machine.values =
      (c.act.low ++ (c.slots ++ pending.map Prod.snd)) ++ operands.map Prod.snd := by
  rw [h.values, List.map_append, ← List.append_assoc c.slots, ← List.append_assoc c.act.low]

theorem Stands.alike_front {operands : List (Value × Value)}
    (h : c.Stands table depth ip (pending ++ operands) j) :
    ∀ pair ∈ pending, j.Alike pair.1 pair.2 :=
  fun pair hm => h.alike pair (List.mem_append_left _ hm)

theorem Stands.alike_last {value other : Value}
    (h : c.Stands table depth ip (pending ++ [(value, other)]) j) : j.Alike value other :=
  h.alike _ (List.mem_append_right _ (List.mem_singleton_self _))

theorem Stands.constant (h : c.Stands table depth ip pending j) {index : Nat} {value : Value}
    (hat : c.act.site.code.Holds ip ⟨.constant, [index]⟩)
    (hp : c.act.site.pool[index]? = some value) (hv : j.Alike value value) :
    j.machine.Meets c.setting.Apart fun s => c.Gives table depth (ip + 3) pending value
      ⟨j.made, j.evaluator, s⟩ := by
  have hconstant : j.machine.constants[index]? = some value := by
    rw [h.valid.constants, ← c.pool_eq, hp]
  exact (h.push hat (Snapshot.execute_constant hconstant) hv).imp fun s hs => ⟨value, hs⟩

section
variable {value left right : Value}

theorem Stands.top_one {other : Value}
    (h : c.Stands table depth ip (pending ++ [(value, other)]) j) (calls : List Frame) :
    let s := j.machine.placed calls j.machine.values
    s.top = other ∧ s.dropped =
      j.machine.placed calls (c.act.low ++ (c.slots ++ pending.map Prod.snd)) :=
  ⟨Snapshot.top_of_values h.values_concat, Snapshot.dropped_of_values h.values_concat⟩

theorem Stands.top_two {first second : Value}
    (h : c.Stands table depth ip (pending ++ [(left, first)] ++ [(right, second)]) j)
    (calls : List Frame) :
    let s := j.machine.placed calls j.machine.values
    s.top = second ∧ s.dropped.top = first ∧ s.dropped.dropped =
      j.machine.placed calls (c.act.low ++ (c.slots ++ pending.map Prod.snd)) := by
  obtain ⟨htop, hdropped⟩ := h.top_one calls
  rw [List.map_append, ← List.append_assoc c.slots, ← List.append_assoc c.act.low] at hdropped
  refine ⟨htop, ?_, ?_⟩
  · rw [hdropped]
    exact Snapshot.top_of_values rfl
  · rw [hdropped]
    exact Snapshot.dropped_of_values rfl

/-- Of two operands at the end the first is like the evaluator's too. -/
theorem Stands.alike_two {first second : Value}
    (h : c.Stands table depth ip (pending ++ [(left, first)] ++ [(right, second)]) j) :
    (∀ pair ∈ pending, j.Alike pair.1 pair.2) ∧ j.Alike left first ∧ j.Alike right second :=
  ⟨fun pair hm => h.alike_front pair (List.mem_append_left _ hm),
    h.alike_front _ (List.mem_append_right _ (List.mem_singleton_self _)), h.alike_last⟩

theorem Stands.unary {other : Value}
    (h : c.Stands table depth ip (pending ++ [(value, other)]) j) (op : UnaryOp)
    (hat : c.act.site.code.Holds ip ⟨Compile.opcodeOfUnary op, []⟩) :
    c.Agrees j (Eval.ofOperation (op.apply value) j.evaluator)
      (c.Gives table depth (ip + 1) pending) := by
  have hsettle := h.settle hat h.alike_front ?_ (h.alike_last.unary op)
  · rwa [Snapshot.size_opcodeOfUnary] at hsettle
  · obtain ⟨hother, hrest⟩ := h.top_one _
    rw [Snapshot.execute_unary, Snapshot.unary, hother, hrest]

theorem Stands.binary {first second : Value}
    (h : c.Stands table depth ip (pending ++ [(left, first)] ++ [(right, second)]) j)
    (op : BinaryOp) (hat : c.act.site.code.Holds ip ⟨Compile.opcodeOfBinary op, []⟩) :
    c.Agrees j (Eval.ofOperation (op.apply left right) j.evaluator)
      (c.Gives table depth (ip + 1) pending) := by
  obtain ⟨hpending, hleft, hright⟩ := h.alike_two
  have hsettle := h.settle hat hpending ?_ (hleft.binary hright op)
  · rwa [Snapshot.size_opcodeOfBinary] at hsettle
  · obtain ⟨hsecond, hfirst, hrest⟩ := h.top_two _
    rw [Snapshot.execute_binary, Snapshot.binary, hsecond, hfirst, hrest]

theorem Stands.index {first second : Value}
    (h : c.Stands table depth ip (pending ++ [(left, first)] ++ [(right, second)]) j)
    (hat : c.act.site.code.Holds ip ⟨.index, []⟩) :
    c.Agrees j (Eval.ofOperation (left.index right) j.evaluator)
      (c.Gives table depth (ip + 1) pending) := by
  obtain ⟨hpending, hleft, hright⟩ := h.alike_two
  refine h.settle hat hpending ?_ (hleft.index hright)
  obtain ⟨hsecond, hfirst, hrest⟩ := h.top_two _
  show Snapshot.settle _ (Value.index _ _) = _
  rw [hsecond, hfirst, hrest]

/-! ### Jumps and drops -/

theorem Stands.jump (h : c.Stands table depth ip pending j) {target : Nat}
    (hat : c.act.site.code.Holds ip ⟨.jump, [target]⟩) : j.machine.Meets c.setting.Apart fun s =>
      c.Stands table depth target pending ⟨j.made, j.evaluator, s⟩ := by
  have hmoved := h.moved target h.alike j.machine.lastPopped
  rw [← h.values] at hmoved
  exact .step (h.step_eq hat) (.here hmoved)

/-- The condition decides for both engines. -/
theorem Stands.jumpNotTruthy {other : Value} {target : Nat}
    (h : c.Stands table depth ip (pending ++ [(value, other)]) j)
    (hat : c.act.site.code.Holds ip ⟨.jumpNotTruthy, [target]⟩) :
    j.machine.Meets c.setting.Apart fun s =>
      c.Stands table depth (if value.isTruthy then ip + 3 else target) pending
        ⟨j.made, j.evaluator, s⟩ := by
  obtain ⟨hother, hrest⟩ := h.top_one _
  have hmoved := fun next => h.moved next h.alike_front j.machine.lastPopped
  have hstep := h.step_eq hat
  rw [Snapshot.execute_jumpNotTruthy, hother, hrest] at hstep
  rw [h.alike_last.isTruthy_eq]
  refine .step hstep (.here ?_)
  split
  · exact hmoved _
  · exact hmoved _

/-- A statement drops its value, and the machine remembers it. -/
theorem Stands.drop {other : Value} (h : c.Stands table depth ip (pending ++ [(value, other)]) j)
    (hat : c.act.site.code.Holds ip ⟨.pop, []⟩) : j.machine.Meets c.setting.Apart fun s =>
      c.Stands table depth (ip + 1) pending ⟨j.made, j.evaluator, s⟩ ∧ s.lastPopped = other := by
  obtain ⟨hother, hrest⟩ := h.top_one _
  have hstep := h.step_eq hat
  rw [Snapshot.execute_pop, hother, hrest] at hstep
  exact .step hstep (.here ⟨h.moved _ h.alike_front other, rfl⟩)

/-! ### Arrays and hashes -/

theorem Stands.top_many {operands : List (Value × Value)}
    (h : c.Stands table depth ip (pending ++ operands) j) (calls : List Frame) :
    let s := j.machine.placed calls j.machine.values
    s.topValues operands.length = operands.map Prod.snd ∧ s.without operands.length =
      j.machine.placed calls (c.act.low ++ (c.slots ++ pending.map Prod.snd)) := by
  rw [← List.length_map (f := Prod.snd)]
  exact ⟨Snapshot.topValues_of_values h.values_append, Snapshot.without_of_values h.values_append⟩

theorem Stands.array {operands : List (Value × Value)}
    (h : c.Stands table depth ip (pending ++ operands) j)
    (hat : c.act.site.code.Holds ip ⟨.array, [operands.length]⟩) :
    j.machine.Meets c.setting.Apart fun s =>
      c.Gives table depth (ip + 3) pending (.array (operands.map Prod.fst))
        ⟨j.made, j.evaluator, s⟩ := by
  have hall : AllAlike (Made.making j.made) (operands.map Prod.fst) (operands.map Prod.snd) := by
    rw [allAlike_iff, List.forall₂_map_left_iff, List.forall₂_map_right_iff, List.forall₂_same]
    exact fun pair hm => h.alike pair (List.mem_append_right _ hm)
  refine (h.pushOnto hat h.alike_front ?_ (.array hall)).imp fun s hs => ⟨_, hs⟩
  obtain ⟨htop, hrest⟩ := h.top_many _
  show Snapshot.push (Snapshot.without _ operands.length)
    (.array (Snapshot.topValues _ operands.length)) = _
  rw [htop, hrest]

/-- The keys and values one after the other, as they stand on the stack. -/
def flat (loaded : List ((Value × Value) × (Value × Value))) : List (Value × Value) :=
  loaded.flatMap fun entry => [entry.1, entry.2]

theorem length_flat (loaded : List ((Value × Value) × (Value × Value))) :
    (flat loaded).length = loaded.length * 2 := by
  induction loaded with
  | nil => rfl
  | cons entry rest ih =>
    rw [flat, List.flatMap_cons, List.length_append, ← flat, ih, List.length_cons]
    simp only [List.length_cons, List.length_nil]
    omega

theorem pairUp_flat (loaded : List ((Value × Value) × (Value × Value))) :
    Run.pairUp ((flat loaded).map Prod.snd) = loaded.map fun entry => (entry.1.2, entry.2.2) := by
  induction loaded with
  | nil => rfl
  | cons entry rest ih => exact congrArg _ ih

theorem Stands.hash {loaded : List ((Value × Value) × (Value × Value))}
    (h : c.Stands table depth ip (pending ++ flat loaded) j)
    (hat : c.act.site.code.Holds ip ⟨.hash, [loaded.length * 2]⟩) :
    c.Agrees j (Eval.ofOperation
      (Value.ofPairs (loaded.map fun entry => (entry.1.1, entry.2.1))) j.evaluator)
      (c.Gives table depth (ip + 3) pending) := by
  have hpairs : PairsAlike (Made.making j.made) (loaded.map fun entry => (entry.1.1, entry.2.1))
      (loaded.map fun entry => (entry.1.2, entry.2.2)) := by
    rw [PairsAlike, List.forall₂_map_left_iff, List.forall₂_map_right_iff, List.forall₂_same]
    intro entry hm
    have hflat : ∀ pair ∈ [entry.1, entry.2], j.Alike pair.1 pair.2 := fun pair hp =>
      h.alike pair (List.mem_append_right _ (List.mem_flatMap.mpr ⟨entry, hm, hp⟩))
    exact ⟨hflat _ List.mem_cons_self, hflat _ (List.mem_cons_of_mem _ List.mem_cons_self)⟩
  refine h.settle hat h.alike_front ?_ hpairs.ofPairs
  obtain ⟨htop, hrest⟩ := h.top_many _
  rw [length_flat] at htop hrest
  show Snapshot.settle (Snapshot.without _ (loaded.length * 2))
    (Value.ofPairs (Run.pairUp (Snapshot.topValues _ (loaded.length * 2)))) = _
  rw [htop, hrest, pairUp_flat]

end

end Scene

end Simian
