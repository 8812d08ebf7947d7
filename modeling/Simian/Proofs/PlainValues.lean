import Simian.Proofs.EngineValues

/-!
# Values without functions

A value is plain if there is no function and no closure in it. Plain values are the same
to both engines: of a value and one like it where no function is like any closure, both
are the same plain value. So whatever keeps values alike keeps them plain too, operators
and built-in functions among them.
-/
namespace Simian

mutual

/-- Whether the value has no function in it, built-in ones apart. -/
def Value.isPlain : Value → Bool
  | .null | .int _ | .bool _ | .str _ | .builtin _ => true
  | .array items => arePlain items
  | .hash entries => arePlainEntries entries
  | .function _ | .closure .. | .compiled .. => false

def arePlain : List Value → Bool
  | [] => true
  | value :: rest => value.isPlain && arePlain rest

def arePlainEntries : List (Key × Value) → Bool
  | [] => true
  | (_, value) :: rest => value.isPlain && arePlainEntries rest

end

/-- No function of the evaluator is like a closure. -/
def Making.none : Making := fun _ _ _ => False

mutual

theorem Value.alike_of_isPlain {value : Value} (h : value.isPlain = true) :
    Alike .none value value := by
  match value with
  | .null | .int _ | .bool _ | .str _ | .builtin _ => constructor
  | .array items => exact .array (allAlike_of_arePlain h)
  | .hash entries => exact .hash (entriesAlike_of_arePlain h)
  | .function _ | .closure .. | .compiled .. => cases h

theorem allAlike_of_arePlain {values : List Value} (h : arePlain values = true) :
    AllAlike .none values values := by
  match values with
  | [] => exact .nil
  | value :: rest =>
    rw [arePlain, Bool.and_eq_true] at h
    exact .cons (Value.alike_of_isPlain h.1) (allAlike_of_arePlain h.2)

theorem entriesAlike_of_arePlain {entries : List (Key × Value)}
    (h : arePlainEntries entries = true) : EntriesAlike .none entries entries := by
  match entries with
  | [] => exact .nil
  | (key, value) :: rest =>
    rw [arePlainEntries, Bool.and_eq_true] at h
    exact .cons (Value.alike_of_isPlain h.1) (entriesAlike_of_arePlain h.2)

end

mutual

theorem Alike.isPlain {value other : Value} (h : Alike .none value other) :
    value.isPlain = true := by
  match h with
  | .null | .int _ | .bool _ | .str _ | .builtin _ => rfl
  | .array hi => exact hi.arePlain
  | .hash he => exact he.arePlain
  | .function hof _ => exact hof.elim

theorem AllAlike.arePlain {values others : List Value} (h : AllAlike .none values others) :
    Simian.arePlain values = true := by
  match h with
  | .nil => rfl
  | .cons hv hr =>
    rw [Simian.arePlain, Bool.and_eq_true]
    exact ⟨hv.isPlain, hr.arePlain⟩

theorem EntriesAlike.arePlain {entries others : List (Key × Value)}
    (h : EntriesAlike .none entries others) : arePlainEntries entries = true := by
  match h with
  | .nil => rfl
  | .cons hv hr =>
    rw [arePlainEntries, Bool.and_eq_true]
    exact ⟨hv.isPlain, hr.arePlain⟩

end

theorem arePlain_iff {values : List Value} :
    arePlain values = true ↔ ∀ value ∈ values, value.isPlain = true := by
  induction values with
  | nil => simp [arePlain]
  | cons value rest ih => rw [arePlain, Bool.and_eq_true, ih, List.forall_mem_cons]

/-! ### Results -/

/-- What an operation on plain values gives is plain, since it is like itself. -/
theorem SameOutcome.isPlain {result : Except OperationError Value} {value : Value}
    (h : SameOutcome (Alike .none) result result) (hr : result = .ok value) :
    value.isPlain = true := by
  subst hr
  exact Alike.isPlain h

section
variable {left right value : Value}

theorem BinaryOp.isPlain_apply {op : BinaryOp} (hl : left.isPlain = true)
    (hr : right.isPlain = true) (h : op.apply left right = .ok value) : value.isPlain = true :=
  ((Value.alike_of_isPlain hl).binary (Value.alike_of_isPlain hr) op).isPlain h

theorem UnaryOp.isPlain_apply {op : UnaryOp} (hl : left.isPlain = true)
    (h : op.apply left = .ok value) : value.isPlain = true :=
  ((Value.alike_of_isPlain hl).unary op).isPlain h

theorem Value.isPlain_index (hl : left.isPlain = true) (hr : right.isPlain = true)
    (h : left.index right = .ok value) : value.isPlain = true :=
  ((Value.alike_of_isPlain hl).index (Value.alike_of_isPlain hr)).isPlain h

end

theorem Value.isPlain_ofPairs {pairs : List (Value × Value)} {value : Value}
    (hp : ∀ pair ∈ pairs, pair.1.isPlain = true ∧ pair.2.isPlain = true)
    (h : Value.ofPairs pairs = .ok value) : value.isPlain = true := by
  have hpairs : PairsAlike .none pairs pairs := List.forall₂_same.mpr fun pair hm =>
    ⟨Value.alike_of_isPlain (hp pair hm).1, Value.alike_of_isPlain (hp pair hm).2⟩
  exact hpairs.ofPairs.isPlain h

theorem Builtin.isPlain_call {builtin : Builtin} {arguments : List Value} {sink later : Sink}
    {value : Value} (ha : arePlain arguments = true)
    (h : builtin.call arguments sink = (.ok value, later)) : value.isPlain = true := by
  have hvalue := (allAlike_of_arePlain ha).value builtin
  cases builtin with
  | puts =>
    unfold Builtin.call at h
    dsimp only at h
    split at h
    · cases h
      rfl
    · cases h
  | len | first | last | rest | push => exact hvalue.isPlain (congrArg Prod.fst h)

end Simian
