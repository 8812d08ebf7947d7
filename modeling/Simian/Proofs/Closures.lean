import Simian.Proofs.InstructionEffects
import Simian.Value.Builtin

/-!
# Closures inside values

A value closes over what is fine if every closure in it, however deep in arrays, hashes and
captured values, has a fine body for the number of values it captured. Operators make data
only, and whatever an index or a built-in function gives was inside what it was given, so
operations on such values give such values. A value is sound for a pool if its closures are
those of verified functions.
-/
namespace Simian

namespace Value

mutual

/-- Every closure inside has a body that is fine for as many values as it captured. -/
def Closes (fine : CompiledFunction → Nat → Prop) : Value → Prop
  | .array items => AllClose fine items
  | .hash entries => EntriesClose fine entries
  | .closure _ body captured => fine body captured.length ∧ AllClose fine captured
  | _ => True

def AllClose (fine : CompiledFunction → Nat → Prop) : List Value → Prop
  | [] => True
  | item :: rest => item.Closes fine ∧ AllClose fine rest

def EntriesClose (fine : CompiledFunction → Nat → Prop) : List (Key × Value) → Prop
  | [] => True
  | (_, value) :: rest => value.Closes fine ∧ EntriesClose fine rest

end

variable {fine also : CompiledFunction → Nat → Prop}

theorem allClose_iff {items : List Value} :
    AllClose fine items ↔ ∀ item ∈ items, item.Closes fine := by
  induction items with
  | nil => simp [AllClose]
  | cons item rest ih => simp [AllClose, ih]

theorem entriesClose_iff {entries : List (Key × Value)} :
    EntriesClose fine entries ↔ ∀ entry ∈ entries, entry.2.Closes fine := by
  induction entries with
  | nil => simp [EntriesClose]
  | cons entry rest ih => simp [EntriesClose, ih]

mutual

theorem Closes.mono (himp : ∀ body count, fine body count → also body count) (value : Value)
    (h : value.Closes fine) : value.Closes also := by
  match value with
  | .array items => exact allClose_mono himp items h
  | .hash entries => exact entriesClose_mono himp entries h
  | .closure _ body captured => exact ⟨himp _ _ h.1, allClose_mono himp captured h.2⟩
  | .null | .int _ | .bool _ | .str _ | .function _ | .compiled _ _ | .builtin _ => exact trivial

theorem allClose_mono (himp : ∀ body count, fine body count → also body count)
    (items : List Value) (h : AllClose fine items) : AllClose also items := by
  match items with
  | [] => exact trivial
  | item :: rest => exact ⟨Closes.mono himp item h.1, allClose_mono himp rest h.2⟩

theorem entriesClose_mono (himp : ∀ body count, fine body count → also body count)
    (entries : List (Key × Value)) (h : EntriesClose fine entries) : EntriesClose also entries := by
  match entries with
  | [] => exact trivial
  | (_, value) :: rest => exact ⟨Closes.mono himp value h.1, entriesClose_mono himp rest h.2⟩

end

/-- Every closure inside is one of a verified function. -/
abbrev Sound (pool : Array Value) (value : Value) : Prop := value.Closes (Verified pool)

theorem Sound.mono {pool later : Array Value} (hp : Pool.Extends pool later) (value : Value)
    (h : value.Sound pool) : value.Sound later :=
  Closes.mono (fun _ _ hv => hv.mono hp) value h

/-- Data without parts. -/
def IsScalar : Value → Prop
  | .null | .int _ | .bool _ | .str _ => True
  | _ => False

theorem IsScalar.closes {value : Value} (h : value.IsScalar) : value.Closes fine := by
  cases value <;> first | exact trivial | exact h.elim

end Value

/-! ### Operators -/

theorem Integer.isScalar_of_fitting {word : Int} {error : OperationError} {value : Value}
    (h : (match Integer.fit? word with
      | some word => .ok (.int word)
      | none => .error error : Except OperationError Value) = .ok value) : value.IsScalar := by
  split at h
  · cases h; trivial
  · cases h

theorem BinaryOp.isScalar_of_holds {result : Option Bool} {error : OperationError} {value : Value}
    (h : (match result with
      | some holds => .ok (.bool holds)
      | none => .error error : Except OperationError Value) = .ok value) : value.IsScalar := by
  split at h
  · cases h; trivial
  · cases h

theorem BinaryOp.isScalar_of_onIntegers {op : BinaryOp} {a b : Int64} {value : Value}
    (h : op.onIntegers a b = .ok value) : value.IsScalar := by
  unfold onIntegers at h
  dsimp only at h
  split at h
  · exact Integer.isScalar_of_fitting h
  · exact Integer.isScalar_of_fitting h
  · exact Integer.isScalar_of_fitting h
  · split at h
    · cases h
    · exact Integer.isScalar_of_fitting h
  · split at h
    · cases h
    · split at h
      · exact Integer.isScalar_of_fitting h
      · cases h
  · exact isScalar_of_holds h

theorem BinaryOp.isScalar_of_onTexts {op : BinaryOp} {a b : String} {value : Value}
    (h : op.onTexts a b = .ok value) : value.IsScalar := by
  unfold onTexts at h
  split at h
  · cases h; trivial
  · exact isScalar_of_holds h

theorem BinaryOp.isScalar_of_apply {op : BinaryOp} {left right value : Value}
    (h : op.apply left right = .ok value) : value.IsScalar := by
  unfold apply at h
  split at h
  · cases h; trivial
  · cases h; trivial
  · split at h
    · exact isScalar_of_onIntegers h
    · exact isScalar_of_onTexts h
    · cases h

theorem UnaryOp.isScalar_of_apply {op : UnaryOp} {operand value : Value}
    (h : op.apply operand = .ok value) : value.IsScalar := by
  cases op with
  | negate =>
    simp only [apply] at h
    unfold Value.negate at h
    split at h
    · split at h
      · cases h; trivial
      · cases h
    · cases h
  | invert => cases h; trivial

variable {fine : CompiledFunction → Nat → Prop}

theorem Value.closes_getD {items : List Value} (h : ∀ item ∈ items, item.Closes fine) (i : Nat) :
    (items.getD i .null).Closes fine := by
  rw [List.getD_eq_getElem?_getD]
  cases hi : items[i]? with
  | none => trivial
  | some item => exact h item (List.mem_of_getElem? hi)

theorem Entries.closes_find? {entries : List (Key × Value)} {key : Key} {value : Value}
    (h : ∀ entry ∈ entries, entry.2.Closes fine) (hf : find? key entries = some value) :
    value.Closes fine := by
  induction entries with
  | nil => cases hf
  | cons entry rest ih =>
    rw [find?] at hf
    split at hf
    · cases hf
      exact h entry List.mem_cons_self
    · exact ih (fun e he => h e (List.mem_cons_of_mem _ he)) hf

theorem Value.closes_index {collection key value : Value} (hc : collection.Closes fine)
    (h : collection.index key = .ok value) : value.Closes fine := by
  unfold Value.index at h
  split at h
  next items i =>
    cases h
    split
    · exact closes_getD (allClose_iff.mp hc) _
    · trivial
  next entries =>
    cases hk : key.toKey with
    | error error => rw [hk] at h; cases h
    | ok k =>
      rw [hk] at h
      cases h
      cases hf : Entries.find? k entries with
      | none => trivial
      | some found => exact Entries.closes_find? (entriesClose_iff.mp hc) hf
  · cases h

/-! ### Built-in functions -/

theorem Value.closes_tail {items : List Value} (h : ∀ item ∈ items, item.Closes fine) :
    ∀ item ∈ items.tail, item.Closes fine :=
  fun item hi => h item (List.mem_of_mem_tail hi)

theorem Builtin.arguments_of_onlyArgument {builtin : Builtin} {arguments : List Value}
    {argument : Value} (h : builtin.onlyArgument arguments = .ok argument) :
    arguments = [argument] := by
  unfold onlyArgument at h
  split at h
  · cases h; rfl
  · cases h

theorem Builtin.argument_of_arrayArgument {builtin : Builtin} {argument : Value}
    {items : List Value} (h : builtin.arrayArgument argument = .ok items) :
    argument = .array items := by
  unfold arrayArgument at h
  split at h
  · cases h; rfl
  · cases h

theorem except_bind_eq_ok {ε α β : Type} {first : Except ε α} {next : α → Except ε β} {result : β}
    (h : (first >>= next) = .ok result) :
    ∃ value, first = .ok value ∧ next value = .ok result := by
  cases first with
  | error error => cases h
  | ok value => exact ⟨value, rfl, h⟩

/-- The items of the array that is the only argument close over what the arguments do. -/
theorem Builtin.closes_items {builtin : Builtin} {arguments items : List Value} {argument : Value}
    (ha : ∀ item ∈ arguments, item.Closes fine)
    (ho : builtin.onlyArgument arguments = .ok argument)
    (hi : builtin.arrayArgument argument = .ok items) : ∀ item ∈ items, item.Closes fine := by
  rw [arguments_of_onlyArgument ho, argument_of_arrayArgument hi] at ha
  exact Value.allClose_iff.mp (ha _ (List.mem_singleton_self _))

theorem Builtin.closes_value {builtin : Builtin} {arguments : List Value} {value : Value}
    (ha : ∀ item ∈ arguments, item.Closes fine)
    (h : builtin.value arguments = .ok value) : value.Closes fine := by
  cases builtin with
  | len =>
    obtain ⟨argument, _, h⟩ := except_bind_eq_ok h
    split at h <;> cases h <;> trivial
  | puts => cases h; trivial
  | first =>
    obtain ⟨argument, ho, h⟩ := except_bind_eq_ok h
    obtain ⟨items, hi, h⟩ := except_bind_eq_ok h
    cases h
    have hitems := closes_items ha ho hi
    cases items with
    | nil => trivial
    | cons item rest => exact hitems item List.mem_cons_self
  | last =>
    obtain ⟨argument, ho, h⟩ := except_bind_eq_ok h
    obtain ⟨items, hi, h⟩ := except_bind_eq_ok h
    cases h
    have hitems := closes_items ha ho hi
    cases hl : items.getLast? with
    | none => trivial
    | some item => exact hitems item (List.mem_of_getLast? hl)
  | rest =>
    obtain ⟨argument, ho, h⟩ := except_bind_eq_ok h
    obtain ⟨items, hi, h⟩ := except_bind_eq_ok h
    cases h
    split
    · trivial
    · exact Value.allClose_iff.mpr (Value.closes_tail (closes_items ha ho hi))
  | push =>
    simp only [Builtin.value] at h
    split at h
    next collection item =>
      obtain ⟨items, hi, h⟩ := except_bind_eq_ok h
      cases h
      have hcollection := ha collection List.mem_cons_self
      rw [argument_of_arrayArgument hi] at hcollection
      refine Value.allClose_iff.mpr fun v hv => ?_
      rcases List.mem_append.mp hv with hv | hv
      · exact Value.allClose_iff.mp hcollection v hv
      · cases List.mem_singleton.mp hv
        exact ha item (List.mem_cons_of_mem _ List.mem_cons_self)
    · cases h

theorem Builtin.closes_call {builtin : Builtin} {arguments : List Value} {sink later : Sink}
    {value : Value} (ha : ∀ item ∈ arguments, item.Closes fine)
    (h : builtin.call arguments sink = (.ok value, later)) : value.Closes fine := by
  unfold call at h
  split at h
  · split at h
    · cases h; trivial
    · cases h
  · obtain ⟨hv, _⟩ := Prod.mk.inj h
    exact closes_value ha hv

/-! ### Hashes -/

/-- What the pairs taken in so far hold closes over what is fine. -/
theorem Gathered.closes_insertAll {pairs : List (Value × Value)} :
    ∀ {gathered later : Gathered}, (∀ (key : Key) (value : Value),
      gathered.values[key]? = some value → value.Closes fine) →
    (∀ pair ∈ pairs, pair.2.Closes fine) → gathered.insertAll pairs = .ok later →
    ∀ (key : Key) (value : Value), later.values[key]? = some value → value.Closes fine := by
  induction pairs with
  | nil =>
    intro gathered later hg _ h
    cases h
    exact hg
  | cons pair rest ih =>
    intro gathered later hg hp h
    obtain ⟨k, v⟩ := pair
    rw [insertAll] at h
    split at h
    next key hk =>
      refine ih (fun other value ho => ?_) (fun p hm => hp p (List.mem_cons_of_mem _ hm)) h
      rw [Gathered.insert] at ho
      dsimp only at ho
      rw [Std.ExtHashMap.getElem?_insert] at ho
      split at ho
      · cases ho
        exact hp _ List.mem_cons_self
      · exact hg other value ho
    · cases h

theorem Value.closes_ofPairs {pairs : List (Value × Value)} {value : Value}
    (hp : ∀ pair ∈ pairs, pair.2.Closes fine) (h : Value.ofPairs pairs = .ok value) :
    value.Closes fine := by
  unfold Value.ofPairs at h
  split at h
  next gathered hg =>
    cases h
    have hall := Gathered.closes_insertAll
      (fun key value hv => by
        rw [show Gathered.empty.values[key]? = none from Std.ExtHashMap.getElem?_empty] at hv
        cases hv) hp hg
    refine entriesClose_iff.mpr fun entry he => ?_
    obtain ⟨key, _, hv⟩ := List.mem_filterMap.mp he
    obtain ⟨value, hat, rfl⟩ := Option.map_eq_some_iff.mp hv
    exact hall key value hat
  · cases h

end Simian
