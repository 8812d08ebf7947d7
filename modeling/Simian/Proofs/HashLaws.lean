import Mathlib.Data.List.Basic
import Simian.Proofs.SingleFrameCode
import Simian.Proofs.ValueEquality

/-!
# Hashes from pairs

A hash is gathered pair by pair. Of the pairs with one key the first gives the place and the last
gives the value, and the first key that cannot be one stops it. The machine finds the pairs as a
run of values on its stack, and the evaluator as the values of the expressions in a literal; both
come to the hash of these pairs or to the same error.
-/
namespace Simian

namespace Entries

/-- The pairs of values that the entries are made from. -/
def toPairs (given : List (Key × Value)) : List (Value × Value) :=
  given.map fun entry => (entry.1.toValue, entry.2)

/-- The entries are what the given ones come to when a key may come again: every key once, in the
order in which the keys first came, with the value that it came with last. -/
structure Tabulates (entries given : List (Key × Value)) : Prop where
  keys : ∀ key, key ∈ entries.map Prod.fst ↔ key ∈ given.map Prod.fst
  order : (entries.map Prod.fst).Pairwise fun key later =>
    (given.map Prod.fst).idxOf key < (given.map Prod.fst).idxOf later
  last : ∀ key value, (key, value) ∈ entries → ∃ front back,
    given = front ++ (key, value) :: back ∧ key ∉ back.map Prod.fst

theorem find?_append (front back : List (Key × Value)) (key : Key) :
    find? key (front ++ back) = (find? key front).or (find? key back) := by
  induction front with
  | nil => rfl
  | cons entry rest ih =>
    rw [List.cons_append, find?, find?, ih]
    split <;> rfl

/-- What is found under a key is the first entry with the key. -/
theorem exists_of_find? {entries : List (Key × Value)} {key : Key} {value : Value}
    (h : find? key entries = some value) : ∃ front back,
      entries = front ++ (key, value) :: back ∧ key ∉ front.map Prod.fst := by
  induction entries with
  | nil => cases h
  | cons entry rest ih =>
    rw [find?] at h
    split at h
    next hk =>
      cases h
      exact ⟨[], rest, by rw [← hk]; rfl, List.not_mem_nil⟩
    next hk =>
      obtain ⟨front, back, rfl, hfront⟩ := ih h
      refine ⟨entry :: front, back, rfl, ?_⟩
      rw [List.map_cons, List.mem_cons, not_or]
      exact ⟨Ne.symm hk, hfront⟩

/-- The value that the key came with last. -/
def last? (key : Key) (given : List (Key × Value)) : Option Value := find? key given.reverse

theorem exists_of_last? {given : List (Key × Value)} {key : Key} {value : Value}
    (h : last? key given = some value) : ∃ front back,
      given = front ++ (key, value) :: back ∧ key ∉ back.map Prod.fst := by
  obtain ⟨front, back, hsplit, hfront⟩ := exists_of_find? h
  refine ⟨back.reverse, front.reverse, ?_, ?_⟩
  · rw [← List.reverse_reverse given, hsplit]
    simp
  · rwa [List.map_reverse, List.mem_reverse]

theorem last?_of_split {front back : List (Key × Value)} {key : Key} {value : Value}
    (h : key ∉ back.map Prod.fst) : last? key (front ++ (key, value) :: back) = some value := by
  have hnone : find? key back.reverse = none := by
    rwa [find?_eq_none_iff, List.map_reverse, List.mem_reverse]
  rw [last?, List.reverse_append, List.reverse_cons, List.append_assoc, find?_append, hnone,
    Option.none_or]
  exact if_pos rfl

theorem last?_concat (given : List (Key × Value)) (key other : Key) (value : Value) :
    last? other (given ++ [(key, value)]) =
      if key = other then some value else last? other given := by
  rw [last?, List.reverse_append, List.reverse_singleton, List.singleton_append, find?]
  rfl

theorem last?_eq_none_iff {given : List (Key × Value)} {key : Key} :
    last? key given = none ↔ key ∉ given.map Prod.fst := by
  rw [last?, find?_eq_none_iff, List.map_reverse, List.mem_reverse]

variable {entries given : List (Key × Value)}

theorem Tabulates.nodup (h : Tabulates entries given) : (entries.map Prod.fst).Nodup := by
  refine h.order.imp fun {key later} hlt heq => ?_
  rw [heq] at hlt
  exact Nat.lt_irrefl _ hlt

/-- What is found under a key is what it came with last. -/
theorem Tabulates.find?_eq (h : Tabulates entries given) (key : Key) :
    find? key entries = last? key given := by
  cases hfind : find? key entries with
  | none =>
    rw [find?_eq_none_iff, h.keys] at hfind
    exact (last?_eq_none_iff.mpr hfind).symm
  | some value =>
    obtain ⟨front, back, rfl, hback⟩ := h.last key value (mem_of_find? hfind)
    exact (last?_of_split hback).symm

end Entries

namespace Gathered

open Entries

/-- What has been gathered from the given entries. -/
structure Holds (gathered : Gathered) (given : List (Key × Value)) : Prop where
  values : ∀ key, gathered.values[key]? = last? key given
  keys : ∀ key, key ∈ gathered.keys ↔ key ∈ given.map Prod.fst
  order : gathered.keys.Pairwise fun later key =>
    (given.map Prod.fst).idxOf key < (given.map Prod.fst).idxOf later

theorem holds_empty : empty.Holds [] where
  values _ := Std.ExtHashMap.getElem?_empty
  keys _ := Iff.rfl
  order := .nil

variable {gathered : Gathered} {given : List (Key × Value)}

theorem Holds.contains_iff (h : gathered.Holds given) (key : Key) :
    gathered.values.contains key ↔ key ∈ given.map Prod.fst := by
  rw [Std.ExtHashMap.contains_eq_isSome_getElem?, h.values, ← not_iff_not, Bool.not_eq_true,
    Option.isSome_eq_false_iff, Option.isNone_iff_eq_none, last?_eq_none_iff]

theorem Holds.insert (h : gathered.Holds given) (key : Key) (value : Value) :
    (gathered.insert key value).Holds (given ++ [(key, value)]) := by
  have hmap : (given ++ [(key, value)]).map Prod.fst = given.map Prod.fst ++ [key] := by
    rw [List.map_append, List.map_singleton]
  -- the places of the keys that are there already stay as they are
  have horder : gathered.keys.Pairwise fun later key' =>
      (given.map Prod.fst ++ [key]).idxOf key' < (given.map Prod.fst ++ [key]).idxOf later := by
    refine h.order.imp_of_mem fun {later key'} hlater hkey hlt => ?_
    rw [List.idxOf_append_of_mem ((h.keys _).mp hlater), List.idxOf_append_of_mem
      ((h.keys _).mp hkey)]
    exact hlt
  refine ⟨fun other => ?_, fun other => ?_, ?_⟩
  · rw [last?_concat, ← h.values]
    simp only [Gathered.insert, Std.ExtHashMap.getElem?_insert, beq_iff_eq]
  · rw [hmap, List.mem_append, List.mem_singleton, ← h.keys]
    unfold Gathered.insert
    dsimp only
    split
    next hin =>
      refine ⟨.inl, fun hor => hor.elim id fun heq => ?_⟩
      rw [heq]
      exact (h.keys key).mpr ((h.contains_iff key).mp hin)
    next => rw [List.mem_cons, or_comm]
  · rw [hmap]
    unfold Gathered.insert
    dsimp only
    split
    next => exact horder
    next hnew =>
      have hnew : key ∉ given.map Prod.fst := fun hin => hnew ((h.contains_iff key).mpr hin)
      refine .cons (fun other hother => ?_) horder
      have hin := (h.keys other).mp hother
      rw [List.idxOf_append_of_mem hin, List.idxOf_append_of_notMem hnew]
      exact Nat.lt_add_right _ (List.idxOf_lt_length_of_mem hin)

theorem toKey_toValue (key : Key) : key.toValue.toKey = .ok key := by
  rw [Value.toKey, Value.key?_toValue]

/-- Entries are taken in one after the other. -/
theorem Holds.insertAll (h : gathered.Holds given) (taken : List (Key × Value))
    (pairs : List (Value × Value)) : ∃ later : Gathered, later.Holds (given ++ taken) ∧
      gathered.insertAll (toPairs taken ++ pairs) = later.insertAll pairs := by
  induction taken generalizing gathered given with
  | nil => exact ⟨gathered, by rwa [List.append_nil], rfl⟩
  | cons entry rest ih =>
    obtain ⟨later, hlater, heq⟩ := ih (h.insert entry.1 entry.2)
    refine ⟨later, by rwa [List.append_cons], ?_⟩
    rw [← heq, toPairs, List.map_cons, List.cons_append, Gathered.insertAll, toKey_toValue]
    rfl

theorem Holds.tabulates (h : gathered.Holds given) : Tabulates gathered.entries given := by
  have hfound {key : Key} (hkey : key ∈ gathered.keys.reverse) :
      ∃ value, gathered.values[key]? = some value := by
    rw [← Option.ne_none_iff_exists', h.values, Ne, last?_eq_none_iff, not_not]
    exact (h.keys key).mp (List.mem_reverse.mp hkey)
  have hkeys : gathered.entries.map Prod.fst = gathered.keys.reverse := by
    rw [entries, List.map_filterMap]
    conv_rhs => rw [← List.filterMap_some (l := gathered.keys.reverse)]
    refine List.filterMap_congr fun key hkey => ?_
    obtain ⟨value, hvalue⟩ := hfound hkey
    rw [hvalue]
    rfl
  refine ⟨fun key => ?_, ?_, fun key value hentry => ?_⟩
  · rw [hkeys, List.mem_reverse, h.keys]
  · rw [hkeys, List.pairwise_reverse]
    exact h.order
  · obtain ⟨_, _, hvalue⟩ := List.mem_filterMap.mp hentry
    obtain ⟨found, hfound, hpair⟩ := Option.map_eq_some_iff.mp hvalue
    cases hpair
    exact exists_of_last? ((h.values key).symm.trans hfound)

end Gathered

namespace Value

open Entries

/-- Pairs whose keys can all be keys are those of entries. -/
theorem exists_toPairs {pairs : List (Value × Value)} (h : ∀ pair ∈ pairs, pair.1.key?.isSome) :
    ∃ given, pairs = toPairs given := by
  induction pairs with
  | nil => exact ⟨[], rfl⟩
  | cons pair rest ih =>
    obtain ⟨hpair, hrest⟩ := List.forall_mem_cons.mp h
    obtain ⟨key, hkey⟩ := Option.isSome_iff_exists.mp hpair
    obtain ⟨given, rfl⟩ := ih hrest
    exact ⟨(key, pair.2) :: given, by simp only [toPairs, List.map_cons, toValue_of_key? hkey]⟩

/-- There is a first pair whose key cannot be one, unless all can. -/
theorem exists_first_unhashable (pairs : List (Value × Value)) :
    (∀ pair ∈ pairs, pair.1.key?.isSome) ∨ ∃ front key value back,
      pairs = front ++ (key, value) :: back ∧ (∀ pair ∈ front, pair.1.key?.isSome) ∧
        key.key? = none := by
  induction pairs with
  | nil => exact .inl fun _ hm => absurd hm List.not_mem_nil
  | cons pair rest ih =>
    by_cases hpair : pair.1.key?.isSome
    · refine ih.imp (fun hrest => List.forall_mem_cons.mpr ⟨hpair, hrest⟩) ?_
      rintro ⟨front, key, value, back, rfl, hfront, hkey⟩
      exact ⟨pair :: front, key, value, back, rfl, List.forall_mem_cons.mpr ⟨hpair, hfront⟩, hkey⟩
    · refine .inr ⟨[], pair.1, pair.2, rest, rfl, fun _ hm => absurd hm List.not_mem_nil, ?_⟩
      simpa using hpair

/-- Keys that can be keys make a hash, which lists each once. -/
theorem tabulates_ofPairs (given : List (Key × Value)) : ∃ entries,
    ofPairs (toPairs given) = .ok (.hash entries) ∧ Tabulates entries given := by
  obtain ⟨later, hlater, heq⟩ := Gathered.holds_empty.insertAll given []
  rw [List.append_nil] at heq
  exact ⟨later.entries, by rw [ofPairs, heq]; rfl, hlater.tabulates⟩

/-- The first key that cannot be one is named. -/
theorem ofPairs_of_unhashable {front : List (Value × Value)} {key : Value}
    (hfront : ∀ pair ∈ front, pair.1.key?.isSome) (hkey : key.key? = none) (value : Value)
    (back : List (Value × Value)) :
    ofPairs (front ++ (key, value) :: back) = .error (.unhashable key.kind) := by
  obtain ⟨given, rfl⟩ := exists_toPairs hfront
  obtain ⟨later, -, heq⟩ := Gathered.holds_empty.insertAll given ((key, value) :: back)
  rw [ofPairs, heq, Gathered.insertAll, toKey, hkey]

theorem ofPairs_eq_error_iff {pairs : List (Value × Value)} {error : OperationError} :
    ofPairs pairs = .error error ↔ ∃ front key value back,
      pairs = front ++ (key, value) :: back ∧ (∀ pair ∈ front, pair.1.key?.isSome) ∧
        key.key? = none ∧ error = .unhashable key.kind := by
  constructor
  · intro h
    rcases exists_first_unhashable pairs with hall | ⟨front, key, value, back, rfl, hfront, hkey⟩
    · obtain ⟨given, rfl⟩ := exists_toPairs hall
      obtain ⟨entries, hok, -⟩ := tabulates_ofPairs given
      cases hok.symm.trans h
    · rw [ofPairs_of_unhashable hfront hkey] at h
      cases h
      exact ⟨front, key, value, back, rfl, hfront, hkey, rfl⟩
  · rintro ⟨front, key, value, back, rfl, hfront, hkey, rfl⟩
    exact ofPairs_of_unhashable hfront hkey value back

/-- A hash comes from pairs whose keys can all be keys. -/
theorem exists_given {pairs : List (Value × Value)} {table : Value}
    (h : ofPairs pairs = .ok table) :
    ∃ given entries, pairs = toPairs given ∧ table = .hash entries ∧ Tabulates entries given := by
  rcases exists_first_unhashable pairs with hall | ⟨front, key, value, back, rfl, hfront, hkey⟩
  · obtain ⟨given, rfl⟩ := exists_toPairs hall
    obtain ⟨entries, hok, htabulates⟩ := tabulates_ofPairs given
    exact ⟨given, entries, rfl, Except.ok.inj (h.symm.trans hok), htabulates⟩
  · rw [ofPairs_of_unhashable hfront hkey] at h
    cases h

/-! ### Looking up -/

theorem index_of_unhashable {key : Value} (entries : List (Key × Value)) (h : key.key? = none) :
    (Value.hash entries).index key = .error (.unhashable key.kind) := by
  rw [index, toKey, h]
  rfl

theorem index_of_key? {value : Value} {key : Key} (entries : List (Key × Value))
    (h : value.key? = some key) :
    (Value.hash entries).index value = .ok ((find? key entries).getD .null) := by
  rw [index, toKey, h]
  rfl

section
variable {given entries : List (Key × Value)}

/-- A value that equals none of the given keys is none of them. -/
theorem not_mem_keys {value : Value} {key : Key} (hkey : value.key? = some key)
    (h : ∀ pair ∈ toPairs given, (pair.1 == value) = false) : key ∉ given.map Prod.fst := by
  intro hin
  obtain ⟨entry, hentry, rfl⟩ := List.mem_map.mp hin
  have hequal : (entry.1.toValue == value) = true := same_toValue_iff.mpr hkey
  exact Bool.false_ne_true ((h _ (List.mem_map_of_mem hentry)).symm.trans hequal)

/-- Under a key equal to the given one of a pair, and to none of a later pair, is the value of this
pair. -/
theorem index_of_last (h : Tabulates entries given) {front back : List (Value × Value)}
    {last value : Value} (hsplit : toPairs given = front ++ (last, value) :: back)
    (hlast : ∀ pair ∈ back, (pair.1 == last) = false) {key : Value} (hkey : (last == key) = true) :
    (Value.hash entries).index key = .ok value := by
  obtain ⟨before, rest, rfl, -, hrest⟩ := List.map_eq_append_iff.mp hsplit
  obtain ⟨⟨name, _⟩, after, rfl, hentry, rfl⟩ := List.map_eq_cons_iff.mp hrest
  cases hentry
  have hname : key.key? = some name := same_toValue_iff.mp hkey
  have hnot : name ∉ after.map Prod.fst := not_mem_keys (key?_toValue name) hlast
  rw [index_of_key? entries hname, h.find?_eq, last?_of_split hnot]
  rfl

/-- Under a key equal to none that was given is nothing. -/
theorem index_of_absent (h : Tabulates entries given) {key : Value} (hkey : key.key?.isSome)
    (habsent : ∀ pair ∈ toPairs given, (pair.1 == key) = false) :
    (Value.hash entries).index key = .ok .null := by
  obtain ⟨name, hname⟩ := Option.isSome_iff_exists.mp hkey
  rw [index_of_key? entries hname, h.find?_eq, last?_eq_none_iff.mpr (not_mem_keys hname habsent)]
  rfl

end

/-- What pairs come to as a hash, and what is found in it. -/
structure Maps (pairs : List (Value × Value)) : Prop where
  /-- Without a hash there is a first key that cannot be one, and its kind is named. -/
  refuses : ∀ error, ofPairs pairs = .error error ↔ ∃ front key value back,
    pairs = front ++ (key, value) :: back ∧ (∀ pair ∈ front, pair.1.key?.isSome) ∧
      key.key? = none ∧ error = .unhashable key.kind
  tabulates : (∀ pair ∈ pairs, pair.1.key?.isSome) → ∃ given entries, pairs = toPairs given ∧
    ofPairs pairs = .ok (.hash entries) ∧ Tabulates entries given
  /-- The last pair with a key gives the value under every equal key. -/
  present : ∀ table, ofPairs pairs = .ok table → ∀ front last value back,
    pairs = front ++ (last, value) :: back → (∀ pair ∈ back, (pair.1 == last) = false) →
      ∀ key, (last == key) = true → table.index key = .ok value
  absent : ∀ table, ofPairs pairs = .ok table → ∀ key : Value, key.key?.isSome →
    (∀ pair ∈ pairs, (pair.1 == key) = false) → table.index key = .ok .null
  unhashable : ∀ table, ofPairs pairs = .ok table → ∀ key : Value, key.key? = none →
    table.index key = .error (.unhashable key.kind)

theorem maps (pairs : List (Value × Value)) : Maps pairs where
  refuses _ := ofPairs_eq_error_iff
  tabulates h := by
    obtain ⟨given, rfl⟩ := exists_toPairs h
    obtain ⟨entries, hok, htabulates⟩ := tabulates_ofPairs given
    exact ⟨given, entries, rfl, hok, htabulates⟩
  present table h front last value back hsplit hlast key hkey := by
    obtain ⟨given, entries, rfl, rfl, htabulates⟩ := exists_given h
    exact index_of_last htabulates hsplit hlast hkey
  absent table h key hkey habsent := by
    obtain ⟨given, entries, rfl, rfl, htabulates⟩ := exists_given h
    exact index_of_absent htabulates hkey habsent
  unhashable table h key hkey := by
    obtain ⟨given, entries, rfl, rfl, -⟩ := exists_given h
    exact index_of_unhashable entries hkey

/-- Of well-formed values comes a well-formed hash. -/
theorem wellFormed_ofPairs {pairs : List (Value × Value)} {table : Value}
    (hpairs : ∀ pair ∈ pairs, pair.2.WellFormed) (h : ofPairs pairs = .ok table) :
    table.WellFormed := by
  obtain ⟨given, entries, rfl, rfl, htabulates⟩ := exists_given h
  refine ⟨htabulates.nodup, entriesWellFormed_iff.mpr fun ⟨key, value⟩ hentry => ?_⟩
  obtain ⟨front, back, rfl, -⟩ := htabulates.last key value hentry
  refine hpairs (key.toValue, value) (List.mem_map.mpr ⟨(key, value), ?_, rfl⟩)
  exact List.mem_append_right _ List.mem_cons_self

end Value

/-! ### The engines -/

/-- Building a hash of values on top of the stack puts the result of an operation in their place, or
faults with its error. A hash of no values has no place on a full stack. -/
inductive Machine.Builds (machine : Machine) (count : Nat) (below : List Value) :
    Except OperationError Value → Prop
  | inPlace {table : Value} {after : Machine}
    (built : Run.buildHash count machine = (.ok (), after))
    (values : after.stack.toList = below ++ [table]) : Builds machine count below (.ok table)
  | refused {error : OperationError} {after : Machine}
    (faulted : Run.buildHash count machine = (.error (.operation error), after)) :
    Builds machine count below (.error error)
  | full {table : Value} {after : Machine} (empty : count = 0)
    (noRoom : machine.stack.capacity ≤ below.length)
    (faulted : Run.buildHash count machine = (.error .stackOverflow, after)) :
    Builds machine count below (.ok table)

/-- The pairs stand on the stack one after the other, each with its key first. -/
def Machine.Stacks (machine : Machine) (below : List Value) (pairs : List (Value × Value)) : Prop :=
  machine.stack.toList = below ++ Passage.flat pairs

theorem Machine.exists_push (machine : Machine) (value : Value)
    (h : machine.stack.toList.length < machine.stack.capacity) :
    ∃ after, Run.push value machine = (.ok (), after) ∧
      after.stack.toList = machine.stack.toList ++ [value] := by
  rw [ValueStack.length_toList] at h
  obtain ⟨stack, hp, -, hlist⟩ := ValueStack.toList_push value h
  exact ⟨{ machine with stack }, by simp only [Run.push, Run.onStack, hp], hlist⟩

theorem Machine.push_of_full (machine : Machine) (value : Value)
    (h : ¬machine.stack.toList.length < machine.stack.capacity) :
    Run.push value machine = (.error .stackOverflow, machine) := by
  rw [ValueStack.length_toList] at h
  simp only [Run.push, Run.onStack, ValueStack.push_full value h]

theorem Machine.Stacks.builds {machine : Machine} {below : List Value}
    {pairs : List (Value × Value)} (h : machine.Stacks below pairs) :
    machine.Builds (pairs.length * 2) below (Value.ofPairs pairs) := by
  obtain ⟨between, htake, hview⟩ := machine.takeTop_apply (pairs.length * 2)
  rw [← Passage.length_flat, Snapshot.topValues_of_values (s := machine.view) h] at htake
  rw [← Passage.length_flat, Snapshot.without_of_values (s := machine.view) h] at hview
  have hbelow : between.stack.toList = below := congrArg Snapshot.values hview
  have hcapacity : between.stack.capacity = machine.stack.capacity := congrArg Snapshot.room hview
  have hbuild : Run.buildHash (pairs.length * 2) machine =
      (do Run.push (← Run.ofOperation (Value.ofPairs pairs))) between := by
    rw [← Passage.length_flat, Run.buildHash, Attempt.bind_of_ok htake, Passage.pairUp_flat]
  cases hresult : Value.ofPairs pairs with
  | ok table =>
    rw [hresult] at hbuild
    by_cases hroom : below.length < machine.stack.capacity
    · obtain ⟨after, hpush, hafter⟩ := between.exists_push table
        (by rw [hbelow, hcapacity]; exact hroom)
      exact .inPlace (hbuild.trans hpush) (by rw [hafter, hbelow])
    · -- the values taken off the stack leave room for the hash, so there were none
      have hnone : pairs.length * 2 = 0 := by
        have hlength := congrArg List.length h
        have hle := machine.stack.size_le_capacity
        rw [ValueStack.length_toList, List.length_append, Passage.length_flat] at hlength
        omega
      have hpush := between.push_of_full table (by rw [hbelow, hcapacity]; exact hroom)
      exact .full hnone (Nat.le_of_not_lt hroom) (hbuild.trans hpush)
  | error error =>
    rw [hresult] at hbuild
    exact .refused hbuild

/-- The value or the failure that the result of an operation is to the evaluator. -/
def Eval.outcome : Except OperationError Value → Except Unwind Value
  | .ok value => .ok value
  | .error error => .error (.failed (.operation error))

/-- The evaluator, one level deeper, has these values for the keys and values in a literal. -/
structure Evaluator.Evaluates (evaluator : Evaluator) (call : Value → List Value → Eval Value)
    (scope : Nat) (items : List (Expr × Expr)) (pairs : List (Value × Value)) (after : Evaluator) :
    Prop where
  depth : evaluator.depth < evaluator.limits.maxDepth
  values : Eval.entries call scope [] items { evaluator with depth := evaluator.depth + 1 } =
    (.ok pairs, after)

theorem Evaluator.Evaluates.hash {evaluator after : Evaluator}
    {call : Value → List Value → Eval Value} {scope : Nat} {items : List (Expr × Expr)}
    {pairs : List (Value × Value)} (h : evaluator.Evaluates call scope items pairs after)
    (span : Span) : Eval.expr call scope (.hash items span) evaluator =
      (Eval.outcome (Value.ofPairs pairs), { after with depth := after.depth - 1 }) := by
  rw [Eval.expr, Scene.nested_apply h.depth, Attempt.bind_of_ok h.values]
  cases Value.ofPairs pairs <;> rfl

/-- Pairs make a hash by the laws of a map, or are refused at the first key that cannot be one. The
machine builds what they make of the values on its stack, and the evaluator gives the same for a
literal. -/
theorem Value.maps_on_both (pairs : List (Value × Value)) :
    Value.Maps pairs ∧
      (∀ (machine : Machine) (below : List Value), machine.Stacks below pairs →
        machine.Builds (pairs.length * 2) below (Value.ofPairs pairs)) ∧
      ∀ (evaluator after : Evaluator) (call : Value → List Value → Eval Value) (scope : Nat)
        (items : List (Expr × Expr)) (span : Span),
        evaluator.Evaluates call scope items pairs after →
          Eval.expr call scope (.hash items span) evaluator =
            (Eval.outcome (Value.ofPairs pairs), { after with depth := after.depth - 1 }) :=
  ⟨Value.maps pairs, fun _ _ h => h.builds, fun _ _ _ _ _ span h => h.hash span⟩

/-- A key that comes again keeps its place and takes the later value, on both engines. -/
theorem Value.maps_repeated_key :
    let pairs : List (Value × Value) := [(.str "a", .int 1), (.str "b", .int 2), (.str "a", .int 3)]
    let machine : Machine :=
      { Machine.create ⟨8, 1, 1⟩ default with
        stack := .ofList (Passage.flat pairs) 8 }
    let items : List (Expr × Expr) := [(.string "a" .zero, .integer 1 .zero),
      (.string "b" .zero, .integer 2 .zero), (.string "a" .zero, .integer 3 .zero)]
    let call : Value → List Value → Eval Value := Eval.apply 1
    let evaluator := Evaluator.create ⟨2, 1⟩
    Value.Maps pairs ∧ machine.Builds 6 [] (Value.ofPairs pairs) ∧
      Eval.expr call 0 (.hash items .zero) evaluator =
        (Eval.outcome (Value.ofPairs pairs), evaluator) := by
  intro pairs machine items call evaluator
  obtain ⟨hmaps, hmachine, hevaluator⟩ := Value.maps_on_both pairs
  refine ⟨hmaps, hmachine machine [] rfl, ?_⟩
  exact hevaluator evaluator { evaluator with depth := 1 } call 0 items .zero ⟨by decide, rfl⟩

end Simian
