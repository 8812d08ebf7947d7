import Simian.Proofs.EngineValues
import Simian.Proofs.Lookups

/-!
# Values by the functions in them

Evaluation makes functions from literals only, and moves them about: into arrays and hashes, out
of these again, into scopes and back. So what holds of every function that is made holds of every
function in a value that an operation gives, a built-in function returns or a name is bound to.
-/
namespace Simian

namespace Value

/-- Every function in the value is one of the evaluator, and fine. -/
def Carries (fine : TreeFunction → Prop) (value : Value) : Prop :=
  ∃ other, Alike (fun tree _ _ => fine tree) value other

variable {fine also : TreeFunction → Prop} {value : Value}

theorem Carries.mono (h : value.Carries fine) (himp : ∀ tree, fine tree → also tree) :
    value.Carries also := by
  obtain ⟨other, h⟩ := h
  exact ⟨other, h.mono fun tree _ _ => himp tree⟩

theorem IsScalar.carries (h : value.IsScalar) : value.Carries fine := ⟨value, h.alike⟩

theorem carries_null : Value.null.Carries fine := ⟨.null, .null⟩

theorem carries_builtin (which : Builtin) : (Value.builtin which).Carries fine :=
  ⟨.builtin which, .builtin which⟩

theorem allCarry_iff {items : List Value} : (∀ item ∈ items, item.Carries fine) ↔
    ∃ others, AllAlike (fun tree _ _ => fine tree) items others := by
  constructor
  · intro h
    induction items with
    | nil => exact ⟨[], .nil⟩
    | cons item rest ih =>
      obtain ⟨other, hv⟩ := h item List.mem_cons_self
      obtain ⟨others, hr⟩ := ih fun v hv => h v (List.mem_cons_of_mem _ hv)
      exact ⟨other :: others, .cons hv hr⟩
  · rintro ⟨others, h⟩ item hi
    obtain ⟨i, hi⟩ := List.getElem?_of_mem hi
    rcases h.getElem? i with ⟨hn, -⟩ | ⟨value, other, hv, -, ha⟩
    · cases hn.symm.trans hi
    · obtain rfl : item = value := Option.some.inj (hi.symm.trans hv)
      exact ⟨other, ha⟩

theorem carries_array {items : List Value} (h : ∀ item ∈ items, item.Carries fine) :
    (Value.array items).Carries fine := by
  obtain ⟨others, hall⟩ := allCarry_iff.mp h
  exact ⟨.array others, .array hall⟩

theorem carries_function {tree : TreeFunction} :
    (Value.function tree).Carries fine ↔ fine tree := by
  constructor
  · rintro ⟨other, h⟩
    cases h with
    | function hof _ => exact hof
  · intro h
    exact ⟨.closure (tree.id + 1) default [], .function h .nil⟩

/-- What an operation on such values gives is such a value. -/
theorem carries_of_sameOutcome {first second : Except OperationError Value}
    (h : SameOutcome (Alike fun tree _ _ => fine tree) first second) (hf : first = .ok value) :
    value.Carries fine := by
  subst hf
  cases second with
  | ok other => exact ⟨other, h⟩
  | error error => exact h.elim

theorem Carries.index {collection key : Value} (hc : collection.Carries fine)
    (hk : key.Carries fine) (h : collection.index key = .ok value) : value.Carries fine := by
  obtain ⟨_, hc⟩ := hc
  obtain ⟨_, hk⟩ := hk
  exact carries_of_sameOutcome (hc.index hk) h

theorem carries_ofPairs {pairs : List (Value × Value)}
    (hp : ∀ pair ∈ pairs, pair.1.Carries fine ∧ pair.2.Carries fine)
    (h : Value.ofPairs pairs = .ok value) : value.Carries fine := by
  have hpairs : ∃ others, PairsAlike (fun tree _ _ => fine tree) pairs others := by
    clear h
    induction pairs with
    | nil => exact ⟨[], .nil⟩
    | cons pair rest ih =>
      obtain ⟨⟨key, hk⟩, ⟨other, hv⟩⟩ := hp pair List.mem_cons_self
      obtain ⟨others, hr⟩ := ih fun p hm => hp p (List.mem_cons_of_mem _ hm)
      exact ⟨(key, other) :: others, .cons ⟨hk, hv⟩ hr⟩
  obtain ⟨others, hpairs⟩ := hpairs
  exact carries_of_sameOutcome hpairs.ofPairs h

end Value

variable {fine also : TreeFunction → Prop}

theorem Builtin.carries_call {builtin : Builtin} {arguments : List Value} {sink later : Sink}
    {value : Value} (ha : ∀ item ∈ arguments, item.Carries fine)
    (h : builtin.call arguments sink = (.ok value, later)) : value.Carries fine := by
  unfold call at h
  split at h
  · split at h
    · cases h
      exact Value.carries_null
    · cases h
  · obtain ⟨others, hall⟩ := Value.allCarry_iff.mp ha
    exact Value.carries_of_sameOutcome (hall.value builtin) (Prod.mk.inj h).1

/-! ### Bindings -/

/-- Every value that a name is bound to carries fine functions only. -/
def CarryAll (fine : TreeFunction → Prop) (bindings : Std.ExtHashMap String Value) : Prop :=
  ∀ (name : String) (value : Value), bindings[name]? = some value → value.Carries fine

theorem carryAll_empty : CarryAll fine ∅ := by
  intro name value h
  rw [Std.ExtHashMap.getElem?_empty] at h
  cases h

theorem CarryAll.insert {bindings : Std.ExtHashMap String Value} {value : Value}
    (h : CarryAll fine bindings) (name : String) (hv : value.Carries fine) :
    CarryAll fine (bindings.insert name value) := by
  intro other found hfound
  rw [Std.ExtHashMap.getElem?_insert] at hfound
  split at hfound
  · cases hfound
    exact hv
  · exact h other found hfound

theorem CarryAll.foldl_insert {pairs : List (String × Value)}
    {bindings : Std.ExtHashMap String Value} (h : CarryAll fine bindings)
    (hp : ∀ pair ∈ pairs, pair.2.Carries fine) :
    CarryAll fine (pairs.foldl
      (fun bindings (parameter, argument) => bindings.insert parameter argument) bindings) := by
  induction pairs generalizing bindings with
  | nil => exact h
  | cons pair rest ih =>
    exact ih (h.insert pair.1 (hp pair List.mem_cons_self))
      fun p hm => hp p (List.mem_cons_of_mem _ hm)

/-- What a call binds is the function itself and the arguments. -/
theorem carryAll_callBindings {tree : TreeFunction} {arguments : List Value}
    (ht : (Value.function tree).Carries fine) (ha : ∀ item ∈ arguments, item.Carries fine) :
    CarryAll fine (Eval.callBindings tree arguments) := by
  refine CarryAll.foldl_insert ?_ fun pair hp => ha pair.2 (List.of_mem_zip hp).2
  cases tree.name with
  | none => exact carryAll_empty
  | some own => exact carryAll_empty.insert own ht

namespace Scopes

/-- Every function that is bound somewhere is fine. -/
def Carries (fine : TreeFunction → Prop) (scopes : Scopes) : Prop :=
  ∀ (number : Nat) (scope : Scope), scopes.scopes[number]? = some scope →
    CarryAll fine scope.bindings

variable {scopes : Scopes}

theorem Carries.mono (h : scopes.Carries fine) (himp : ∀ tree, fine tree → also tree) :
    scopes.Carries also :=
  fun number scope hscope name value hv => (h number scope hscope name value hv).mono himp

theorem carries_create : create.Carries fine := by
  intro number scope hscope
  cases number with
  | zero =>
    cases hscope
    exact carryAll_empty
  | succ number => cases hscope

theorem Carries.find? (h : scopes.Carries fine) {number : Nat} {name : String} {value : Value}
    (hf : scopes.find? number name = some value) : value.Carries fine := by
  induction number using Nat.strongRecOn with
  | ind number ih =>
    rw [Scopes.find?] at hf
    split at hf
    · cases hf
    next scope hscope =>
      split at hf
      next found hbound =>
        cases hf
        exact h number scope hscope name value hbound
      · split at hf
        · cases hf
        next outer _ =>
          split at hf
          next hlt => exact ih outer hlt hf
          · cases hf

theorem Carries.set (h : scopes.Carries fine) (number : Nat) (name : String) {value : Value}
    (hv : value.Carries fine) : (scopes.set number name value).Carries fine := by
  intro k scope hscope
  rw [getElem?_set] at hscope
  obtain ⟨old, hold, rfl⟩ := Option.map_eq_some_iff.mp hscope
  split
  · exact (h k old hold).insert name hv
  · exact h k old hold

theorem Carries.enclose (h : scopes.Carries fine) (outer : Nat)
    {bindings : Std.ExtHashMap String Value} (hb : CarryAll fine bindings) :
    (scopes.enclose outer bindings).2.Carries fine := by
  intro k scope hscope
  have hscope : (scopes.scopes.push ⟨bindings, some outer⟩)[k]? = some scope := hscope
  rw [Array.getElem?_push] at hscope
  split at hscope
  · cases hscope
    exact hb
  · exact h k scope hscope

end Scopes

end Simian
