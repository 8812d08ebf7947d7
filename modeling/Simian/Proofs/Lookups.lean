import Simian.Evaluator

/-!
# Looking names up in scopes

What a name means in a scope is what the scope or one around it binds, up to the first
scope, which holds what the program itself binds. `Scopes.local?` leaves the first scope
out: it is what a function can capture. Opening a scope changes no look-up in an older
one, and binding a name changes no look-up of another name.
-/
namespace Simian

namespace Scopes

/-- The scopes are never empty, and each but the first lies in an earlier one. -/
structure Ordered (scopes : Scopes) : Prop where
  first : ∃ bindings, scopes.scopes[0]? = some ⟨bindings, none⟩
  outer : ∀ (number : Nat) (scope : Scope), scopes.scopes[number]? = some scope → number ≠ 0 →
    ∃ outer, scope.outer = some outer ∧ outer < number

/-- What the scope itself binds the name to. -/
def bound? (scopes : Scopes) (number : Nat) (name : String) : Option Value :=
  scopes.scopes[number]?.bind (·.bindings[name]?)

/-- The value of the name in the scope or the nearest one around it, if that is not the first. -/
def local? (scopes : Scopes) (number : Nat) (name : String) : Option Value :=
  if number = 0 then none
  else
    match scopes.scopes[number]? with
    | none => none
    | some scope =>
      match scope.bindings[name]? with
      | some value => some value
      | none =>
        match scope.outer with
        | none => none
        | some outer => if outer < number then local? scopes outer name else none
termination_by number

variable {scopes later : Scopes} {number outer : Nat} {name : String} {value : Value}
  {bindings : Std.ExtHashMap String Value}

theorem local?_zero : scopes.local? 0 name = none := by
  rw [local?, if_pos rfl]

theorem local?_of_getElem? (hat : scopes.scopes[number]? = some ⟨bindings, some outer⟩)
    (hlt : outer < number) :
    scopes.local? number name = (bindings[name]?).or (scopes.local? outer name) := by
  rw [local?, if_neg (by omega), hat]
  dsimp only
  cases bindings[name]? with
  | some value => rfl
  | none =>
    dsimp only
    rw [if_pos hlt, Option.none_or]

theorem Ordered.getElem? (h : scopes.Ordered) (hn : number ≠ 0)
    (hlt : number < scopes.scopes.size) :
    ∃ bindings outer, scopes.scopes[number]? = some ⟨bindings, some outer⟩ ∧ outer < number := by
  obtain ⟨outer, houter, hle⟩ := h.outer number _ (Array.getElem?_eq_getElem hlt) hn
  exact ⟨_, outer, by rw [Array.getElem?_eq_getElem hlt, ← houter], hle⟩

theorem Ordered.outer_lt {scope : Scope} (h : scopes.Ordered)
    (hat : scopes.scopes[number]? = some scope) (ho : scope.outer = some outer) :
    outer < number := by
  have hn : number ≠ 0 := by
    rintro rfl
    obtain ⟨bindings, hfirst⟩ := h.first
    cases hfirst.symm.trans hat
    cases ho
  obtain ⟨around, haround, hlt⟩ := h.outer number scope hat hn
  rwa [Option.some.inj (ho.symm.trans haround)]

theorem Ordered.size_pos (h : scopes.Ordered) : 0 < scopes.scopes.size := by
  obtain ⟨bindings, hat⟩ := h.first
  exact (Array.getElem?_eq_some_iff.mp hat).1

/-- A look-up that no other scope answers goes to the first one. -/
theorem Ordered.find?_eq (h : scopes.Ordered) (hlt : number < scopes.scopes.size) :
    scopes.find? number name = (scopes.local? number name).or (scopes.bound? 0 name) := by
  induction number using Nat.strongRecOn with
  | _ number ih =>
    by_cases hn : number = 0
    · subst hn
      obtain ⟨bindings, hat⟩ := h.first
      rw [local?_zero, Option.none_or, find?, bound?, hat]
      dsimp only [Option.bind_some]
      cases bindings[name]? <;> rfl
    · obtain ⟨bindings, outer, hat, houter⟩ := h.getElem? hn hlt
      rw [local?_of_getElem? hat houter, find?, hat]
      dsimp only
      cases bindings[name]? with
      | some value => rfl
      | none =>
        dsimp only
        rw [if_pos houter, ih outer houter (by omega), Option.none_or]

/-- Look-ups depend only on the scope and those before it. -/
theorem local?_congr (h : ∀ k ≤ number, later.scopes[k]? = scopes.scopes[k]?) :
    later.local? number name = scopes.local? number name := by
  induction number using Nat.strongRecOn with
  | _ number ih =>
    rw [local?, local?, h number (Nat.le_refl _)]
    split
    · rfl
    · split
      · rfl
      · split
        · rfl
        · split
          · rfl
          · split
            next hlt => exact ih _ hlt fun k hk => h k (by omega)
            · rfl

theorem ordered_create : create.Ordered := by
  refine ⟨⟨∅, rfl⟩, fun number scope hat hn => ?_⟩
  obtain ⟨hlt, -⟩ := Array.getElem?_eq_some_iff.mp hat
  exact absurd (Nat.lt_one_iff.mp hlt) hn

/-! ### Opening a scope -/

theorem Ordered.enclose (h : scopes.Ordered) (hlt : outer < scopes.scopes.size) :
    Ordered ⟨scopes.scopes.push ⟨bindings, some outer⟩⟩ where
  first := by
    obtain ⟨first, hat⟩ := h.first
    exact ⟨first, by rw [Array.getElem?_push_lt h.size_pos, ← hat, Array.getElem?_eq_getElem]⟩
  outer := by
    intro number scope hat hn
    rw [Array.getElem?_push] at hat
    split at hat
    next he =>
      cases hat
      exact ⟨outer, rfl, by omega⟩
    · exact h.outer number scope hat hn

/-! ### Binding a name -/

theorem getElem?_set (scopes : Scopes) (number k : Nat) (name : String) (value : Value) :
    (scopes.set number name value).scopes[k]? = (scopes.scopes[k]?).map fun scope =>
      if number = k then ⟨scope.bindings.insert name value, scope.outer⟩ else scope := by
  obtain ⟨scopes⟩ := scopes
  simp only [set, Array.getElem?_modify]
  split
  · rfl
  · simp

theorem size_set (scopes : Scopes) (number : Nat) (name : String) (value : Value) :
    (scopes.set number name value).scopes.size = scopes.scopes.size := by
  obtain ⟨scopes⟩ := scopes
  exact Array.size_modify

theorem bound?_set (scopes : Scopes) {number k : Nat} (hlt : k < scopes.scopes.size)
    (name other : String) (value : Value) :
    (scopes.set number name value).bound? k other =
      if number = k ∧ name = other then some value else scopes.bound? k other := by
  unfold bound?
  rw [getElem?_set, Array.getElem?_eq_getElem hlt]
  dsimp only [Option.map_some, Option.bind_some]
  by_cases hk : number = k
  · rw [if_pos hk, Std.ExtHashMap.getElem?_insert]
    simp [hk]
  · rw [if_neg hk, if_neg fun h => hk h.1]

theorem Ordered.set (h : scopes.Ordered) (number : Nat) (name : String) (value : Value) :
    (scopes.set number name value).Ordered where
  first := by
    obtain ⟨first, hat⟩ := h.first
    rw [getElem?_set, hat]
    dsimp only [Option.map_some]
    split <;> exact ⟨_, rfl⟩
  outer := by
    intro k scope hat hn
    rw [getElem?_set] at hat
    obtain ⟨before, hbefore, rfl⟩ := Option.map_eq_some_iff.mp hat
    obtain ⟨outer, houter, hlt⟩ := h.outer k before hbefore hn
    refine ⟨outer, ?_, hlt⟩
    split <;> exact houter

/-- Binding a name changes no look-up that passes by that name in that scope. The scopes that such
look-ups go through are given by a property that leads outward. -/
theorem local?_set {safe : Nat → Prop} {other : String}
    (hs : ∀ k, safe k → k ≠ 0 → (k = number → name ≠ other) ∧
      ∃ bindings outer, scopes.scopes[k]? = some ⟨bindings, some outer⟩ ∧ outer < k ∧
        (bindings[other]? = none → safe outer))
    {k : Nat} (hk : safe k) :
    (scopes.set number name value).local? k other = scopes.local? k other := by
  induction k using Nat.strongRecOn with
  | _ k ih =>
    by_cases hz : k = 0
    · rw [hz, local?_zero, local?_zero]
    obtain ⟨hne, bindings, outer, hat, hlt, hnext⟩ := hs k hk hz
    have hrest : bindings[other]? = none →
        (scopes.set number name value).local? outer other = scopes.local? outer other :=
      fun hn => ih outer hlt (hnext hn)
    rw [local?_of_getElem? hat hlt]
    have hset := getElem?_set scopes number k name value
    rw [hat] at hset
    dsimp only [Option.map_some] at hset
    split at hset
    next he =>
      rw [local?_of_getElem? hset hlt, Std.ExtHashMap.getElem?_insert,
        if_neg (by simpa using hne he.symm)]
      cases hb : bindings[other]? with
      | some value => rfl
      | none => rw [hrest hb]
    · rw [local?_of_getElem? hset hlt]
      cases hb : bindings[other]? with
      | some value => rfl
      | none => rw [hrest hb]

end Scopes

end Simian
