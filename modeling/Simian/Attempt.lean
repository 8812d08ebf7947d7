/-!
# Attempts that keep their state

An attempt works on a state and ends in a result or in an error, and the state it
reached is there in both cases. A failed parse can thus go on from where it stopped,
and a failed unit can be taken back from what it left.
-/
namespace Simian

def Attempt (ε σ α : Type) : Type := σ → Except ε α × σ

namespace Attempt

variable {ε σ α β : Type}

@[always_inline, inline] protected def pure (value : α) : Attempt ε σ α := fun state =>
  (.ok value, state)

@[always_inline, inline] protected def bind (first : Attempt ε σ α) (next : α → Attempt ε σ β) :
    Attempt ε σ β := fun state =>
  match first state with
  | (.ok value, state) => next value state
  | (.error error, state) => (.error error, state)

@[always_inline] instance : Monad (Attempt ε σ) where
  pure := Attempt.pure
  bind := Attempt.bind

@[always_inline, inline] def fail (error : ε) : Attempt ε σ α := fun state => (.error error, state)

@[always_inline, inline] def get : Attempt ε σ σ := fun state => (.ok state, state)

@[always_inline, inline] def modify (change : σ → σ) : Attempt ε σ Unit := fun state =>
  (.ok (), change state)

@[always_inline, inline] def modifyGet (change : σ → α × σ) : Attempt ε σ α := fun state =>
  match change state with
  | (value, state) => (.ok value, state)

@[always_inline, inline] def ofExcept (result : Except ε α) : Attempt ε σ α := fun state =>
  (result, state)

theorem pure_apply (value : α) (state : σ) :
    (pure value : Attempt ε σ α) state = (.ok value, state) := rfl

theorem bind_apply (first : Attempt ε σ α) (next : α → Attempt ε σ β) (state : σ) :
    (first >>= next) state =
      match first state with
      | (.ok value, state) => next value state
      | (.error error, state) => (.error error, state) := rfl

theorem bind_of_ok {first : Attempt ε σ α} {next : α → Attempt ε σ β} {state after : σ} {value : α}
    (h : first state = (.ok value, after)) : (first >>= next) state = next value after := by
  rw [bind_apply, h]

theorem bind_of_error {first : Attempt ε σ α} {next : α → Attempt ε σ β} {state after : σ}
    {error : ε} (h : first state = (.error error, after)) :
    (first >>= next) state = (.error error, after) := by
  rw [bind_apply, h]

theorem bind_eq_ok {first : Attempt ε σ α} {next : α → Attempt ε σ β} {state after : σ}
    {result : β} (h : (first >>= next) state = (.ok result, after)) :
    ∃ value between, first state = (.ok value, between) ∧
      next value between = (.ok result, after) := by
  rw [bind_apply] at h
  split at h
  next value between hf => exact ⟨value, between, hf, h⟩
  next => cases h

theorem pure_eq_ok {value result : α} {state after : σ}
    (h : (pure value : Attempt ε σ α) state = (.ok result, after)) :
    value = result ∧ state = after := by
  rw [pure_apply] at h
  cases h
  exact ⟨rfl, rfl⟩

end Attempt

end Simian
