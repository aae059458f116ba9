/-! Computations that work on a state in place. One that fails leaves the state as it is at
that point, unless it is staged: then it works on a copy, which takes the place of the state
only when all goes well. The outcome is what comes of a computation for a caller who has no
use for the state of a failure. -/

namespace PathQuery

variable {ε σ α β : Type}

/-- Works on a copy of the state. -/
def staged (x : EStateM ε σ α) : EStateM ε σ α := fun s =>
  match x s with
  | .ok a t => .ok a t
  | .error e _ => .error e s

/-- The result and the state of a success. -/
def outcome (x : EStateM ε σ α) (s : σ) : Except ε (α × σ) :=
  match x s with
  | .ok a t => .ok (a, t)
  | .error e _ => .error e

/-- The state in the end, whether all went well or not. -/
def stateAfter (x : EStateM ε σ α) (s : σ) : σ :=
  match x s with
  | .ok _ t => t
  | .error _ t => t

/-- A failure leaves the state as it was before. -/
def Atomic (x : EStateM ε σ α) : Prop := ∀ s e t, x s = .error e t → t = s

theorem atomic_staged (x : EStateM ε σ α) : Atomic (staged x) := by
  intro s e t h
  unfold staged at h
  split at h
  · cases h
  · cases h; rfl

@[simp] theorem outcome_staged (x : EStateM ε σ α) (s : σ) :
    outcome (staged x) s = outcome x s := by
  unfold outcome staged
  cases x s <;> rfl

/-- The outcome decides an atomic computation. -/
theorem Atomic.apply_eq {x : EStateM ε σ α} (h : Atomic x) (s : σ) :
    x s = match outcome x s with
      | .ok (a, t) => .ok a t
      | .error e => .error e s := by
  unfold outcome
  cases hx : x s with
  | ok a t => rfl
  | error e t => rw [h s e t hx]

/-- Staging decides the state from the outcome alone. -/
theorem staged_apply (x : EStateM ε σ α) (s : σ) :
    staged x s = match outcome x s with
      | .ok (a, t) => .ok a t
      | .error e => .error e s := by
  rw [(atomic_staged x).apply_eq, outcome_staged]

@[simp] theorem outcome_pure (a : α) (s : σ) :
    outcome (pure a : EStateM ε σ α) s = .ok (a, s) := rfl

@[simp] theorem outcome_throw (e : ε) (s : σ) :
    outcome (throw e : EStateM ε σ α) s = .error e := rfl

@[simp] theorem outcome_liftExcept (x : Except ε α) (s : σ) :
    outcome (liftExcept x : EStateM ε σ α) s = x.map fun a => (a, s) := by
  cases x <;> rfl

@[simp] theorem outcome_modifyGet (f : σ → α × σ) (s : σ) :
    outcome (modifyGet f : EStateM ε σ α) s = .ok (f s) := rfl

/-- One computation after the other, on the state the first one leaves. -/
theorem outcome_bind (x : EStateM ε σ α) (f : α → EStateM ε σ β) (s : σ) :
    outcome (x >>= f) s = (outcome x s).bind fun r => outcome (f r.1) r.2 := by
  change (match (match x s with | .ok a t => f a t | .error e t => .error e t) with
    | .ok b t => _ | .error e _ => _) = _
  unfold outcome
  cases x s <;> rfl

/-- What cannot fail may follow. -/
theorem Atomic.bind_of_total {x : EStateM ε σ α} {f : α → EStateM ε σ β} (hx : Atomic x)
    (hf : ∀ a s, ∃ b t, f a s = .ok b t) : Atomic (x >>= f) := by
  intro s e t h
  change (match x s with | .ok a t => f a t | .error e t => .error e t) = _ at h
  cases hs : x s with
  | ok a u =>
    obtain ⟨b, v, hb⟩ := hf a u
    rw [hs] at h
    cases hb.symm.trans h
  | error e' u =>
    rw [hs] at h
    cases h
    exact hx s e t hs

theorem Atomic.stateAfter_eq {x : EStateM ε σ α} (h : Atomic x) (s : σ) :
    stateAfter x s = match outcome x s with
      | .ok (_, t) => t
      | .error _ => s := by
  unfold stateAfter outcome
  cases hx : x s with
  | ok a t => rfl
  | error e t => exact h s e t hx

end PathQuery
