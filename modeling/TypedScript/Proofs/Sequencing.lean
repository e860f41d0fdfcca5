/-!
# One step behind another

The parser, the checker and the evaluator are state monads that may fail: each step leads
from a state to a result and a further state, or to an error and the state where it came
up. What is said here holds of all three. If the first of two steps is known to succeed,
the second one decides (`bind_of_ok`); if it fails, the second one is not taken
(`bind_of_error`); and both have succeeded if the whole has (`bind_eq_ok`).
-/

namespace TypedScript

variable {ε σ α β : Type} {x : EStateM ε σ α} {f : α → EStateM ε σ β} {s s' : σ}

/-- Two steps run as the first one does, and then as the second one from where it ends. -/
theorem bind_run (x : EStateM ε σ α) (f : α → EStateM ε σ β) (s : σ) :
    (x >>= f) s = match x s with
      | .ok a s' => f a s'
      | .error e s' => .error e s' := rfl

theorem bind_of_ok {a : α} (h : x s = .ok a s') : (x >>= f) s = f a s' := by
  rw [bind_run, h]

theorem bind_of_error {e : ε} (h : x s = .error e s') : (x >>= f) s = .error e s' := by
  rw [bind_run, h]

/-- Two steps succeed if the first one does and the second one does from where it ends. -/
theorem bind_eq_ok {b : β} :
    (x >>= f) s = .ok b s' ↔ ∃ a s₁, x s = .ok a s₁ ∧ f a s₁ = .ok b s' := by
  constructor
  · intro h
    cases hx : x s with
    | ok a s₁ => exact ⟨a, s₁, rfl, by rwa [bind_of_ok hx] at h⟩
    | error e s₁ => exact nomatch (bind_of_error hx).symm.trans h
  · rintro ⟨a, s₁, hx, hf⟩
    rw [bind_of_ok hx, hf]

end TypedScript
