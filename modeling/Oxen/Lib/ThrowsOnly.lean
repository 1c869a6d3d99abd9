import Mathlib.Tactic.TypeStar

/-! Which errors a stateful action can end with. -/

namespace EStateM

variable {ε σ α β : Type}

/-- Every failure of the action is one of the given errors. -/
def ThrowsOnly (errors : ε → Prop) (action : EStateM ε σ α) : Prop :=
  ∀ s e s', action.run s = .error e s' → errors e

namespace ThrowsOnly

variable {errors : ε → Prop}

theorem pure (a : α) : ThrowsOnly errors (pure a : EStateM ε σ α) :=
  fun s e s' h => by simp at h

theorem get : ThrowsOnly errors (get : EStateM ε σ σ) :=
  fun s e s' h => by simp at h

theorem set (state : σ) : ThrowsOnly errors (set state : EStateM ε σ PUnit) :=
  fun s e s' h => by simp at h

theorem throw {error : ε} (herror : errors error) :
    ThrowsOnly errors (throw error : EStateM ε σ α) := by
  intro s e s' h
  have heq : (EStateM.Result.error error s : EStateM.Result ε σ α) = .error e s' := h
  injection heq with heq
  exact heq ▸ herror

theorem bind {action : EStateM ε σ α} {next : α → EStateM ε σ β}
    (hfirst : ThrowsOnly errors action) (hnext : ∀ a, ThrowsOnly errors (next a)) :
    ThrowsOnly errors (action >>= next) := by
  intro s e s' h
  rw [EStateM.run_bind] at h
  cases hr : action.run s with
  | ok a s₁ =>
      rw [hr] at h
      exact hnext a s₁ e s' h
  | error e₁ s₁ =>
      rw [hr] at h
      obtain ⟨rfl, rfl⟩ : e₁ = e ∧ s₁ = s' := by simpa using h
      exact hfirst s e₁ s₁ hr

end ThrowsOnly

end EStateM
