import Mathlib.Tactic.TypeStar

/-! What holds of the state after a stateful action, whether it succeeds or fails. -/

namespace EStateM

variable {ε σ α β : Type}

/-- The state an action leaves behind. -/
def after (action : EStateM ε σ α) (s : σ) : σ :=
  match action.run s with
  | .ok _ s' => s'
  | .error _ s' => s'

theorem after_of_ok {action : EStateM ε σ α} {s s' : σ} {a : α} (h : action.run s = .ok a s') :
    after action s = s' := by
  rw [after, h]

theorem after_of_error {action : EStateM ε σ α} {s s' : σ} {e : ε}
    (h : action.run s = .error e s') : after action s = s' := by
  rw [after, h]

@[simp] theorem after_pure (a : α) (s : σ) : after (pure a : EStateM ε σ α) s = s := rfl

@[simp] theorem after_set (s' s : σ) : after (set s' : EStateM ε σ PUnit) s = s' := rfl

@[simp] theorem after_throw (e : ε) (s : σ) : after (throw e : EStateM ε σ α) s = s := rfl

@[simp] theorem after_get_bind (next : σ → EStateM ε σ β) (s : σ) :
    after (get >>= next) s = after (next s) s := rfl

@[simp] theorem after_set_bind (s' s : σ) (next : PUnit → EStateM ε σ β) :
    after (set s' >>= next) s = after (next ()) s' := rfl

/-- The second action starts where the first one ended, unless that failed. -/
theorem after_bind_cases (action : EStateM ε σ α) (next : α → EStateM ε σ β) (s : σ) :
    (∃ a, action.run s = .ok a (after action s) ∧
      after (action >>= next) s = after (next a) (after action s)) ∨
    (∃ e, action.run s = .error e (after action s)) ∧
      after (action >>= next) s = after action s := by
  cases hr : action.run s with
  | ok a s' =>
      left
      refine ⟨a, ?_, ?_⟩
      · rw [after_of_ok hr]
      · rw [after_of_ok hr, after, EStateM.run_bind, hr]
        rfl
  | error e s' =>
      right
      refine ⟨⟨e, ?_⟩, ?_⟩
      · rw [after_of_error hr]
      · rw [after_of_error hr, after, EStateM.run_bind, hr]

/-- The property survives the action, whether it succeeds or fails. -/
def Keeps (P : σ → Prop) (action : EStateM ε σ α) : Prop :=
  ∀ s, P s → P (after action s)

namespace Keeps

variable {P : σ → Prop}

theorem pure (a : α) : Keeps P (pure a : EStateM ε σ α) :=
  fun _ h => h

theorem throw (e : ε) : Keeps P (throw e : EStateM ε σ α) :=
  fun _ h => h

theorem bind {action : EStateM ε σ α} {next : α → EStateM ε σ β} (hfirst : Keeps P action)
    (hnext : ∀ a, Keeps P (next a)) : Keeps P (action >>= next) := by
  intro s hs
  rcases after_bind_cases action next s with ⟨a, -, h⟩ | ⟨-, h⟩
  · rw [h]
    exact hnext a _ (hfirst s hs)
  · rw [h]
    exact hfirst s hs

end Keeps

end EStateM
