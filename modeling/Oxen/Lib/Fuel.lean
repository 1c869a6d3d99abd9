import Mathlib.Order.Lattice.Nat
import Mathlib.Order.Lattice

/-! Values of computations that need fuel. -/

namespace Fuel

variable {α β : Type*} {run : ℕ → Option α} {x y : α}

/-- The computation has the value for every large enough fuel. -/
def Returns (run : ℕ → Option α) (x : α) : Prop :=
  ∃ bound, ∀ fuel, bound ≤ fuel → run fuel = some x

theorem Returns.unique (hx : Returns run x) (hy : Returns run y) : x = y := by
  obtain ⟨m, hm⟩ := hx
  obtain ⟨n, hn⟩ := hy
  have hsome := hm (max m n) (le_max_left m n)
  rw [hn (max m n) (le_max_right m n)] at hsome
  exact (Option.some.inj hsome).symm

theorem Returns.pure (x : α) : Returns (fun _ => some x) x :=
  ⟨0, fun _ _ => rfl⟩

theorem Returns.map (h : Returns run x) (f : α → β) :
    Returns (fun fuel => (run fuel).map f) (f x) := by
  obtain ⟨bound, h⟩ := h
  exact ⟨bound, fun fuel hf => by simp [h fuel hf]⟩

/-- Two computations that agree once a first one has its value. -/
theorem Returns.of_eq {run' : ℕ → Option β} {z : β} (h : Returns run x) (h' : Returns run' z)
    {run'' : ℕ → Option β} (heq : ∀ fuel, run fuel = some x → run'' fuel = run' fuel) :
    Returns run'' z := by
  obtain ⟨m, hm⟩ := h
  obtain ⟨n, hn⟩ := h'
  refine ⟨max m n, fun fuel hf => ?_⟩
  rw [heq fuel (hm fuel (le_trans (le_max_left m n) hf))]
  exact hn fuel (le_trans (le_max_right m n) hf)

end Fuel
