import Mathlib.Data.List.Perm.Basic

/-! Functions of a list that do not see the order of its elements. -/

namespace Rearrangements

variable {α β : Type*} {f : List α → β} {l l₁ l₂ : List α}

/-- All rearrangements of the list have one value. -/
def OrderBlind (f : List α → β) (l : List α) : Prop :=
  ∀ l₁ l₂ : List α, l₁.Perm l → l₂.Perm l → f l₁ = f l₂

/-- No rearrangement changes its value when two neighbours change places. -/
def SwapBlind (f : List α → β) (l : List α) : Prop :=
  ∀ before a b after, (before ++ a :: b :: after).Perm l →
    f (before ++ a :: b :: after) = f (before ++ b :: a :: after)

theorem SwapBlind.eq_of_perm (h : SwapBlind f l) (hp : l₁.Perm l₂) :
    ∀ before, (before ++ l₁).Perm l → f (before ++ l₁) = f (before ++ l₂) := by
  -- Both lists follow a common beginning, which grows at a common head.
  induction hp with
  | nil =>
      intro before _
      rfl
  | cons x _ ih =>
      intro before hl
      simpa using ih (before ++ [x]) (by simpa using hl)
  | swap a b rest =>
      intro before hl
      exact h before b a rest hl
  | trans hp₁ _ ih₁ ih₂ =>
      intro before hl
      rw [ih₁ before hl]
      apply ih₂ before
      exact (hp₁.symm.append_left before).trans hl

theorem orderBlind_iff_swapBlind : OrderBlind f l ↔ SwapBlind f l := by
  constructor
  · intro h before a b after hl
    apply h _ _ hl
    exact ((List.Perm.swap a b after).append_left before).trans hl
  · intro h l₁ l₂ h₁ h₂
    exact h.eq_of_perm (h₁.trans h₂.symm) [] h₁

/-- A rearrangement of the elements that pass a test comes from one of all elements. -/
theorem exists_perm_filter {p : α → Bool} (hp : l₁.Perm (l.filter p)) :
    ∃ l' : List α, l'.Perm l ∧ l'.filter p = l₁ := by
  refine ⟨l₁ ++ l.filter fun a => !p a, ?_, ?_⟩
  · exact (hp.append_right _).trans (List.filter_append_perm p l)
  · have hpass : l₁.filter p = l₁ := by
      apply List.filter_eq_self.mpr
      intro a ha
      exact List.of_mem_filter (hp.subset ha)
    have hrest : (l.filter fun a => !p a).filter p = [] := by
      apply List.filter_eq_nil_iff.mpr
      intro a ha
      simpa using List.of_mem_filter ha
    rw [List.filter_append, hpass, hrest, List.append_nil]

end Rearrangements
