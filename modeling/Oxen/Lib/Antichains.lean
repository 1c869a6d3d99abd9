import Mathlib.Order.Antichain

/-! Antichains that are put together from two antichains. -/

namespace Antichains

variable {α : Type*} {r : α → α → Prop} {ours theirs mixed : Set α}

/-- Elements from two antichains are an antichain when those that only one of
them has are unrelated to those that only the other has. -/
theorem isAntichain_mixed_iff (hours : IsAntichain r ours) (htheirs : IsAntichain r theirs)
    (hmixed : mixed ⊆ ours ∪ theirs) :
    IsAntichain r mixed ↔ ∀ p ∈ mixed \ ours, ∀ q ∈ mixed \ theirs, ¬ r p q ∧ ¬ r q p := by
  have hother : ∀ p ∈ mixed, p ∉ ours → p ∈ theirs := by
    intro p hp hno
    exact (hmixed hp).resolve_left hno
  constructor
  · intro h p hp q hq
    have hne : p ≠ q := by
      rintro rfl
      exact hq.2 (hother p hp.1 hp.2)
    exact ⟨h hp.1 hq.1 hne, h hq.1 hp.1 hne.symm⟩
  · intro h p hp q hq hne
    by_cases hpo : p ∈ ours
    · by_cases hqo : q ∈ ours
      · exact hours hpo hqo hne
      · by_cases hpt : p ∈ theirs
        · exact htheirs hpt (hother q hq hqo) hne
        · exact (h q ⟨hq, hqo⟩ p ⟨hp, hpt⟩).2
    · by_cases hqt : q ∈ theirs
      · exact htheirs (hother p hp hpo) hqt hne
      · exact (h p ⟨hp, hpo⟩ q ⟨hq, hqt⟩).1

end Antichains
