import Mathlib.Data.Set.Basic

/-! Things that several collections share, each attributed to the first collection that
has it. -/

namespace Attribution

variable {ι α : Type*} {items : ι → Set α} {order : List ι} {x : α} {c d : ι}

/-- The first collection in the order that has the item. -/
inductive FirstWith (items : ι → Set α) (x : α) : List ι → ι → Prop
  | head {c : ι} {order : List ι} (h : x ∈ items c) : FirstWith items x (c :: order) c
  | tail {c d : ι} {order : List ι} (hnot : x ∉ items c) (h : FirstWith items x order d) :
      FirstWith items x (c :: order) d

theorem FirstWith.mem (h : FirstWith items x order d) : d ∈ order ∧ x ∈ items d := by
  induction h with
  | head h => exact ⟨List.mem_cons_self .., h⟩
  | tail _ _ ih => exact ⟨List.mem_cons_of_mem _ ih.1, ih.2⟩

theorem exists_firstWith (hc : c ∈ order) (hx : x ∈ items c) : ∃ d, FirstWith items x order d := by
  induction order with
  | nil => cases hc
  | cons e order ih =>
      by_cases he : x ∈ items e
      · exact ⟨e, .head he⟩
      · rcases List.mem_cons.mp hc with rfl | hc
        · exact absurd hx he
        · obtain ⟨d, hd⟩ := ih hc
          exact ⟨d, .tail he hd⟩

end Attribution
