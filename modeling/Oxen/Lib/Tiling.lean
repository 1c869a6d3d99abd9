import Mathlib.Data.List.Sort

/-! Pieces of a list with the offsets they start at. -/

namespace Tiling

variable {α : Type*}

/-- The pieces one after the other from an offset on, each with its own offset. -/
def placed : ℕ → List (List α) → List (ℕ × List α)
  | _, [] => []
  | offset, piece :: pieces => (offset, piece) :: placed (offset + piece.length) pieces

/-- Every piece starts where the piece before it ends. -/
def Tiles : ℕ → List (ℕ × List α) → Prop
  | _, [] => True
  | offset, piece :: pieces => piece.1 = offset ∧ Tiles (offset + piece.2.length) pieces

instance decidableTiles (offset : ℕ) : (pieces : List (ℕ × List α)) → Decidable (Tiles offset pieces)
  | [] => isTrue trivial
  | piece :: pieces =>
      have := decidableTiles (offset + piece.2.length) pieces
      inferInstanceAs (Decidable (piece.1 = offset ∧ _))

@[simp] theorem map_snd_placed (offset : ℕ) (pieces : List (List α)) :
    (placed offset pieces).map Prod.snd = pieces := by
  induction pieces generalizing offset with
  | nil => rfl
  | cons piece pieces ih => rw [placed, List.map_cons, ih]

theorem mem_placed_bounds {offset : ℕ} {pieces : List (List α)} {item : ℕ × List α}
    (h : item ∈ placed offset pieces) :
    offset ≤ item.1 ∧ item.1 + item.2.length ≤ offset + pieces.flatten.length := by
  induction pieces generalizing offset with
  | nil => cases h
  | cons piece pieces ih =>
      rw [List.flatten_cons, List.length_append]
      rcases List.mem_cons.mp h with rfl | h
      · exact ⟨le_rfl, by dsimp only; omega⟩
      · have := ih h
        omega

/-- Pieces that are not empty start one behind the other. -/
theorem pairwise_placed {pieces : List (List α)} (hne : ∀ piece ∈ pieces, piece ≠ []) (offset : ℕ) :
    (placed offset pieces).Pairwise fun a b => a.1 < b.1 := by
  induction pieces generalizing offset with
  | nil => exact .nil
  | cons piece pieces ih =>
      refine .cons (fun item hitem => ?_) (ih (fun p hp => hne p (List.mem_cons_of_mem _ hp)) _)
      have hpos := List.length_pos_of_ne_nil (hne piece List.mem_cons_self)
      have hlow := (mem_placed_bounds hitem).1
      dsimp only
      omega

/-- An offset names at most one of the pieces. -/
theorem placed_functional {pieces : List (List α)} (hne : ∀ piece ∈ pieces, piece ≠ [])
    {offset o : ℕ} {p q : List α} (hp : (o, p) ∈ placed offset pieces)
    (hq : (o, q) ∈ placed offset pieces) : p = q := by
  have hnodup : ((placed offset pieces).map Prod.fst).Nodup :=
    List.pairwise_map.mpr ((pairwise_placed hne offset).imp ne_of_lt)
  exact (Prod.mk.inj (List.inj_on_of_nodup_map hnodup hp hq rfl)).2

end Tiling
