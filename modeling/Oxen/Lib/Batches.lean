import Mathlib.Algebra.Order.Floor.Div
import Mathlib.Data.List.Basic
import Mathlib.Tactic.Linarith

/-! A list cut into batches of one size, the last of which may be shorter. -/

namespace Batches

variable {α : Type*}

def split (size : ℕ) (l : List α) : List (List α) :=
  if _h : l = [] ∨ size = 0 then []
  else l.take size :: split size (l.drop size)
termination_by l.length
decreasing_by
  rw [not_or] at _h
  have := List.length_pos_of_ne_nil _h.1
  rw [List.length_drop]
  omega

variable {size : ℕ} {l : List α}

@[simp] theorem split_nil : split size ([] : List α) = [] := by
  rw [split, dif_pos (.inl rfl)]

theorem split_of_ne_nil (hsize : 0 < size) (h : l ≠ []) :
    split size l = l.take size :: split size (l.drop size) := by
  rw [split, dif_neg (not_or.mpr ⟨h, hsize.ne'⟩)]

theorem split_append (hsize : 0 < size) (hl : l.length = size) (rest : List α) :
    split size (l ++ rest) = l :: split size rest := by
  have hne : l ++ rest ≠ [] := by
    intro h
    rw [(List.append_eq_nil_iff.mp h).1] at hl
    exact hsize.ne hl
  rw [split_of_ne_nil hsize hne, ← hl, List.take_left, List.drop_left]

@[simp] theorem flatten_split (hsize : 0 < size) (l : List α) : (split size l).flatten = l := by
  induction hn : l.length using Nat.strong_induction_on generalizing l with
  | _ n ih =>
      by_cases hne : l = []
      · rw [hne, split_nil, List.flatten_nil]
      · have hpos := List.length_pos_of_ne_nil hne
        rw [split_of_ne_nil hsize hne, List.flatten_cons,
          ih _ (by rw [List.length_drop]; omega) _ rfl, List.take_append_drop]

theorem length_split_le_iff (hsize : 0 < size) {n : ℕ} :
    (split size l).length ≤ n ↔ l.length ≤ n * size := by
  induction n generalizing l with
  | zero =>
      rw [Nat.zero_mul, Nat.le_zero, Nat.le_zero, List.length_eq_zero_iff, List.length_eq_zero_iff]
      constructor
      · intro h
        by_contra hne
        rw [split_of_ne_nil hsize hne] at h
        exact List.cons_ne_nil _ _ h
      · intro h
        rw [h, split_nil]
  | succ n ih =>
      by_cases hne : l = []
      · simp [hne]
      · rw [split_of_ne_nil hsize hne, List.length_cons, Nat.succ_le_succ_iff, ih,
          List.length_drop, Nat.succ_mul]
        omega

theorem split_eq_nil_iff (hsize : 0 < size) : split size l = [] ↔ l = [] := by
  rw [← List.length_eq_zero_iff, ← Nat.le_zero, length_split_le_iff hsize, Nat.zero_mul,
    Nat.le_zero, List.length_eq_zero_iff]

/-- All batches but the last are full. -/
theorem length_of_mem_dropLast_split (hsize : 0 < size) {batch : List α}
    (h : batch ∈ (split size l).dropLast) : batch.length = size := by
  induction hn : l.length using Nat.strong_induction_on generalizing l with
  | _ n ih =>
      by_cases hne : l = []
      · simp [hne] at h
      · have hpos := List.length_pos_of_ne_nil hne
        rw [split_of_ne_nil hsize hne] at h
        by_cases hrest : l.drop size = []
        · simp [hrest] at h
        · have hlen : size ≤ l.length := by
            rw [List.drop_eq_nil_iff] at hrest
            omega
          have htail : split size (l.drop size) ≠ [] := fun hnil =>
            hrest ((split_eq_nil_iff hsize).mp hnil)
          rw [List.dropLast_cons_of_ne_nil htail, List.mem_cons] at h
          rcases h with rfl | h
          · rw [List.length_take, Nat.min_eq_left hlen]
          · exact ih _ (by rw [List.length_drop]; omega) h rfl

theorem length_split (hsize : 0 < size) (l : List α) :
    (split size l).length = l.length ⌈/⌉ size := by
  apply eq_of_forall_ge_iff
  intro n
  rw [length_split_le_iff hsize, ceilDiv_le_iff_le_mul hsize, Nat.mul_comm]

theorem getElem?_split (hsize : 0 < size) (l : List α) (i : ℕ) :
    (split size l)[i]? =
      if i * size < l.length then some ((l.drop (i * size)).take size) else none := by
  induction i generalizing l with
  | zero =>
      cases l with
      | nil => simp
      | cons x xs => simp [split_of_ne_nil hsize (List.cons_ne_nil x xs)]
  | succ i ih =>
      by_cases hne : l = []
      · simp [hne]
      · rw [split_of_ne_nil hsize hne, List.getElem?_cons_succ, ih, List.drop_drop,
          List.length_drop, Nat.succ_mul, Nat.add_comm size]
        have hlt : i * size < l.length - size ↔ i * size + size < l.length := by omega
        simp only [hlt]

/-- The first batches are the beginning of the list. -/
theorem flatten_batches (l : List α) (size n : ℕ) :
    ((List.range n).map fun i => (l.drop (i * size)).take size).flatten = l.take (n * size) := by
  induction n with
  | zero => simp
  | succ n ih =>
      rw [List.range_succ, List.map_append, List.flatten_append, ih, List.map_singleton,
        List.flatten_singleton, ← List.take_add, Nat.succ_mul]

end Batches
