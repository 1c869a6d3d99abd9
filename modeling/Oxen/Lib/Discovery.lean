import Mathlib.Data.Finset.Card
import Mathlib.Data.Finset.SDiff
import Mathlib.Logic.Relation

/-! A recursion that collects what it finds in one set, and goes on into those elements that
were not in the set before. -/

namespace Discovery

universe u

variable {α : Type u} {m : Type u → Type*} [Monad m] [LawfulMonad m] [DecidableEq α]

/-- Goes through the elements that were not seen before, in any order. Without fuel it
stops. -/
def discover (stop : m (List α)) (collect : α → List α → m (List α)) (enter : α → Bool)
    (order : List α → List α) : ℕ → α → List α → m (List α)
  | 0, _, _ => stop
  | fuel + 1, x, seen => do
      let found ← collect x seen
      (order (found.filter (· ∉ seen))).foldlM
        (fun acc y => if enter y then discover stop collect enter order fuel y acc else pure acc)
        found

variable (find : α → α → Prop) (enter : α → Bool)

/-- Goes on from one element into another one. -/
def Enters : α → α → Prop :=
  Relation.ReflTransGen fun x y => find x y ∧ enter y = true

/-- What is found from an element, there or in those that are gone into. -/
def Finds (x y : α) : Prop :=
  ∃ e, Enters find enter x e ∧ find e y

variable {find enter} {stop : m (List α)} {collect : α → List α → m (List α)}
  {order : List α → List α} {x y : α} {seen acc result todo univ : List α} {fuel : ℕ}

/-- What a visit leaves behind. -/
structure Visited (find : α → α → Prop) (enter : α → Bool) (x : α) (seen result : List α) :
    Prop where
  subset : seen ⊆ result
  finds : ∀ y, find x y → y ∈ result
  reached : ∀ y ∈ result, y ∉ seen → Finds find enter x y
  closed : ∀ y ∈ result, y ∉ seen → enter y = true → ∀ z, find y z → z ∈ result

/-- What going through elements leaves behind. -/
structure VisitedAll (find : α → α → Prop) (enter : α → Bool) (todo acc result : List α) :
    Prop where
  subset : acc ⊆ result
  finds : ∀ x ∈ todo, enter x = true → ∀ y, find x y → y ∈ result
  reached : ∀ y ∈ result, y ∉ acc → ∃ x ∈ todo, enter x = true ∧ Finds find enter x y
  closed : ∀ y ∈ result, y ∉ acc → enter y = true → ∀ z, find y z → z ∈ result

/-- The elements that were not seen yet. -/
def unseen (univ seen : List α) : ℕ :=
  (univ.toFinset \ seen.toFinset).card

theorem unseen_lt (h : seen ⊆ acc) (hy : y ∈ acc) (hnew : y ∉ seen) (huniv : y ∈ univ) :
    unseen univ acc < unseen univ seen := by
  apply Finset.card_lt_card
  refine Finset.ssubset_iff_of_subset ?_ |>.mpr ⟨y, by simp [huniv, hnew], by simp [hy]⟩
  apply Finset.sdiff_subset_sdiff le_rfl
  intro z hz
  exact List.mem_toFinset.mpr (h (List.mem_toFinset.mp hz))

/-- One element after the other. -/
theorem visitedAll_foldlM {visit : α → List α → m (List α)}
    (hvisit : ∀ y acc', acc ⊆ acc' → y ∈ todo → enter y = true →
      ∃ result, visit y acc' = pure result ∧ Visited find enter y acc' result) :
    ∃ result, todo.foldlM (fun acc y => if enter y then visit y acc else pure acc) acc =
      pure result ∧ VisitedAll find enter todo acc result := by
  induction todo generalizing acc with
  | nil =>
      exact ⟨acc, rfl, fun _ h => h, by simp, fun y h hno => absurd h hno,
        fun y h hno => absurd h hno⟩
  | cons x todo ih =>
      rw [List.foldlM_cons]
      by_cases hx : enter x = true
      · rcases hvisit x acc (List.Subset.refl _) List.mem_cons_self hx with ⟨mid, hmid, hfirst⟩
        rcases @ih mid fun y acc' h hy => hvisit y acc' (List.Subset.trans hfirst.subset h)
            (List.mem_cons_of_mem x hy) with
          ⟨result, hresult, hrest⟩
        refine ⟨result, by rw [if_pos hx, hmid, pure_bind, hresult], ?_⟩
        refine ⟨List.Subset.trans hfirst.subset hrest.subset, ?_, ?_, ?_⟩
        · intro y hy hyenter z hz
          rcases List.mem_cons.mp hy with rfl | hy
          · exact hrest.subset (hfirst.finds z hz)
          · exact hrest.finds y hy hyenter z hz
        · intro y hy hno
          by_cases hyMid : y ∈ mid
          · exact ⟨x, List.mem_cons_self, hx, hfirst.reached y hyMid hno⟩
          · rcases hrest.reached y hy hyMid with ⟨z, hz, hzenter, hfinds⟩
            exact ⟨z, List.mem_cons_of_mem x hz, hzenter, hfinds⟩
        · intro y hy hno hyenter z hz
          by_cases hyMid : y ∈ mid
          · exact hrest.subset (hfirst.closed y hyMid hno hyenter z hz)
          · exact hrest.closed y hy hyMid hyenter z hz
      · rcases @ih acc fun y acc' h hy => hvisit y acc' h (List.mem_cons_of_mem x hy) with
          ⟨result, hresult, hrest⟩
        refine ⟨result, by rw [if_neg hx, pure_bind, hresult], hrest.subset, ?_, ?_,
          hrest.closed⟩
        · intro y hy hyenter
          rcases List.mem_cons.mp hy with rfl | hy
          · exact absurd hyenter hx
          · exact hrest.finds y hy hyenter
        · intro y hy hno
          rcases hrest.reached y hy hno with ⟨z, hz, hzenter, hfinds⟩
          exact ⟨z, List.mem_cons_of_mem x hz, hzenter, hfinds⟩

section

variable (horder : ∀ l, (order l).Perm l) (huniv : ∀ x y, find x y → y ∈ univ)
  (hcollect : ∀ x seen, ∃ found, collect x seen = pure found ∧
    ∀ y, y ∈ found ↔ y ∈ seen ∨ find x y)

include horder huniv hcollect

/-- The recursion ends: it goes only into elements that it did not see before. -/
theorem visited_discover (hfuel : unseen univ seen < fuel) :
    ∃ result, discover stop collect enter order fuel x seen = pure result ∧
      Visited find enter x seen result := by
  induction fuel generalizing x seen with
  | zero => omega
  | succ fuel ih =>
      rcases hcollect x seen with ⟨found, hfound, hmem⟩
      have hsubset : seen ⊆ found := fun y hy => (hmem y).mpr (.inl hy)
      have hnew : ∀ y, y ∈ order (found.filter (· ∉ seen)) ↔ find x y ∧ y ∉ seen := by
        intro y
        rw [(horder _).mem_iff, List.mem_filter, hmem, decide_eq_true_iff]
        tauto
      have hvisit : ∀ y acc', found ⊆ acc' → y ∈ order (found.filter (· ∉ seen)) →
          enter y = true →
          ∃ result, discover stop collect enter order fuel y acc' = pure result ∧
            Visited find enter y acc' result := by
        intro y acc' hacc hy _
        rcases (hnew y).mp hy with ⟨hxy, hno⟩
        have hlt : unseen univ acc' < unseen univ seen :=
          unseen_lt (List.Subset.trans hsubset hacc) (hacc ((hmem y).mpr (.inr hxy))) hno
            (huniv x y hxy)
        exact ih (by omega)
      rcases visitedAll_foldlM hvisit with ⟨result, hresult, hall⟩
      refine ⟨result, by rw [discover, hfound, pure_bind]; exact hresult,
        List.Subset.trans hsubset hall.subset,
        fun y hy => hall.subset ((hmem y).mpr (.inr hy)), ?_, ?_⟩
      · intro y hy hno
        by_cases hxy : find x y
        · exact ⟨x, .refl, hxy⟩
        · have hnotIn : y ∉ found := by
            rw [hmem]
            exact not_or.mpr ⟨hno, hxy⟩
          rcases hall.reached y hy hnotIn with ⟨z, hz, hzenter, e, he, hye⟩
          exact ⟨e, .head ⟨((hnew z).mp hz).1, hzenter⟩ he, hye⟩
      · intro y hy hno hyenter
        by_cases hxy : find x y
        · exact hall.finds y ((hnew y).mpr ⟨hxy, hno⟩) hyenter
        · have hnotIn : y ∉ found := by
            rw [hmem]
            exact not_or.mpr ⟨hno, hxy⟩
          exact hall.closed y hy hnotIn hyenter

/-- From the empty set it collects exactly what can be found. -/
theorem mem_discover_iff (hfuel : unseen univ [] < fuel) :
    ∃ result, discover stop collect enter order fuel x [] = pure result ∧
      ∀ y, y ∈ result ↔ Finds find enter x y := by
  rcases @visited_discover _ _ _ _ _ find enter stop collect order x [] univ fuel horder huniv
      hcollect hfuel with ⟨result, hresult, hvisited⟩
  refine ⟨result, hresult, fun y => ⟨fun hy => hvisited.reached y hy (by simp), ?_⟩⟩
  rintro ⟨e, he, hye⟩
  have hfinds : ∀ z, find e z → z ∈ result := by
    clear hye
    induction he with
    | refl => exact hvisited.finds
    | @tail a b _ hab ih => exact hvisited.closed b (ih b hab.1) (by simp) hab.2
  exact hfinds y hye

end

end Discovery
