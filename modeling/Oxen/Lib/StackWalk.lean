import Mathlib.Logic.Relation
import Mathlib.Data.List.Basic
import Mathlib.Algebra.BigOperators.Group.List.Basic
import Mathlib.Algebra.GroupWithZero.Nat

/-! Depth-first walks over an explicit stack. A visit reports one event and the
items it pushes; the last item pushed is the next one popped. -/

namespace StackWalk

variable {α δ ε : Type*} {visit : α → Except ε (δ × List α)}

/-- Pops items until the stack is empty or a visit fails. -/
def walk (visit : α → Except ε (δ × List α)) : ℕ → List α → Except ε (List δ)
  | 0, _ => .ok []
  | _ + 1, [] => .ok []
  | fuel + 1, item :: stack =>
      match visit item with
      | .error e => .error e
      | .ok (event, pushed) =>
          match walk visit fuel (pushed.reverse ++ stack) with
          | .error e => .error e
          | .ok events => .ok (event :: events)

/-- One visit of `item` pushes `next`. -/
def Pushes (visit : α → Except ε (δ × List α)) (item next : α) : Prop :=
  ∃ event pushed, visit item = .ok (event, pushed) ∧ next ∈ pushed

/-- The items a walk from `item` gets to. -/
def Visits (visit : α → Except ε (δ × List α)) : α → α → Prop :=
  Relation.ReflTransGen (Pushes visit)

/-- Every item outweighs everything it pushes. -/
structure Decreasing (visit : α → Except ε (δ × List α)) (weight : α → ℕ) : Prop where
  pos : ∀ item, 0 < weight item
  pushed_lt : ∀ item event pushed, visit item = .ok (event, pushed) →
    (pushed.map weight).sum < weight item

theorem visits_iff {item next : α} :
    Visits visit item next ↔
      item = next ∨ ∃ event pushed, visit item = .ok (event, pushed) ∧
        ∃ child ∈ pushed, Visits visit child next := by
  constructor
  · intro h
    rcases Relation.ReflTransGen.cases_head h with rfl | ⟨child, ⟨event, pushed, hv, hc⟩, hn⟩
    · exact .inl rfl
    · exact .inr ⟨event, pushed, hv, child, hc, hn⟩
  · rintro (rfl | ⟨event, pushed, hv, child, hc, hn⟩)
    · exact .refl
    · exact .head ⟨event, pushed, hv, hc⟩ hn

/-- Popping an item leaves the items it pushed and the rest of the stack to visit. -/
private theorem reached_iff {item : α} {stack pushed : List α} {event : δ}
    (hv : visit item = .ok (event, pushed)) (P : α → Prop) :
    (∃ start ∈ item :: stack, ∃ next, Visits visit start next ∧ P next) ↔
      P item ∨ ∃ start ∈ pushed.reverse ++ stack, ∃ next, Visits visit start next ∧ P next := by
  simp only [List.mem_cons, List.mem_append, List.mem_reverse]
  constructor
  · rintro ⟨start, rfl | hs, next, hn, hp⟩
    · rcases visits_iff.mp hn with rfl | ⟨e, ps, hv', child, hc, hn⟩
      · exact .inl hp
      · obtain ⟨rfl, rfl⟩ : event = e ∧ pushed = ps := by simpa [hv] using hv'
        exact .inr ⟨child, .inl hc, next, hn, hp⟩
    · exact .inr ⟨start, .inr hs, next, hn, hp⟩
  · rintro (hp | ⟨start, hs | hs, next, hn, hp⟩)
    · exact ⟨item, .inl rfl, item, .refl, hp⟩
    · exact ⟨item, .inl rfl, next, .head ⟨event, pushed, hv, hs⟩ hn, hp⟩
    · exact ⟨start, .inr hs, next, hn, hp⟩

private theorem fuel_of_pushed {weight : α → ℕ} (hw : Decreasing visit weight) {fuel : ℕ}
    {item : α} {stack pushed : List α} {event : δ}
    (hf : ((item :: stack).map weight).sum ≤ fuel + 1)
    (hv : visit item = .ok (event, pushed)) :
    ((pushed.reverse ++ stack).map weight).sum ≤ fuel := by
  have hlt := hw.pushed_lt item event pushed hv
  simp only [List.map_cons, List.sum_cons, List.map_append, List.sum_append, List.map_reverse,
    List.sum_reverse] at hf ⊢
  omega

/-- A successful walk reports exactly the events of the items it gets to. -/
theorem mem_walk_iff {weight : α → ℕ} (hw : Decreasing visit weight) {fuel : ℕ}
    {stack : List α} {events : List δ} (hf : (stack.map weight).sum ≤ fuel)
    (h : walk visit fuel stack = .ok events) (event : δ) :
    event ∈ events ↔
      ∃ item ∈ stack, ∃ next, Visits visit item next ∧
        ∃ pushed, visit next = .ok (event, pushed) := by
  induction fuel generalizing stack events with
  | zero =>
      cases stack with
      | nil => simp_all [walk]
      | cons item stack =>
          have := hw.pos item
          simp only [List.map_cons, List.sum_cons] at hf
          omega
  | succ fuel ih =>
      cases stack with
      | nil => simp_all [walk]
      | cons item stack =>
          simp only [walk] at h
          rcases hv : visit item with e | ⟨first, pushed⟩
          · simp [hv] at h
          · simp only [hv] at h
            rcases hr : walk visit fuel (pushed.reverse ++ stack) with e | rest
            · simp [hr] at h
            · obtain rfl : first :: rest = events := by simpa [hr] using h
              rw [reached_iff hv, List.mem_cons, ih (fuel_of_pushed hw hf hv) hr]
              simp [hv, eq_comm]

/-- A walk succeeds exactly when no item it gets to fails. -/
theorem walk_isOk_iff {weight : α → ℕ} (hw : Decreasing visit weight) {fuel : ℕ}
    {stack : List α} (hf : (stack.map weight).sum ≤ fuel) :
    (∃ events, walk visit fuel stack = .ok events) ↔
      ¬ ∃ item ∈ stack, ∃ next, Visits visit item next ∧ ∃ e, visit next = .error e := by
  induction fuel generalizing stack with
  | zero =>
      cases stack with
      | nil => simp [walk]
      | cons item stack =>
          have := hw.pos item
          simp only [List.map_cons, List.sum_cons] at hf
          omega
  | succ fuel ih =>
      cases stack with
      | nil => simp [walk]
      | cons item stack =>
          rcases hv : visit item with e | ⟨first, pushed⟩
          · have hstop : ∃ start ∈ item :: stack, ∃ next, Visits visit start next ∧
                ∃ e, visit next = .error e := ⟨item, by simp, item, .refl, e, hv⟩
            simp only [walk, hv, not_not.mpr hstop, reduceCtorEq, exists_false]
          · rw [reached_iff hv]
            simp only [hv, reduceCtorEq, exists_false, false_or,
              ← ih (fuel_of_pushed hw hf hv), walk]
            rcases walk visit fuel (pushed.reverse ++ stack) with e | rest <;> simp

/-- A failed walk fails as one of the items it gets to does. -/
theorem exists_of_walk_error {fuel : ℕ} {stack : List α} {e : ε}
    (h : walk visit fuel stack = .error e) :
    ∃ item ∈ stack, ∃ next, Visits visit item next ∧ visit next = .error e := by
  induction fuel generalizing stack with
  | zero => cases stack <;> simp [walk] at h
  | succ fuel ih =>
      cases stack with
      | nil => simp [walk] at h
      | cons item stack =>
          simp only [walk] at h
          rcases hv : visit item with e' | ⟨first, pushed⟩
          · obtain rfl : e' = e := by simpa [hv] using h
            exact ⟨item, by simp, item, .refl, hv⟩
          · simp only [hv] at h
            rcases hr : walk visit fuel (pushed.reverse ++ stack) with e' | rest
            · obtain rfl : e' = e := by simpa [hr] using h
              exact (reached_iff hv _).mpr (.inr (ih hr))
            · simp [hr] at h

/-- What the events of a walk emit is no more than what its items have to offer.
It is enough to look at items with a property that visits hand on. -/
theorem walk_subperm {β : Type*} {emit : δ → List β} {offer : α → List β} (inside : α → Prop)
    (hpushed : ∀ item event pushed, inside item → visit item = .ok (event, pushed) →
      ∀ next ∈ pushed, inside next)
    (h : ∀ item event pushed, inside item → visit item = .ok (event, pushed) →
      (emit event ++ pushed.flatMap offer).Subperm (offer item))
    {fuel : ℕ} {stack : List α} {events : List δ} (hstack : ∀ item ∈ stack, inside item)
    (hw : walk visit fuel stack = .ok events) :
    (events.flatMap emit).Subperm (stack.flatMap offer) := by
  induction fuel generalizing stack events with
  | zero =>
      obtain rfl : [] = events := by cases stack <;> simpa [walk] using hw
      exact List.nil_subperm
  | succ fuel ih =>
      cases stack with
      | nil =>
          obtain rfl : [] = events := by simpa [walk] using hw
          exact List.nil_subperm
      | cons item stack =>
          simp only [walk] at hw
          rcases hv : visit item with e | ⟨first, pushed⟩
          · simp [hv] at hw
          · simp only [hv] at hw
            rcases hr : walk visit fuel (pushed.reverse ++ stack) with e | rest
            · simp [hr] at hw
            · obtain rfl : first :: rest = events := by simpa [hr] using hw
              have hitem := hstack item (by simp)
              have hnext : ∀ next ∈ pushed.reverse ++ stack, inside next := by
                intro next hn
                rcases List.mem_append.mp hn with hn | hn
                · exact hpushed item first pushed hitem hv next (List.mem_reverse.mp hn)
                · exact hstack next (List.mem_cons_of_mem _ hn)
              have hrest := ih hnext hr
              have hperm : ((pushed.reverse ++ stack).flatMap offer).Perm
                  (pushed.flatMap offer ++ stack.flatMap offer) := by
                rw [List.flatMap_append]
                exact ((List.reverse_perm pushed).flatMap_right offer).append_right _
              have hfirst : (emit first ++ rest.flatMap emit).Subperm
                  (emit first ++ (pushed.flatMap offer ++ stack.flatMap offer)) :=
                (List.subperm_append_left _).mpr (hrest.trans hperm.subperm)
              rw [← List.append_assoc] at hfirst
              rw [List.flatMap_cons, List.flatMap_cons]
              exact hfirst.trans
                ((List.subperm_append_right _).mpr (h item first pushed hitem hv))

end StackWalk
