import Mathlib.Algebra.Order.BigOperators.Group.Finset
import Mathlib.Data.Fintype.Card
import Mathlib.Data.Fintype.Sets
import Mathlib.Logic.Function.Basic
import Mathlib.Logic.Relation
import Mathlib.Order.WellFounded

/-! Distances from a root of a graph, found by correcting labels: a node is
labelled again whenever a shorter walk to it turns up. -/

namespace Distance

variable {α : Type*} (next : α → List α)

/-- A walk from the root with its number of steps. -/
inductive Walk (root : α) : α → ℕ → Prop
  | root : Walk root root 0
  | step {x y : α} {n : ℕ} (h : Walk root x n) (hy : y ∈ next x) : Walk root y (n + 1)

/-- The length of the shortest walks from the root. -/
def IsDistance (root x : α) (d : ℕ) : Prop :=
  Walk next root x d ∧ ∀ n, Walk next root x n → d ≤ n

/-- Some walk to the first node is shorter than all walks to the second. -/
def Nearer (root x y : α) : Prop :=
  ∃ d, Walk next root x d ∧ ∀ n, Walk next root y n → d < n

variable {next} {root x y : α} {d n : ℕ}

theorem Walk.reaches (h : Walk next root x n) :
    Relation.ReflTransGen (fun x y => y ∈ next x) root x := by
  induction h with
  | root => exact .refl
  | step _ hy ih => exact ih.tail hy

theorem exists_walk (h : Relation.ReflTransGen (fun x y => y ∈ next x) root x) :
    ∃ n, Walk next root x n := by
  induction h with
  | refl => exact ⟨0, .root⟩
  | tail _ hy ih =>
      obtain ⟨n, hn⟩ := ih
      exact ⟨n + 1, hn.step hy⟩

theorem exists_distance (h : Relation.ReflTransGen (fun x y => y ∈ next x) root x) :
    ∃ d, IsDistance next root x d := by
  classical
  have hw := exists_walk h
  exact ⟨Nat.find hw, Nat.find_spec hw, fun n hn => Nat.find_min' hw hn⟩

theorem IsDistance.unique (h : IsDistance next root x d) (h' : IsDistance next root x n) :
    d = n :=
  le_antisymm (h.2 n h'.1) (h'.2 d h.1)

theorem nearer_iff (hx : IsDistance next root x d) (hy : IsDistance next root y n) :
    Nearer next root x y ↔ d < n := by
  constructor
  · rintro ⟨k, hk, hlt⟩
    exact lt_of_le_of_lt (hx.2 k hk) (hlt n hy.1)
  · intro h
    exact ⟨d, hx.1, fun k hk => lt_of_lt_of_le h (hy.2 k hk)⟩

/-- A walk of some steps starts with one of them. -/
theorem Walk.cases_head (h : Walk next root x (n + 1)) : ∃ y ∈ next root, Walk next y x n := by
  generalize hk : n + 1 = k at h
  induction h generalizing n with
  | root => omega
  | @step x y k hx hy ih =>
      obtain rfl : n = k := by omega
      cases n with
      | zero =>
          cases hx with
          | root => exact ⟨y, hy, .root⟩
      | succ n =>
          obtain ⟨z, hz, hwalk⟩ := ih rfl
          exact ⟨z, hz, hwalk.step hy⟩

/-- Without infinite descents all walks from a root are bounded. -/
theorem exists_bound (hwf : WellFounded fun y x => y ∈ next x) (root : α) :
    ∃ bound, ∀ x n, Walk next root x n → n ≤ bound := by
  induction root using hwf.induction with
  | _ root ih =>
      choose! bound hbound using ih
      refine ⟨((next root).map bound).sum + 1, fun x n hwalk => ?_⟩
      cases n with
      | zero => omega
      | succ n =>
          obtain ⟨y, hy, hrest⟩ := hwalk.cases_head
          have hle := List.le_sum_of_mem (List.mem_map_of_mem (f := bound) hy)
          have := hbound y hy x n hrest
          omega

theorem wellFounded_of_acyclic [Finite α]
    (h : ∀ x, ¬ Relation.TransGen (fun x y => y ∈ next x) x x) :
    WellFounded fun y x => y ∈ next x := by
  have hirrefl : Std.Irrefl (Relation.TransGen fun y x => y ∈ next x) := by
    refine ⟨fun x hx => h x ?_⟩
    rw [← Relation.transGen_swap]
    exact hx
  have hwf : WellFounded (Relation.TransGen fun y x => y ∈ next x) :=
    Finite.wellFounded_of_trans_of_irrefl _
  exact Subrelation.wf (fun hstep => .single hstep) hwf

/-! ## Labels -/

/-- Labels are lengths of walks, and what an edge could still improve is on the stack. -/
structure Labelled (next : α → List α) (root : α) (stack : List (α × ℕ)) (label : α → Option ℕ) :
    Prop where
  walk : ∀ x d, label x = some d → Walk next root x d
  stacked : ∀ x d, (x, d) ∈ stack → Walk next root x d
  root : label root = some 0 ∨ (root, 0) ∈ stack
  edge : ∀ x d, label x = some d → ∀ y ∈ next x,
    (∃ e ≤ d + 1, label y = some e) ∨ ∃ e ≤ d + 1, (y, e) ∈ stack

variable {stack : List (α × ℕ)} {label : α → Option ℕ}

theorem Labelled.start : Labelled next root [(root, 0)] fun _ => none where
  walk := by simp
  stacked := by
    rintro x d h
    obtain ⟨rfl, rfl⟩ := Prod.mk.inj (List.mem_singleton.mp h)
    exact .root
  root := .inr (List.mem_singleton.mpr rfl)
  edge := by simp

/-- A node with a label that is no longer is dropped. -/
theorem Labelled.skip (h : Labelled next root ((x, d) :: stack) label)
    (hx : ∃ e ≤ d, label x = some e) : Labelled next root stack label where
  walk := h.walk
  stacked y e hy := h.stacked y e (List.mem_cons_of_mem _ hy)
  root := by
    rcases h.root with hroot | hroot
    · exact .inl hroot
    · rcases List.mem_cons.mp hroot with heq | hroot
      · obtain ⟨rfl, rfl⟩ := Prod.mk.inj heq
        obtain ⟨e, he, hl⟩ := hx
        exact .inl (by rw [hl, Nat.le_zero.mp he])
      · exact .inr hroot
  edge y e hy z hz := by
    rcases h.edge y e hy z hz with hlabel | ⟨k, hk, hmem⟩
    · exact .inl hlabel
    · rcases List.mem_cons.mp hmem with heq | hmem
      · obtain ⟨rfl, rfl⟩ := Prod.mk.inj heq
        obtain ⟨i, hi, hl⟩ := hx
        exact .inl ⟨i, le_trans hi hk, hl⟩
      · exact .inr ⟨k, hk, hmem⟩

variable [DecidableEq α]

/-- A node without a label, or with a longer one, gets the label, and the nodes
after it are pushed. -/
theorem Labelled.visit {stack' : List (α × ℕ)} (h : Labelled next root ((x, d) :: stack) label)
    (hx : ∀ e, label x = some e → d < e)
    (hstack : ∀ item, item ∈ stack' ↔ (item.1 ∈ next x ∧ item.2 = d + 1) ∨ item ∈ stack) :
    Labelled next root stack' (Function.update label x (some d)) := by
  have hwalk : Walk next root x d := h.stacked x d (List.mem_cons_self ..)
  have hkeep : ∀ y e, label y = some e → ∃ k ≤ e, Function.update label x (some d) y = some k := by
    intro y e hy
    by_cases hyx : y = x
    · subst hyx
      exact ⟨d, le_of_lt (hx e hy), Function.update_self ..⟩
    · exact ⟨e, le_rfl, by rw [Function.update_of_ne hyx, hy]⟩
  have hmem : ∀ y e, (y, e) ∈ (x, d) :: stack →
      (∃ k ≤ e, Function.update label x (some d) y = some k) ∨ (y, e) ∈ stack' := by
    intro y e hy
    rcases List.mem_cons.mp hy with heq | hy
    · obtain ⟨rfl, rfl⟩ := Prod.mk.inj heq
      exact .inl ⟨e, le_rfl, Function.update_self ..⟩
    · exact .inr ((hstack (y, e)).mpr (.inr hy))
  refine ⟨fun y e hy => ?_, fun y e hy => ?_, ?_, fun y e hy z hz => ?_⟩
  · by_cases hyx : y = x
    · subst hyx
      rw [Function.update_self] at hy
      exact Option.some.inj hy ▸ hwalk
    · rw [Function.update_of_ne hyx] at hy
      exact h.walk y e hy
  · rcases (hstack (y, e)).mp hy with ⟨hnext, rfl⟩ | hy
    · exact hwalk.step hnext
    · exact h.stacked y e (List.mem_cons_of_mem _ hy)
  · have hzero : (∃ k ≤ 0, Function.update label x (some d) root = some k) ∨
        (root, 0) ∈ stack' := by
      rcases h.root with hroot | hroot
      · exact .inl (hkeep root 0 hroot)
      · exact hmem root 0 hroot
    rcases hzero with ⟨k, hk, hl⟩ | hroot
    · exact .inl (by rw [hl, Nat.le_zero.mp hk])
    · exact .inr hroot
  · by_cases hyx : y = x
    · subst hyx
      rw [Function.update_self] at hy
      obtain rfl := Option.some.inj hy
      exact .inr ⟨d + 1, le_rfl, (hstack (z, d + 1)).mpr (.inl ⟨hz, rfl⟩)⟩
    · rw [Function.update_of_ne hyx] at hy
      rcases h.edge y e hy z hz with ⟨k, hk, hl⟩ | ⟨k, hk, hl⟩
      · obtain ⟨i, hi, hl⟩ := hkeep z k hl
        exact .inl ⟨i, le_trans hi hk, hl⟩
      · rcases hmem z k hl with ⟨i, hi, hl⟩ | hl
        · exact .inl ⟨i, le_trans hi hk, hl⟩
        · exact .inr ⟨k, hk, hl⟩

omit [DecidableEq α] in
/-- With an empty stack the labels are the distances. -/
theorem Labelled.label_iff (h : Labelled next root [] label) :
    label x = some d ↔ IsDistance next root x d := by
  have hle : ∀ y n, Walk next root y n → ∃ e ≤ n, label y = some e := by
    intro y n hw
    induction hw with
    | root => exact ⟨0, le_rfl, by simpa using h.root⟩
    | @step y z n _ hz ih =>
        obtain ⟨e, he, hl⟩ := ih
        obtain ⟨k, hk, hl⟩ : ∃ k ≤ e + 1, label z = some k := by simpa using h.edge y e hl z hz
        exact ⟨k, by omega, hl⟩
  constructor
  · intro hx
    refine ⟨h.walk x d hx, fun n hn => ?_⟩
    obtain ⟨e, he, hl⟩ := hle x n hn
    rw [hx] at hl
    exact Option.some.inj hl ▸ he
  · rintro ⟨hw, hmin⟩
    obtain ⟨e, he, hl⟩ := hle x d hw
    rw [hl, le_antisymm he (hmin e (h.walk x e hl))]

/-! ## Termination -/

section Termination

variable [Fintype α]

/-- How far a label can still go down. A missing label counts as longer than any. -/
def slack (bound : ℕ) (label : Option ℕ) : ℕ :=
  label.getD (bound + 1)

/-- Bounds the number of pops that are left. -/
def remaining (next : α → List α) (bound : ℕ) (stack : List (α × ℕ)) (label : α → Option ℕ) : ℕ :=
  stack.length + ∑ x, ((next x).length + 1) * slack bound (label x)

omit [DecidableEq α] in
theorem remaining_skip (bound : ℕ) (item : α × ℕ) :
    remaining next bound (item :: stack) label = remaining next bound stack label + 1 := by
  simp only [remaining, List.length_cons]
  omega

theorem remaining_visit {bound : ℕ} {stack' : List (α × ℕ)} (hd : d ≤ bound)
    (hx : ∀ e, label x = some e → d < e)
    (hlen : stack'.length = (next x).length + stack.length) :
    remaining next bound stack' (Function.update label x (some d)) <
      remaining next bound ((x, d) :: stack) label := by
  have hslack : d + 1 ≤ slack bound (label x) := by
    cases hl : label x with
    | none => simp [slack, hd]
    | some e => exact hx e hl
  have hsum : ∑ y, ((next y).length + 1) *
        slack bound (Function.update label x (some d) y) + ((next x).length + 1) ≤
      ∑ y, ((next y).length + 1) * slack bound (label y) := by
    rw [← Finset.add_sum_erase _ _ (Finset.mem_univ x),
      ← Finset.add_sum_erase _ (fun y => _ * slack bound (label y)) (Finset.mem_univ x)]
    have hrest : ∑ y ∈ Finset.univ.erase x, ((next y).length + 1) *
          slack bound (Function.update label x (some d) y) =
        ∑ y ∈ Finset.univ.erase x, ((next y).length + 1) * slack bound (label y) := by
      apply Finset.sum_congr rfl
      intro y hy
      rw [Function.update_of_ne (Finset.ne_of_mem_erase hy)]
    have hhead : ((next x).length + 1) * slack bound (some d) + ((next x).length + 1) ≤
        ((next x).length + 1) * slack bound (label x) := by
      have := Nat.mul_le_mul_left ((next x).length + 1) hslack
      rw [Nat.mul_add, Nat.mul_one] at this
      exact this
    rw [hrest, Function.update_self]
    omega
  simp only [remaining, List.length_cons, hlen]
  omega

end Termination

end Distance
