import Mathlib.Algebra.Order.BigOperators.Group.Finset
import Mathlib.Data.Fintype.Card
import Mathlib.Data.Set.Finite.Lemmas
import Mathlib.Data.List.Nodup
import Mathlib.Logic.Relation

/-! Explorations of a graph. Nodes are visited one at a time, each taken from
the fringe of those before it; a worklist holds the fringe, and may also hold
nodes that were visited in the meantime. -/

namespace Exploration

variable {α : Type*} (next : α → List α) {root x : α} {visited pending pending' : List α}

def Reaches : α → α → Prop :=
  Relation.ReflTransGen fun x y => y ∈ next x

/-- Nothing outside a closed list is reached from within. -/
theorem Reaches.mem_of_closed [DecidableEq α] {next : α → List α} {x y : α}
    (h : Reaches next x y) {closed : List α} (hx : x ∈ closed)
    (hclosed : closed.all fun z => (next z).all fun w => decide (w ∈ closed)) : y ∈ closed := by
  induction h with
  | refl => exact hx
  | @tail z w _ hstep ih =>
      have hz := List.all_eq_true.mp hclosed z ih
      exact of_decide_eq_true (List.all_eq_true.mp hz w hstep)

/-- The graph cut behind a node. -/
def stopAt [DecidableEq α] (next : α → List α) (stop x : α) : List α :=
  if stop = x then [] else next x

theorem Reaches.of_stopAt [DecidableEq α] {next : α → List α} {stop x y : α}
    (h : Reaches (stopAt next stop) x y) : Reaches next x y := by
  induction h with
  | refl => exact .refl
  | @tail z w _ hstep ih =>
      rw [stopAt] at hstep
      split at hstep
      · cases hstep
      · exact ih.tail hstep

/-- A path goes on past the node where the graph is cut, or stays in the cut graph. -/
theorem Reaches.stopAt_or [DecidableEq α] {next : α → List α} {x y : α} (h : Reaches next x y)
    (stop : α) :
    Reaches (stopAt next stop) x y ∨
      Reaches (stopAt next stop) x stop ∧ Reaches next stop y := by
  induction h with
  | refl => exact .inl .refl
  | @tail z w _ hstep ih =>
      rcases ih with hcut | ⟨hstop, hbehind⟩
      · by_cases hz : stop = z
        · subst hz
          exact .inr ⟨hcut, .single hstep⟩
        · exact .inl (hcut.tail (by rwa [stopAt, if_neg hz]))
      · exact .inr ⟨hstop, hbehind.tail hstep⟩

/-- The nodes that may be visited next. -/
def Fringe (root : α) (visited : List α) (y : α) : Prop :=
  y ∉ visited ∧ (y = root ∨ ∃ x ∈ visited, y ∈ next x)

structure Explored (root : α) (visited : List α) : Prop where
  nodup : visited.Nodup
  reaches : ∀ x ∈ visited, Reaches next root x

variable {next}

theorem Explored.nil : Explored next root [] :=
  ⟨List.nodup_nil, by simp⟩

theorem Fringe.reaches (he : Explored next root visited) (hx : Fringe next root visited x) :
    Reaches next root x := by
  rcases hx.2 with rfl | ⟨y, hy, hxy⟩
  · exact .refl
  · exact (he.reaches y hy).tail hxy

theorem Explored.cons (he : Explored next root visited) (hx : Fringe next root visited x) :
    Explored next root (x :: visited) where
  nodup := List.nodup_cons.mpr ⟨hx.1, he.nodup⟩
  reaches := by
    intro y hy
    rcases List.mem_cons.mp hy with rfl | hy
    · exact hx.reaches he
    · exact he.reaches y hy

/-- An exploration with an empty fringe visited exactly what the root reaches. -/
theorem Explored.mem_iff (he : Explored next root visited)
    (hdone : ∀ y, ¬ Fringe next root visited y) : x ∈ visited ↔ Reaches next root x := by
  constructor
  · exact he.reaches x
  · intro hr
    induction hr with
    | refl =>
        by_contra hx
        exact hdone root ⟨hx, .inl rfl⟩
    | @tail y z _ hz ih =>
        by_contra hx
        exact hdone z ⟨hx, .inr ⟨y, ih, hz⟩⟩

/-! ## Worklists -/

/-- The unvisited nodes of the worklist are the fringe. -/
def Holds (next : α → List α) (root : α) (visited pending : List α) : Prop :=
  ∀ y, y ∉ visited → (y ∈ pending ↔ y = root ∨ ∃ x ∈ visited, y ∈ next x)

theorem Holds.start : Holds next root [] [root] := by
  intro y _
  simp

theorem Holds.fringe_iff (h : Holds next root visited pending) {y : α} :
    Fringe next root visited y ↔ y ∉ visited ∧ y ∈ pending := by
  rw [Fringe]
  constructor
  · exact fun hf => ⟨hf.1, (h y hf.1).mpr hf.2⟩
  · exact fun hf => ⟨hf.1, (h y hf.1).mp hf.2⟩

theorem Holds.of_mem_iff (h : Holds next root visited pending)
    (hp : ∀ y, y ∉ visited → (y ∈ pending' ↔ y ∈ pending)) :
    Holds next root visited pending' := by
  intro y hy
  rw [hp y hy, h y hy]

theorem Holds.skip (h : Holds next root visited (x :: pending)) (hx : x ∈ visited) :
    Holds next root visited pending := by
  apply h.of_mem_iff
  intro y hy
  have hne : y ≠ x := fun hyx => hy (hyx ▸ hx)
  simp [hne]

theorem Holds.visit (h : Holds next root visited (x :: pending))
    (hp : ∀ y, y ∈ pending' ↔ (y ∈ next x ∧ y ∉ x :: visited) ∨ y ∈ pending) :
    Holds next root (x :: visited) pending' := by
  intro y hy
  obtain ⟨hne, hv⟩ : y ≠ x ∧ y ∉ visited := by simpa using hy
  have hpending := h y hv
  simp only [List.mem_cons, hne, false_or] at hpending
  rw [hp, hpending]
  simp only [List.mem_cons, hne, hv, or_self, not_false_eq_true, and_true, exists_eq_or_imp]
  tauto

section Termination

variable [Fintype α] [DecidableEq α]

/-- Bounds the number of pops that are left. -/
def remaining (next : α → List α) (visited pending : List α) : ℕ :=
  pending.length + ∑ x with x ∉ visited, (next x).length

theorem remaining_skip :
    remaining next visited (x :: pending) = remaining next visited pending + 1 := by
  simp only [remaining, List.length_cons]
  omega

theorem remaining_visit (hx : x ∉ visited)
    (hl : pending'.length ≤ (next x).length + pending.length) :
    remaining next (x :: visited) pending' < remaining next visited (x :: pending) := by
  have hset : (Finset.univ.filter (· ∉ visited)) =
      insert x (Finset.univ.filter (· ∉ x :: visited)) := by
    ext y
    by_cases hy : y = x
    · simp [hy, hx]
    · simp [hy]
  have hsum : ∑ y with y ∉ visited, (next y).length =
      (next x).length + ∑ y with y ∉ x :: visited, (next y).length := by
    rw [hset, Finset.sum_insert (by simp)]
  simp only [remaining, List.length_cons, hsum]
  omega

end Termination

/-! ## Best-first order -/

section BestFirst

variable {β : Type*} [LinearOrder β] {rank : α → β} {order : List α}

/-- The order of the visits that follow when each takes the highest-ranked node
of the fringe. -/
inductive BestFirst (next : α → List α) (rank : α → β) (root : α) : List α → List α → Prop
  | done {visited : List α} (hdone : ∀ y, ¬ Fringe next root visited y) :
      BestFirst next rank root visited []
  | visit {visited rest : List α} {x : α} (hx : Fringe next root visited x)
      (hbest : ∀ y, Fringe next root visited y → rank y ≤ rank x)
      (hrest : BestFirst next rank root (x :: visited) rest) :
      BestFirst next rank root visited (x :: rest)

theorem BestFirst.explored (h : BestFirst next rank root visited order)
    (he : Explored next root visited) :
    Explored next root (order.reverse ++ visited) ∧
      ∀ y, ¬ Fringe next root (order.reverse ++ visited) y := by
  induction h with
  | done hdone => exact ⟨by simpa using he, by simpa using hdone⟩
  | visit hx _ _ ih => simpa using ih (he.cons hx)

/-- A best-first order lists what the root reaches, each node once. -/
theorem BestFirst.mem_iff (h : BestFirst next rank root [] order) :
    x ∈ order ↔ Reaches next root x := by
  obtain ⟨he, hdone⟩ := h.explored .nil
  simpa using he.mem_iff (x := x) hdone

theorem BestFirst.nodup (h : BestFirst next rank root [] order) : order.Nodup := by
  simpa using (h.explored .nil).1.nodup

/-- On a finite graph every exploration can be finished best first. -/
theorem BestFirst.exists [Fintype α] (next : α → List α) (rank : α → β) (root : α)
    (he : Explored next root visited) : ∃ order, BestFirst next rank root visited order := by
  induction hn : Fintype.card α - visited.length using Nat.strongRecOn generalizing visited with
  | ind n ih =>
      by_cases hfringe : ∃ y, Fringe next root visited y
      · obtain ⟨x, hx, hbest⟩ :=
          Set.exists_max_image {y | Fringe next root visited y} rank (Set.toFinite _) hfringe
        have hlen := (he.cons hx).nodup.length_le_card
        rw [List.length_cons] at hlen
        obtain ⟨order, horder⟩ := ih _ (by rw [List.length_cons]; omega) (he.cons hx) rfl
        exact ⟨x :: order, .visit hx hbest horder⟩
      · exact ⟨[], .done fun y hy => hfringe ⟨y, hy⟩⟩

/-- What a traversal visits after some first nodes. -/
theorem BestFirst.of_append {first : List α}
    (h : BestFirst next rank root visited (first ++ order)) :
    BestFirst next rank root (first.reverse ++ visited) order := by
  induction first generalizing visited with
  | nil => exact h
  | cons x first ih =>
      cases h with
      | visit _ _ hrest => simpa using ih hrest

theorem BestFirst.mem_of_fringe (h : BestFirst next rank root visited order)
    (he : Explored next root visited) (hx : Fringe next root visited x) : x ∈ order := by
  obtain ⟨he', hdone⟩ := h.explored he
  have hmem := (he'.mem_iff hdone).mpr (hx.reaches he)
  simpa [hx.1] using hmem

theorem Explored.of_append {later : List α} (h : Explored next root (later ++ visited)) :
    Explored next root visited :=
  ⟨(List.nodup_append.mp h.nodup).2.1, fun x hx => h.reaches x (by simp [hx])⟩

/-! ### The last visit -/

/-- A path of nodes of a set. -/
def ReachesWithin (next : α → List α) (s : Set α) : α → α → Prop :=
  Relation.ReflTransGen fun x y => y ∈ next x ∧ y ∈ s

/-- The node of a set that is visited last from the root: the lowest-ranked other
node, or the last of those that are reached only through it. -/
inductive LastVisited (next : α → List α) (rank : α → β) : Set α → α → α → Prop
  | root {s : Set α} {root : α} (hroot : ∀ x ∈ s, x = root) : LastVisited next rank s root root
  | behind {s : Set α} {root lowest last : α} (hmem : lowest ∈ s) (hne : lowest ≠ root)
      (hlow : ∀ x ∈ s, x ≠ root → rank lowest ≤ rank x)
      (hlast : LastVisited next rank {x ∈ s | ¬ ReachesWithin next (s \ {lowest}) root x}
        lowest last) :
      LastVisited next rank s root last

theorem LastVisited.unique (hrank : Function.Injective rank) {s : Set α} {last last' : α}
    (h : LastVisited next rank s root last) (h' : LastVisited next rank s root last') :
    last = last' := by
  induction h generalizing last' with
  | root hroot =>
      cases h' with
      | root _ => rfl
      | behind hmem hne _ _ => exact absurd (hroot _ hmem) hne
  | behind hmem hne hlow _ ih =>
      cases h' with
      | root hroot => exact absurd (hroot _ hmem) hne
      | behind hmem' hne' hlow' hlast' =>
          obtain rfl := hrank (le_antisymm (hlow _ hmem' hne') (hlow' _ hmem hne))
          exact ih hlast'

/-- What is visited before the rest of a set is reached without the rest. -/
theorem BestFirst.reachesWithin {first : List α} {r : α} {s : Set α}
    (h : BestFirst next rank root visited (first ++ order)) (hs : ∀ x ∈ first, x ∈ s)
    (hfringe : ∀ x, Fringe next root visited x → x ∈ s → ReachesWithin next s r x) :
    ∀ x ∈ first, ReachesWithin next s r x := by
  induction first generalizing visited with
  | nil => simp
  | cons y first ih =>
      cases h with
      | visit hy _ hrest =>
        have hreach := hfringe y hy (hs y (by simp))
        intro x hx
        rcases List.mem_cons.mp hx with rfl | hx
        · exact hreach
        · refine ih hrest (fun z hz => hs z (by simp [hz])) (fun z hz hzs => ?_) x hx
          obtain ⟨hz, hzfrom⟩ := hz
          have hznot : z ∉ visited := fun hmem => hz (by simp [hmem])
          rcases hzfrom with hroot | ⟨w, hw, hwz⟩
          · exact hfringe z ⟨hznot, .inl hroot⟩ hzs
          · rcases List.mem_cons.mp hw with rfl | hw
            · exact hreach.tail ⟨hwz, hzs⟩
            · exact hfringe z ⟨hznot, .inr ⟨w, hw, hwz⟩⟩ hzs

/-- Where `m` is the only node that may be visited next, the nodes not visited
yet are those that the earlier ones lead to only through `m`. -/
theorem mem_iff_not_reachesWithin {first last : List α} {r m : α}
    (hrest : BestFirst next rank root (r :: visited) (first ++ m :: last))
    (he : Explored next root (last.reverse ++ m :: (first.reverse ++ r :: visited)))
    (hbefore : ∀ y, Fringe next root visited y → y = r)
    (honly : ∀ y, Fringe next root (first.reverse ++ r :: visited) y → y = m) :
    {x | x ∈ m :: last} = {x ∈ {x | x ∈ r :: (first ++ m :: last)} |
      ¬ ReachesWithin next ({x | x ∈ r :: (first ++ m :: last)} \ {m}) r x} := by
  have hnodup := he.nodup
  simp only [List.nodup_append, List.nodup_cons, List.mem_append, List.mem_cons, List.mem_reverse]
    at hnodup
  ext x
  constructor
  · intro hx
    refine ⟨List.mem_cons_of_mem r (List.mem_append_right first hx), fun hreach => ?_⟩
    have hvisited : x ∈ first.reverse ++ r :: visited := by
      clear hx
      induction hreach with
      | refl => simp
      | @tail y z _ hz ih =>
          by_contra hznot
          exact hz.2.2 (honly z ⟨hznot, .inr ⟨y, ih, hz.1⟩⟩)
    simp only [List.mem_append, List.mem_cons, List.mem_reverse, Set.mem_ofPred_eq] at hx hvisited
    grind
  · rintro ⟨hx, hnot⟩
    by_contra hlast
    apply hnot
    have hfirst := hrest.reachesWithin
      (s := {x | x ∈ r :: (first ++ m :: last)} \ {m}) (r := r) (fun y hy => ?_) fun y hy hys => ?_
    · simp only [List.mem_append, List.mem_cons, Set.mem_ofPred_eq] at hx hlast
      rcases hx with rfl | hx | hx
      · exact .refl
      · exact hfirst x hx
      · exact absurd hx hlast
    · refine ⟨by simp [hy], ?_⟩
      rintro rfl
      grind
    · rcases hy with ⟨hy, hroot | ⟨w, hw, hwy⟩⟩
      · have hyr := hbefore y ⟨fun hmem => hy (by simp [hmem]), .inl hroot⟩
        exact absurd (by simp [hyr]) hy
      · rcases List.mem_cons.mp hw with rfl | hw
        · exact .single ⟨hwy, hys⟩
        · have hyr := hbefore y ⟨fun hmem => hy (by simp [hmem]), .inr ⟨w, hw, hwy⟩⟩
          exact absurd (by simp [hyr]) hy

/-- The last visit of a best-first traversal, from a point where only one node
may be visited next. -/
theorem BestFirst.lastVisited (hrank : Function.Injective rank) {r : α} {rest : List α}
    (h : BestFirst next rank root visited (r :: rest)) (he : Explored next root visited)
    (honly : ∀ y, Fringe next root visited y → y = r) :
    LastVisited next rank {x | x ∈ r :: rest} r ((r :: rest).getLast (by simp)) := by
  induction hn : rest.length using Nat.strongRecOn generalizing visited r rest with
  | ind n ih =>
      obtain ⟨hr, hrest⟩ : Fringe next root visited r ∧
          BestFirst next rank root (r :: visited) rest := by
        cases h with
        | visit hx _ hrest => exact ⟨hx, hrest⟩
      by_cases hnil : rest = []
      · subst hnil
        exact .root (by simp)
      · obtain ⟨m, hm, hlow⟩ :=
          Set.exists_min_image {x | x ∈ rest} rank (List.finite_toSet rest)
            (List.exists_mem_of_ne_nil rest hnil)
        obtain ⟨first, last, rfl⟩ := List.append_of_mem hm
        have hexplored : Explored next root (last.reverse ++ m :: (first.reverse ++ r :: visited)) := by
          simpa using (h.explored he).1
        have hbefore : Explored next root (first.reverse ++ r :: visited) :=
          Explored.of_append (List.append_cons .. ▸ hexplored)
        have hdrop := hrest.of_append
        have hm_only : ∀ y, Fringe next root (first.reverse ++ r :: visited) y → y = m := by
          intro y hy
          have hmem := hdrop.mem_of_fringe hbefore hy
          cases hdrop with
          | visit _ hbest _ =>
            apply hrank
            exact le_antisymm (hbest y hy) (hlow y (List.mem_append_right first hmem))
        have hlast := ih last.length (by simp [← hn]; omega) hdrop hbefore hm_only rfl
        rw [mem_iff_not_reachesWithin hrest hexplored honly hm_only] at hlast
        have hmr : m ≠ r := by
          rintro rfl
          simpa using (List.nodup_cons.mp (List.nodup_middle.mp hexplored.nodup)).1
        rw [List.getLast_cons (by simp), List.getLast_append_of_ne_nil _ (by simp)]
        refine .behind (List.mem_cons_of_mem r hm) hmr (fun x hx hne => ?_) hlast
        rcases List.mem_cons.mp hx with rfl | hx
        · exact absurd rfl hne
        · exact hlow x hx

end BestFirst

end Exploration
