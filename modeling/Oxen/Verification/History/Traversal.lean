import Oxen.Lib.Exploration
import Oxen.Lib.Fuel
import Oxen.Model.CommitHistory

/-! A commit traversal visits the history newest first: each commit is the
newest of the parents of those before it. -/

namespace Oxen

open Exploration Fuel

/-- Every commit is stored under its own id. -/
def NodeStore.Keyed (db : NodeStore) : Prop :=
  ∀ id commit, Commits.getByHash db id = some commit → commit.hash = id

namespace Commits

/-- The ids of the stored parents. A base commit ends the history. -/
def parentsOf (db : NodeStore) (base : Option MerkleHash) (id : MerkleHash) : List MerkleHash :=
  if base = some id then []
  else ((getByHash db id).toList.flatMap fun commit =>
    commit.parentIds.filterMap (getByHash db)).map (·.hash)

/-- The order of commits by their ids. -/
def rankOf (db : NodeStore) (id : MerkleHash) : ℕ ×ₗ String :=
  toLex ((getByHash db id).elim 0 (·.timestamp), id.display)

/-- The commit with an id that is stored. -/
def commitAt (db : NodeStore) (id : MerkleHash) : CommitNode :=
  (getByHash db id).getD { hash := id }

/-- A commit as it is read from the database. -/
def IsStored (db : NodeStore) (commit : CommitNode) : Prop :=
  getByHash db commit.hash = some commit

/-- The history of a commit, newest first, by ids. -/
def History (db : NodeStore) (base : Option MerkleHash) (head : MerkleHash)
    (order : List MerkleHash) : Prop :=
  BestFirst (parentsOf db base) (rankOf db) head [] order

noncomputable instance fintypeMerkleHash : Fintype MerkleHash :=
  Fintype.ofInjective BitVec.toFin fun _ _ h => BitVec.eq_of_toFin_eq h

variable {db : NodeStore} {base : Option MerkleHash} {config : CommitTraversalConfig}
  {commit : CommitNode} {head id : MerkleHash}

theorem rankOf_injective : Function.Injective (rankOf db) := by
  intro x y h
  have hpair := Prod.mk.inj (toLex.injective h)
  exact MerkleHash.display_injective hpair.2

theorem IsStored.rank_eq (h : IsStored db commit) : rankOf db commit.hash = rank commit := by
  rw [IsStored] at h
  rw [rankOf, h]
  rfl

theorem IsStored.commitAt_eq (h : IsStored db commit) : commitAt db commit.hash = commit := by
  rw [IsStored] at h
  rw [commitAt, h]
  rfl

theorem isStored_of_getByHash (hk : db.Keyed) (h : getByHash db id = some commit) :
    IsStored db commit := by
  rw [IsStored, hk id commit h, h]

/-- What a traversal pushes after a commit that is not the base. -/
theorem map_hash_unvisitedParents (hs : IsStored db commit) (hbase : base ≠ some commit.hash)
    (visited : List MerkleHash) :
    (unvisitedParents db visited commit).map (·.hash) =
      (parentsOf db base commit.hash).filter (· ∉ visited) := by
  rw [IsStored] at hs
  rw [unvisitedParents, parentsOf, if_neg hbase, hs]
  simp [List.filter_map, Function.comp_def]

theorem isStored_of_mem_unvisitedParents (hk : db.Keyed) {visited : List MerkleHash}
    {parent : CommitNode} (h : parent ∈ unvisitedParents db visited commit) :
    IsStored db parent := by
  obtain ⟨parentId, -, hparent⟩ := List.mem_filterMap.mp (List.mem_of_mem_filter h)
  exact isStored_of_getByHash hk hparent

/-! ## The heap -/

/-- A heap of stored commits, in the order they are popped. -/
structure IsHeap (db : NodeStore) (heap : List CommitNode) : Prop where
  stored : ∀ commit ∈ heap, IsStored db commit
  sorted : heap.Pairwise fun a b => rank b ≤ rank a

theorem perm_heapPush (heap : List CommitNode) (commit : CommitNode) :
    (heapPush heap commit).Perm (commit :: heap) :=
  List.perm_orderedInsert _ _ _

theorem IsHeap.push {heap : List CommitNode} (h : IsHeap db heap) (hs : IsStored db commit) :
    IsHeap db (heapPush heap commit) where
  stored := by
    intro c hc
    rcases List.mem_cons.mp ((perm_heapPush heap commit).mem_iff.mp hc) with rfl | hc
    · exact hs
    · exact h.stored c hc
  sorted := by
    have htotal : Std.Total fun a b : CommitNode => rank b ≤ rank a :=
      ⟨fun a b => le_total (rank b) (rank a)⟩
    have htrans : IsTrans CommitNode fun a b => rank b ≤ rank a :=
      ⟨fun _ _ _ hab hbc => hbc.trans hab⟩
    exact h.sorted.orderedInsert commit heap

theorem IsHeap.pushAll {heap commits : List CommitNode} (h : IsHeap db heap)
    (hs : ∀ c ∈ commits, IsStored db c) : IsHeap db (commits.foldl heapPush heap) := by
  induction commits generalizing heap with
  | nil => exact h
  | cons c cs ih =>
      rw [List.forall_mem_cons] at hs
      exact ih (h.push hs.1) hs.2

theorem perm_pushAll (heap commits : List CommitNode) :
    (commits.foldl heapPush heap).Perm (commits ++ heap) := by
  induction commits generalizing heap with
  | nil => exact .refl _
  | cons c cs ih =>
      have hperm := (ih (heapPush heap c)).trans ((perm_heapPush heap c).append_left cs)
      exact hperm.trans List.perm_middle

/-! ## Invariant of a traversal -/

/-- The heap holds the fringe of the visited commits. -/
structure Traversing (db : NodeStore) (base : Option MerkleHash) (head : MerkleHash)
    (heap : List CommitNode) (visited : List MerkleHash) : Prop where
  isHeap : IsHeap db heap
  holds : Holds (parentsOf db base) head visited (heap.map (·.hash))
  explored : Explored (parentsOf db base) head visited

variable {heap : List CommitNode} {visited : List MerkleHash}

theorem Traversing.start (hs : IsStored db commit) :
    Traversing db base commit.hash [commit] [] where
  isHeap := ⟨by simpa using hs, by simp⟩
  holds := Holds.start
  explored := .nil

theorem IsHeap.tail (h : IsHeap db (commit :: heap)) : IsHeap db heap :=
  ⟨fun c hc => h.stored c (List.mem_cons_of_mem _ hc), (List.pairwise_cons.mp h.sorted).2⟩

theorem Traversing.skip (h : Traversing db base head (commit :: heap) visited)
    (hv : commit.hash ∈ visited) : Traversing db base head heap visited where
  isHeap := h.isHeap.tail
  holds := h.holds.skip hv
  explored := h.explored

theorem Traversing.fringe (h : Traversing db base head (commit :: heap) visited)
    (hv : commit.hash ∉ visited) : Fringe (parentsOf db base) head visited commit.hash :=
  h.holds.fringe_iff.mpr ⟨hv, by simp⟩

/-- The commit on top of the heap is the newest of the fringe. -/
theorem Traversing.newest (h : Traversing db base head (commit :: heap) visited)
    {y : MerkleHash} (hy : Fringe (parentsOf db base) head visited y) :
    rankOf db y ≤ rankOf db commit.hash := by
  obtain ⟨c, hc, rfl⟩ := List.mem_map.mp (h.holds.fringe_iff.mp hy).2
  rw [(h.isHeap.stored c hc).rank_eq, (h.isHeap.stored commit (by simp)).rank_eq]
  rcases List.mem_cons.mp hc with rfl | hc
  · exact le_refl _
  · exact (List.pairwise_cons.mp h.isHeap.sorted).1 c hc

theorem Traversing.done (h : Traversing db base head [] visited) (y : MerkleHash) :
    ¬ Fringe (parentsOf db base) head visited y := by
  intro hy
  simpa using (h.holds.fringe_iff.mp hy).2

theorem Traversing.visitBase (h : Traversing db base head (commit :: heap) visited)
    (hv : commit.hash ∉ visited) (hbase : base = some commit.hash) :
    Traversing db base head heap (commit.hash :: visited) where
  isHeap := h.isHeap.tail
  holds := h.holds.visit fun y => by simp [parentsOf, hbase]
  explored := h.explored.cons (h.fringe hv)

/-- Whatever order the parents are added in, the worklist holds the new fringe. -/
theorem Holds.visitParents {pending : List CommitNode}
    (hh : Holds (parentsOf db base) head visited (commit.hash :: heap.map (·.hash)))
    (hs : IsStored db commit) (hbase : base ≠ some commit.hash)
    (hperm : pending.Perm (unvisitedParents db (commit.hash :: visited) commit ++ heap)) :
    Holds (parentsOf db base) head (commit.hash :: visited) (pending.map (·.hash)) := by
  apply hh.visit
  intro y
  rw [(hperm.map _).mem_iff, List.map_append, List.mem_append, map_hash_unvisitedParents hs hbase,
    List.mem_filter]
  simp

theorem Traversing.visitParents (hk : db.Keyed)
    (h : Traversing db base head (commit :: heap) visited) (hv : commit.hash ∉ visited)
    (hbase : base ≠ some commit.hash) :
    Traversing db base head
      ((unvisitedParents db (commit.hash :: visited) commit).foldl heapPush heap)
      (commit.hash :: visited) where
  isHeap := h.isHeap.tail.pushAll fun c hc => isStored_of_mem_unvisitedParents hk hc
  holds := Holds.visitParents h.holds (h.isHeap.stored commit (by simp)) hbase (perm_pushAll _ _)
  explored := h.explored.cons (h.fringe hv)

theorem length_unvisitedParents (hs : IsStored db commit) (hbase : base ≠ some commit.hash)
    (visited : List MerkleHash) :
    (unvisitedParents db visited commit).length ≤ (parentsOf db base commit.hash).length := by
  have hlen := congrArg List.length (map_hash_unvisitedParents hs hbase visited)
  have hle := List.length_filter_le (· ∉ visited) (parentsOf db base commit.hash)
  rw [List.length_map] at hlen
  omega

theorem remaining_visitParents (hs : IsStored db commit) (hv : commit.hash ∉ visited)
    (hbase : base ≠ some commit.hash) {pending : List CommitNode}
    (hperm : pending.Perm (unvisitedParents db (commit.hash :: visited) commit ++ heap)) :
    remaining (parentsOf db base) (commit.hash :: visited) (pending.map (·.hash)) <
      remaining (parentsOf db base) visited (commit.hash :: heap.map (·.hash)) := by
  apply remaining_visit hv
  have hle := length_unvisitedParents hs hbase (commit.hash :: visited)
  rw [List.length_map, List.length_map, hperm.length_eq, List.length_append]
  omega

theorem remaining_visitBase (db : NodeStore) (base : Option MerkleHash)
    (hv : commit.hash ∉ visited) (heap : List CommitNode) :
    remaining (parentsOf db base) (commit.hash :: visited) (heap.map (·.hash)) <
      remaining (parentsOf db base) visited (commit.hash :: heap.map (·.hash)) :=
  remaining_visit hv (by omega)

/-! ## Collecting a window -/

/-- The part of a window that is still ahead at position `count`. -/
def window {α : Type*} (skip limit count : ℕ) (xs : List α) : List α :=
  (xs.take (skip + limit - count)).drop (skip - count)

theorem window_nil {α : Type*} (skip limit count : ℕ) :
    window skip limit count ([] : List α) = [] := by
  simp [window]

theorem window_cons {α : Type*} (skip limit count : ℕ) (x : α) (xs : List α) :
    window skip limit count (x :: xs) =
      (if skip ≤ count ∧ count < skip + limit then [x] else []) ++
        window skip limit (count + 1) xs := by
  by_cases hend : count < skip + limit
  · have htake : skip + limit - count = (skip + limit - (count + 1)) + 1 := by omega
    by_cases hskip : skip ≤ count
    · have hdrop : skip - count = 0 ∧ skip - (count + 1) = 0 := by omega
      simp [window, htake, hdrop, hskip, hend]
    · have hdrop : skip - count = (skip - (count + 1)) + 1 := by omega
      simp [window, htake, hdrop, hskip]
  · have hzero : skip + limit - count = 0 ∧ skip + limit - (count + 1) = 0 := by omega
    simp [window, hzero, hend]

theorem window_of_le {α : Type*} {skip limit count : ℕ} (h : skip + limit ≤ count)
    (xs : List α) : window skip limit count xs = [] := by
  have hzero : skip + limit - count = 0 := by omega
  simp [window, hzero]

/-- The commits collected so far after one more commit was counted. -/
def collected (config : CommitTraversalConfig) (count : ℕ) (results : List CommitNode)
    (commit : CommitNode) : List CommitNode :=
  (Traversal.collect config { heap := [], count, results } commit).results

theorem collect_eq (heap : List CommitNode) (visited : List MerkleHash) (count : ℕ)
    (results : List CommitNode) :
    Traversal.collect config ⟨heap, visited, count, results⟩ commit =
      ⟨heap, visited, count + 1, collected config count results commit⟩ := rfl

theorem collected_append_window (hcollect : config.collectResults = true)
    (hs : IsStored db commit) (count : ℕ) (results : List CommitNode)
    (rest : List MerkleHash) :
    collected config count results commit ++
        (window config.skip config.limit (count + 1) rest).map (commitAt db) =
      results ++
        (window config.skip config.limit count (commit.hash :: rest)).map (commitAt db) := by
  rw [window_cons, collected, Traversal.collect]
  simp only [hcollect, true_and]
  split <;> simp [hs.commitAt_eq]

/-! ## One iteration -/

section Iteration

variable {fuel count : ℕ} {results : List CommitNode}

theorem traverseLoop_skip (hv : commit.hash ∈ visited) :
    traverseLoop db config (fuel + 1) ⟨commit :: heap, visited, count, results⟩ =
      traverseLoop db config fuel ⟨heap, visited, count, results⟩ := by
  simp [traverseLoop, hv]

theorem traverseLoop_base (hv : commit.hash ∉ visited)
    (hb : config.stopAtBase.map (·.hash) = some commit.hash) :
    traverseLoop db config (fuel + 1) ⟨commit :: heap, visited, count, results⟩ =
      traverseLoop db config fuel ⟨heap, commit.hash :: visited, count + 1,
        collected config count results commit⟩ := by
  simp [traverseLoop, hv, hb, collect_eq]

theorem traverseLoop_cached (hv : commit.hash ∉ visited)
    (hb : config.stopAtBase.map (·.hash) ≠ some commit.hash) (hc : isCached config commit = true)
    {visited' : List MerkleHash} {newlyVisited : ℕ}
    (hmark : markAncestorsVisited db fuel commit (commit.hash :: visited) =
      some (visited', newlyVisited)) :
    traverseLoop db config (fuel + 1) ⟨commit :: heap, visited, count, results⟩ =
      traverseLoop db config fuel ⟨heap, visited', count + (1 + newlyVisited), results⟩ := by
  simp [traverseLoop, hv, hb, hc, hmark]

theorem traverseLoop_full (hv : commit.hash ∉ visited)
    (hb : config.stopAtBase.map (·.hash) ≠ some commit.hash) (hc : isCached config commit = false)
    (hfull : config.knownTotalCount.isSome ∧ config.collectResults ∧
      config.skip + config.limit ≤ count + 1) :
    traverseLoop db config (fuel + 1) ⟨commit :: heap, visited, count, results⟩ =
      some ⟨heap, commit.hash :: visited, count + 1, collected config count results commit⟩ := by
  simp [traverseLoop, hv, hb, hc, collect_eq, hfull]

theorem traverseLoop_parents (hv : commit.hash ∉ visited)
    (hb : config.stopAtBase.map (·.hash) ≠ some commit.hash) (hc : isCached config commit = false)
    (hfull : ¬ (config.knownTotalCount.isSome ∧ config.collectResults ∧
      config.skip + config.limit ≤ count + 1)) :
    traverseLoop db config (fuel + 1) ⟨commit :: heap, visited, count, results⟩ =
      traverseLoop db config fuel
        ⟨(unvisitedParents db (commit.hash :: visited) commit).foldl heapPush heap,
          commit.hash :: visited, count + 1, collected config count results commit⟩ := by
  simp only [traverseLoop, collect_eq, if_neg hv, if_neg hb, hc, Bool.false_eq_true, if_false]
  exact if_neg hfull

end Iteration

/-! ## Whole traversals -/

/-- A traversal without cached counts collects a window of the history. -/
theorem traverseLoop_results (hk : db.Keyed) (hcache : config.cacheDb = none)
    (hcollect : config.collectResults = true)
    (hbase : config.stopAtBase.map (·.hash) = base) {fuel count : ℕ}
    {results : List CommitNode} {order : List MerkleHash}
    (ht : Traversing db base head heap visited)
    (horder : BestFirst (parentsOf db base) (rankOf db) head visited order)
    (hfuel : remaining (parentsOf db base) visited (heap.map (·.hash)) < fuel) :
    ∃ s', traverseLoop db config fuel ⟨heap, visited, count, results⟩ = some s' ∧
      s'.results = results ++
        (window config.skip config.limit count order).map (commitAt db) ∧
      (config.knownTotalCount = none → s'.count = count + order.length) := by
  induction fuel generalizing heap visited count results order with
  | zero => omega
  | succ fuel ih =>
      cases heap with
      | nil =>
          cases horder with
          | done => exact ⟨_, rfl, by simp [window_nil], by simp⟩
          | visit hx => exact absurd hx (ht.done _)
      | cons commit heap =>
          rw [List.map_cons] at hfuel
          by_cases hv : commit.hash ∈ visited
          · rw [remaining_skip] at hfuel
            rw [traverseLoop_skip hv]
            exact ih (ht.skip hv) horder (by omega)
          · cases horder with
            | done hdone => exact absurd (ht.fringe hv) (hdone _)
            | @visit _ rest x hx hbest hrest =>
                have hs : IsStored db commit := ht.isHeap.stored commit (by simp)
                obtain rfl : x = commit.hash :=
                  rankOf_injective (le_antisymm (ht.newest hx) (hbest _ (ht.fringe hv)))
                have hcached : isCached config commit = false := by simp [isCached, hcache]
                rw [← collected_append_window hcollect hs]
                have hlength : count + (commit.hash :: rest).length = count + 1 + rest.length := by
                  simp only [List.length_cons]
                  omega
                rw [hlength]
                by_cases hb : base = some commit.hash
                · have hlt := remaining_visitBase db base hv heap
                  rw [traverseLoop_base hv (hbase.trans hb)]
                  exact ih (ht.visitBase hv hb) hrest (by omega)
                · have hb' : config.stopAtBase.map (·.hash) ≠ some commit.hash := by rwa [hbase]
                  by_cases hfull : config.knownTotalCount.isSome ∧ config.collectResults ∧
                      config.skip + config.limit ≤ count + 1
                  · rw [traverseLoop_full hv hb' hcached hfull]
                    refine ⟨_, rfl, ?_, ?_⟩
                    · simp [window_of_le hfull.2.2]
                    · intro hn
                      simp [hn] at hfull
                  · have hlt := remaining_visitParents hs hv hb (perm_pushAll heap _)
                    rw [traverseLoop_parents hv hb' hcached hfull]
                    exact ih (ht.visitParents hk hv hb) hrest (by omega)

/-- Walking the ancestors of a commit leaves the fringe in the heap. -/
theorem markAncestorsLoop_spec (hk : db.Keyed) (newlyVisited : ℕ) {fuel : ℕ}
    {stack heap : List CommitNode} (hstack : ∀ c ∈ stack, IsStored db c)
    (hh : Holds (parentsOf db none) head visited ((stack ++ heap).map (·.hash)))
    (he : Explored (parentsOf db none) head visited)
    (hfuel : remaining (parentsOf db none) visited ((stack ++ heap).map (·.hash)) < fuel) :
    ∃ visited' newlyVisited',
      markAncestorsLoop db fuel stack visited newlyVisited = some (visited', newlyVisited') ∧
      Holds (parentsOf db none) head visited' (heap.map (·.hash)) ∧
      Explored (parentsOf db none) head visited' ∧
      newlyVisited' + visited.length = newlyVisited + visited'.length ∧
      remaining (parentsOf db none) visited' (heap.map (·.hash)) ≤
        remaining (parentsOf db none) visited ((stack ++ heap).map (·.hash)) := by
  induction fuel generalizing stack visited newlyVisited with
  | zero => omega
  | succ fuel ih =>
      cases stack with
      | nil => exact ⟨visited, newlyVisited, rfl, hh, he, rfl, le_refl _⟩
      | cons current stack =>
          obtain ⟨hs, hrest⟩ := List.forall_mem_cons.mp hstack
          rw [List.cons_append, List.map_cons] at hh hfuel
          rw [markAncestorsLoop, List.cons_append, List.map_cons]
          by_cases hv : current.hash ∈ visited
          · rw [remaining_skip] at hfuel
            rw [if_pos hv, remaining_skip]
            obtain ⟨visited', newlyVisited', hrun, hh', he', hcount, hle⟩ :=
              ih newlyVisited hrest (hh.skip hv) he (by omega)
            exact ⟨visited', newlyVisited', hrun, hh', he', hcount, by omega⟩
          · rw [if_neg hv]
            have hnone : (none : Option MerkleHash) ≠ some current.hash := by simp
            have hperm : (((unvisitedParents db (current.hash :: visited) current).reverse ++ stack)
                ++ heap).Perm
                (unvisitedParents db (current.hash :: visited) current ++ (stack ++ heap)) := by
              rw [List.append_assoc]
              exact (List.reverse_perm _).append_right _
            have hlt := remaining_visitParents hs hv hnone hperm
            have hfringe : Fringe (parentsOf db none) head visited current.hash :=
              hh.fringe_iff.mpr ⟨hv, by simp⟩
            have hholds := Holds.visitParents hh hs hnone hperm
            have hstored : ∀ c ∈ (unvisitedParents db (current.hash :: visited) current).reverse
                ++ stack, IsStored db c := by
              intro c hc
              rcases List.mem_append.mp hc with hc | hc
              · exact isStored_of_mem_unvisitedParents hk (List.mem_reverse.mp hc)
              · exact hrest c hc
            obtain ⟨visited', newlyVisited', hrun, hh', he', hcount, hle⟩ :=
              ih (newlyVisited + 1) hstored hholds (he.cons hfringe) (by omega)
            refine ⟨visited', newlyVisited', hrun, hh', he', ?_, by omega⟩
            rw [List.length_cons] at hcount
            omega

/-- A traversal to the end counts every commit it visits once, whichever counts
are cached. -/
theorem traverseLoop_count (hk : db.Keyed) (hbase : config.stopAtBase = none)
    (htotal : config.knownTotalCount = none) {fuel : ℕ} (count : ℕ) (results : List CommitNode)
    (ht : Traversing db none head heap visited)
    (hfuel : remaining (parentsOf db none) visited (heap.map (·.hash)) < fuel) :
    ∃ s', traverseLoop db config fuel ⟨heap, visited, count, results⟩ = some s' ∧
      Explored (parentsOf db none) head s'.visited ∧
      (∀ y, ¬ Fringe (parentsOf db none) head s'.visited y) ∧
      s'.count + visited.length = count + s'.visited.length := by
  induction fuel generalizing heap visited count results with
  | zero => omega
  | succ fuel ih =>
      cases heap with
      | nil => exact ⟨_, rfl, ht.explored, ht.done, rfl⟩
      | cons commit heap =>
          have hs : IsStored db commit := ht.isHeap.stored commit (by simp)
          have hb : config.stopAtBase.map (·.hash) ≠ some commit.hash := by simp [hbase]
          have hnone : (none : Option MerkleHash) ≠ some commit.hash := by simp
          have hholds := ht.holds
          rw [List.map_cons] at hfuel hholds
          by_cases hv : commit.hash ∈ visited
          · rw [remaining_skip] at hfuel
            rw [traverseLoop_skip hv]
            exact ih count results (ht.skip hv) (by omega)
          · by_cases hc : isCached config commit = true
            · -- The depth-first walk takes over the parents; the rest of the fringe is in the heap.
              have hperm := (List.reverse_perm
                (unvisitedParents db (commit.hash :: visited) commit)).append_right heap
              have hlt := remaining_visitParents hs hv hnone hperm
              obtain ⟨visited', newlyVisited, hmark, hh', he', hnew, hle⟩ :=
                markAncestorsLoop_spec hk 0
                  (fun c hc => isStored_of_mem_unvisitedParents hk (List.mem_reverse.mp hc))
                  (Holds.visitParents hholds hs hnone hperm)
                  (ht.explored.cons (ht.fringe hv)) (hlt.trans_le (Nat.le_of_lt_succ hfuel))
              rw [traverseLoop_cached hv hb hc hmark]
              obtain ⟨s', hrun, he', hdone, hcount⟩ := ih (count + (1 + newlyVisited)) results
                ⟨ht.isHeap.tail, hh', he'⟩ (by omega)
              refine ⟨s', hrun, he', hdone, ?_⟩
              rw [List.length_cons] at hnew
              omega
            · have hlt := remaining_visitParents hs hv hnone (perm_pushAll heap _)
              rw [Bool.not_eq_true] at hc
              rw [traverseLoop_parents hv hb hc (by simp [htotal])]
              obtain ⟨s', hrun, he', hdone, hcount⟩ := ih (count + 1)
                (collected config count results commit) (ht.visitParents hk hv hnone) (by omega)
              refine ⟨s', hrun, he', hdone, ?_⟩
              rw [List.length_cons] at hcount
              omega

/-! ## The history of a commit -/

theorem history_exists (db : NodeStore) (base : Option MerkleHash) (head : MerkleHash) :
    ∃ order, History db base head order :=
  BestFirst.exists _ _ _ .nil

/-- The history of a commit, newest first. -/
noncomputable def historyOrder (db : NodeStore) (base : Option MerkleHash) (head : MerkleHash) :
    List MerkleHash :=
  (history_exists db base head).choose

theorem historyOrder_spec (db : NodeStore) (base : Option MerkleHash) (head : MerkleHash) :
    History db base head (historyOrder db base head) :=
  (history_exists db base head).choose_spec

noncomputable def fullHistory (db : NodeStore) (base : Option MerkleHash) (head : CommitNode) :
    List CommitNode :=
  (historyOrder db base head.hash).map (commitAt db)

/-- Enough fuel for every traversal from a commit. -/
noncomputable def traversalFuel (db : NodeStore) (base : Option MerkleHash) (head : MerkleHash) :
    ℕ :=
  remaining (parentsOf db base) [] [head] + 1

/-- A traversal that collects returns a window of the history, with or without an
early exit. -/
theorem listRecursivePaginated_returns (hk : db.Keyed) (hs : IsStored db commit)
    (skip limit : ℕ) (stopAtBase : Option CommitNode) (known : Option ℕ) :
    Returns (fun fuel => listRecursivePaginated db fuel commit skip limit stopAtBase known)
      (((fullHistory db (stopAtBase.map (·.hash)) commit).take (skip + limit)).drop skip,
        known.getD (fullHistory db (stopAtBase.map (·.hash)) commit).length) := by
  let config : CommitTraversalConfig :=
    { headCommit := commit, stopAtBase, skip, limit, knownTotalCount := known,
      collectResults := true }
  generalize hbase : stopAtBase.map (·.hash) = base
  refine ⟨traversalFuel db base commit.hash, fun fuel hfuel => ?_⟩
  rw [traversalFuel] at hfuel
  obtain ⟨s', hrun, hresults, hcount⟩ :=
    @traverseLoop_results db base config commit.hash [commit] [] hk rfl rfl hbase fuel 0 [] _
      (.start hs) (historyOrder_spec db base commit.hash) hfuel
  have htotal : known.getD s'.count = known.getD (fullHistory db base commit).length := by
    cases known with
    | none => simpa [fullHistory] using hcount rfl
    | some total => rfl
  have hloop : traverseLoop db config fuel { heap := [commit] } = some s' := hrun
  simp only [listRecursivePaginated, traverseCommits, config] at hloop ⊢
  rw [hloop, Option.map_some, htotal, hresults]
  simp [window, config, fullHistory]

/-! ## More fuel -/

theorem markAncestorsLoop_mono {fuel fuel' : ℕ} {stack : List CommitNode}
    {visited : List MerkleHash} {newlyVisited : ℕ} {r : List MerkleHash × ℕ}
    (h : markAncestorsLoop db fuel stack visited newlyVisited = some r) (hle : fuel ≤ fuel') :
    markAncestorsLoop db fuel' stack visited newlyVisited = some r := by
  induction fuel generalizing fuel' stack visited newlyVisited with
  | zero => cases h
  | succ fuel ih =>
      obtain ⟨fuel', rfl⟩ := Nat.exists_eq_add_of_le' (Nat.le_trans (Nat.le_add_left 1 fuel) hle)
      cases stack with
      | nil => exact h
      | cons current stack =>
          rw [markAncestorsLoop] at h ⊢
          split at h
          · next hv =>
            rw [if_pos hv]
            exact ih h (by omega)
          · next hv =>
            rw [if_neg hv]
            exact ih h (by omega)

theorem traverseLoop_mono {fuel fuel' : ℕ} {s r : Traversal}
    (h : traverseLoop db config fuel s = some r) (hle : fuel ≤ fuel') :
    traverseLoop db config fuel' s = some r := by
  induction fuel generalizing fuel' s with
  | zero => cases h
  | succ fuel ih =>
      obtain ⟨fuel', rfl⟩ := Nat.exists_eq_add_of_le' (Nat.le_trans (Nat.le_add_left 1 fuel) hle)
      have hle' : fuel ≤ fuel' := by omega
      rw [traverseLoop] at h ⊢
      split at h
      · exact h
      · next commit heap hheap =>
        simp only at h ⊢
        split at h
        · next hv =>
          rw [if_pos hv]
          exact ih h hle'
        · next hv =>
          rw [if_neg hv]
          split at h
          · next hbase =>
            rw [if_pos hbase]
            exact ih h hle'
          · next hbase =>
            rw [if_neg hbase]
            split at h
            · next hcached =>
              rw [if_pos hcached]
              split at h
              · cases h
              · next visited newlyVisited hmark =>
                rw [markAncestorsVisited] at hmark ⊢
                rw [markAncestorsLoop_mono hmark hle']
                exact ih h hle'
            · next hcached =>
              rw [if_neg hcached]
              split at h
              · next hfull =>
                rw [if_pos hfull]
                exact h
              · next hfull =>
                rw [if_neg hfull]
                exact ih h hle'

theorem traverseCommits_mono {fuel fuel' : ℕ} {r : List CommitNode × ℕ}
    (h : traverseCommits db fuel config = some r) (hle : fuel ≤ fuel') :
    traverseCommits db fuel' config = some r := by
  rw [traverseCommits, Option.map_eq_some_iff] at h ⊢
  obtain ⟨s, hs, hr⟩ := h
  exact ⟨s, traverseLoop_mono hs hle, hr⟩

end Commits

open Commits

/-! ## What commit ids reach -/

/-- The commits that a commit with this id has in its history. -/
def HistoryOf (db : NodeStore) (commitId : String) : Set MerkleHash :=
  {id | ∃ commit, getById db commitId = some commit ∧ Reaches (parentsOf db none) commit.hash id}

theorem isSome_of_parents {db : NodeStore} {x y : MerkleHash} (hk : db.Keyed)
    (h : y ∈ parentsOf db none x) : ∃ commit, getByHash db y = some commit ∧ commit.hash = y := by
  simp only [parentsOf, reduceCtorEq, if_false, List.mem_map, List.mem_flatMap,
    List.mem_filterMap] at h
  rcases h with ⟨commit, ⟨_, _, id, _, hg⟩, rfl⟩
  have hid := hk id commit hg
  exact ⟨commit, by rw [hid, hg], rfl⟩

/-- The history of a stored commit consists of stored commits, no more than there are nodes. -/
theorem isStored_of_reaches_parents {db : NodeStore} (hk : db.Keyed) {commit : CommitNode}
    (hs : IsStored db commit) {id : MerkleHash} (h : Reaches (parentsOf db none) commit.hash id) :
    ∃ c, getByHash db id = some c ∧ c.hash = id := by
  rcases Relation.ReflTransGen.cases_tail h with rfl | ⟨x, _, hx⟩
  · exact ⟨commit, hs, rfl⟩
  · exact isSome_of_parents hk hx

end Oxen
