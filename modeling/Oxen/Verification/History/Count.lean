import Mathlib.Data.Set.Card
import Oxen.Verification.History.Traversal

/-! Cached commit counts stay exact while commits are added. -/

namespace Oxen

open Exploration Fuel

namespace Commits

variable {db : NodeStore} {refs : Refs} {cache : CountDb} {commit : CommitNode}
  {revision : String} {id : MerkleHash}

/-- The number of commits that a commit reaches, itself included. -/
noncomputable def historySize (db : NodeStore) (id : MerkleHash) : ℕ :=
  {x | Reaches (parentsOf db none) id x}.ncard

theorem Explored.length_eq {visited : List MerkleHash}
    (he : Explored (parentsOf db none) id visited)
    (hdone : ∀ y, ¬ Fringe (parentsOf db none) id visited y) :
    visited.length = historySize db id := by
  have hset : {x | Reaches (parentsOf db none) id x} = (visited.toFinset : Set MerkleHash) := by
    ext x
    simpa using (he.mem_iff (x := x) hdone).symm
  rw [historySize, hset, Set.ncard_coe_finset, List.toFinset_card_of_nodup he.nodup]

theorem History.length_eq {order : List MerkleHash} (h : History db none id order) :
    order.length = historySize db id := by
  obtain ⟨he, hdone⟩ := BestFirst.explored h .nil
  simpa using Explored.length_eq he hdone

/-- Every cached count is the size of a stored commit's history. -/
def CountsExact (db : NodeStore) (cache : CountDb) : Prop :=
  ∀ id count, cache.lookup id = some count →
    (getByHash db id).isSome ∧ count = historySize db id

theorem CountsExact.empty (db : NodeStore) : CountsExact db ∅ := by
  intro id count h
  simp at h

theorem CountsExact.insert (h : CountsExact db cache) (hs : IsStored db commit) :
    CountsExact db (cache.insert commit.hash (historySize db commit.hash)) := by
  intro id count hid
  by_cases hne : id = commit.hash
  · subst hne
    rw [AList.lookup_insert] at hid
    rw [IsStored] at hs
    exact ⟨by simp [hs], (Option.some.inj hid).symm⟩
  · rw [AList.lookup_insert_ne hne] at hid
    exact h id count hid

theorem isStored_of_headCommit (hk : db.Keyed) (h : headCommit db refs = .ok commit) :
    IsStored db commit := by
  rw [headCommit] at h
  split at h
  · simp at h
  · split at h
    · simp at h
    · split at h
      · simp at h
      · next hget =>
        obtain rfl := Except.ok.inj h
        exact isStored_of_getByHash hk hget

theorem isStored_of_get (hk : db.Keyed)
    (h : Revisions.get db refs revision = .ok (some commit)) : IsStored db commit := by
  rw [Revisions.get] at h
  split at h
  · rcases hhead : headCommit db refs with e | c
    · simp [hhead, Except.map] at h
    · obtain rfl : c = commit := by simpa [hhead, Except.map] using h
      exact isStored_of_headCommit hk hhead
  · rw [Except.ok.injEq, getById] at h
    obtain ⟨hash, -, hget⟩ := Option.bind_eq_some_iff.mp h
    exact isStored_of_getByHash hk hget

/-! ## One call -/

/-- What a call of `countFrom` returns, and the cache it leaves. -/
noncomputable def countResult (db : NodeStore) (refs : Refs) (cache : CountDb)
    (revision : String) : Except RevisionError (ℕ × Bool) × CountDb :=
  match Revisions.get db refs revision with
  | .error e => (.error e, cache)
  | .ok none => (.error (.revisionNotFound revision), cache)
  | .ok (some commit) =>
      match cache.lookup commit.hash with
      | some count => (.ok (count, true), cache)
      | none =>
          (.ok (historySize db commit.hash, false),
            cache.insert commit.hash (historySize db commit.hash))

/-- Whichever counts are cached, a traversal counts the whole history. -/
theorem traverseCommits_count (hk : db.Keyed) (hs : IsStored db commit) (cache : CountDb) :
    Returns (fun fuel => (traverseCommits db fuel
      { headCommit := commit, skip := 0, limit := usizeMax, cacheDb := some cache,
        collectResults := false }).map Prod.snd) (historySize db commit.hash) := by
  refine ⟨traversalFuel db none commit.hash, fun fuel hfuel => ?_⟩
  rw [traversalFuel] at hfuel
  obtain ⟨s', hrun, he, hdone, hcount⟩ := @traverseLoop_count db
    { headCommit := commit, skip := 0, limit := usizeMax, cacheDb := some cache,
      collectResults := false } commit.hash [commit] [] hk rfl rfl fuel 0 [] (.start hs) hfuel
  rw [Explored.length_eq he hdone] at hcount
  simp only [traverseCommits, hrun, Option.map_some, Option.getD_none]
  simpa using hcount

theorem countFrom_returns (hk : db.Keyed) (refs : Refs) (cache : CountDb) (revision : String) :
    Returns (fun fuel => countFrom db refs fuel cache revision)
      (countResult db refs cache revision) := by
  rcases hget : Revisions.get db refs revision with e | found
  · simp only [countFrom, countResult, hget]
    exact .pure _
  · cases found with
    | none =>
        simp only [countFrom, countResult, hget]
        exact .pure _
    | some commit =>
        cases hcached : cache.lookup commit.hash with
        | some count =>
            simp only [countFrom, countResult, hget, hcached]
            exact .pure _
        | none =>
            have htraverse := (traverseCommits_count hk (isStored_of_get hk hget) cache).map
              fun count => ((.ok (count, false), cache.insert commit.hash count) :
                Except RevisionError (ℕ × Bool) × CountDb)
            simp only [countFrom, countResult, hget, hcached]
            simpa [Option.map_map, Function.comp_def] using htraverse

/-- A call leaves the cache exact. -/
theorem CountsExact.countResult (hk : db.Keyed) (h : CountsExact db cache) :
    CountsExact db (countResult db refs cache revision).2 := by
  rw [Commits.countResult]
  split
  · exact h
  · exact h
  · next commit hget =>
    split
    · exact h
    · exact h.insert (isStored_of_get hk hget)

/-! ## Growth -/

theorem getByHash_write {record : NodeDb} (hnode : record.node = .commit commit)
    (id : MerkleHash) :
    getByHash (db.write record) id = if id = commit.hash then some commit else getByHash db id := by
  obtain ⟨node, parentId, children⟩ := record
  obtain rfl : node = .commit commit := hnode
  by_cases hid : id = commit.hash
  · subst hid
    simp [getByHash, NodeStore.write]
  · simp [getByHash, NodeStore.write, hid]

theorem Keyed.write (hk : db.Keyed) {record : NodeDb} (hnode : record.node = .commit commit) :
    (db.write record).Keyed := by
  intro id c hget
  rw [getByHash_write hnode] at hget
  split at hget
  · next hid =>
    obtain rfl := Option.some.inj hget
    exact hid.symm
  · exact hk id c hget

/-- Everything a commit reaches is stored, apart from the commit itself. -/
theorem isSome_of_mem_parentsOf (hk : db.Keyed) {base : Option MerkleHash} {parent : MerkleHash}
    (h : parent ∈ parentsOf db base id) : (getByHash db parent).isSome := by
  rw [parentsOf] at h
  split at h
  · simp at h
  · obtain ⟨c, hc, rfl⟩ := List.mem_map.mp h
    obtain ⟨child, -, hc⟩ := List.mem_flatMap.mp hc
    obtain ⟨parentId, -, hget⟩ := List.mem_filterMap.mp hc
    rw [hk parentId c hget, hget, Option.isSome_some]

theorem mem_parentsOf_iff (hk : db.Keyed) {parentId : MerkleHash} :
    parentId ∈ parentsOf db none id ↔
      ∃ commit, getByHash db id = some commit ∧ parentId ∈ commit.parentIds ∧
        (getByHash db parentId).isSome := by
  cases hget : getByHash db id with
  | none => simp [parentsOf, hget]
  | some commit =>
      simp only [parentsOf, reduceCtorEq, if_false, hget, Option.toList_some, List.flatMap_singleton,
        List.mem_map, List.mem_filterMap, Option.some.injEq, exists_eq_left']
      constructor
      · rintro ⟨parent, ⟨id', hid', hparent⟩, rfl⟩
        rw [hk id' parent hparent]
        exact ⟨hid', by rw [hparent, Option.isSome_some]⟩
      · rintro ⟨hmem, hsome⟩
        obtain ⟨parent, hparent⟩ := Option.isSome_iff_exists.mp hsome
        exact ⟨parent, ⟨parentId, hmem, hparent⟩, hk parentId parent hparent⟩

/-- The record of a commit that was not stored before. -/
structure NewCommit (db : NodeStore) (record : NodeDb) (commit : CommitNode) : Prop where
  node : record.node = .commit commit
  fresh : getByHash db commit.hash = none

/-- The commit reaches one that names this parent. -/
def Names (db : NodeStore) (id parentId : MerkleHash) : Prop :=
  ∃ child commit, Reaches (parentsOf db none) id child ∧ getByHash db child = some commit ∧
    parentId ∈ commit.parentIds

theorem isSome_of_reaches_id (hk : db.Keyed) {base : Option MerkleHash} {x : MerkleHash}
    (hid : (getByHash db id).isSome) (h : Reaches (parentsOf db base) id x) :
    (getByHash db x).isSome := by
  induction h with
  | refl => exact hid
  | tail _ hstep _ => exact isSome_of_mem_parentsOf hk hstep

section Growth

variable {record : NodeDb} (h : NewCommit db record commit) (hk : db.Keyed)

include h hk

/-- A stored commit gets no parents but the new one, where it names it. -/
theorem NewCommit.mem_parentsOf_iff {x y : MerkleHash} (hx : (getByHash db x).isSome) :
    y ∈ parentsOf (db.write record) none x ↔ y ∈ parentsOf db none x ∨
      y = commit.hash ∧ ∃ child, getByHash db x = some child ∧ commit.hash ∈ child.parentIds := by
  have hne : x ≠ commit.hash := by
    rintro rfl
    simp [h.fresh] at hx
  rw [Commits.mem_parentsOf_iff (Keyed.write hk h.node), Commits.mem_parentsOf_iff hk,
    getByHash_write h.node, getByHash_write h.node, if_neg hne]
  by_cases hy : y = commit.hash
  · simp [hy, h.fresh]
  · simp [hy]

theorem NewCommit.reaches {x : MerkleHash} (hid : (getByHash db id).isSome)
    (hr : Reaches (parentsOf db none) id x) : Reaches (parentsOf (db.write record) none) id x := by
  induction hr with
  | refl => exact .refl
  | tail hr hstep ih =>
      have hx := isSome_of_reaches_id hk hid hr
      exact ih.tail ((h.mem_parentsOf_iff hk hx).mpr (.inl hstep))

/-- A new commit changes no history in which nothing names it. -/
theorem NewCommit.reaches_iff (hid : (getByHash db id).isSome)
    (hnames : ¬ Names db id commit.hash) (x : MerkleHash) :
    Reaches (parentsOf (db.write record) none) id x ↔ Reaches (parentsOf db none) id x := by
  refine ⟨fun hr => ?_, h.reaches hk hid⟩
  induction hr with
  | refl => exact .refl
  | @tail x y _ hstep ih =>
      rcases (h.mem_parentsOf_iff hk (isSome_of_reaches_id hk hid ih)).mp hstep with
        hstep | ⟨-, child, hchild, hmem⟩
      · exact ih.tail hstep
      · exact absurd ⟨x, child, ih, hchild, hmem⟩ hnames

theorem NewCommit.historySize_eq (hid : (getByHash db id).isSome)
    (hnames : ¬ Names db id commit.hash) :
    historySize (db.write record) id = historySize db id := by
  rw [historySize, historySize]
  congr 1
  ext x
  exact h.reaches_iff hk hid hnames x

/-- A history in which the new commit was missing grows by it. -/
theorem NewCommit.historySize_lt (hid : (getByHash db id).isSome)
    (hnames : Names db id commit.hash) :
    historySize db id < historySize (db.write record) id := by
  rcases hnames with ⟨x, child, hx, hchild, hmem⟩
  have hnew : Reaches (parentsOf (db.write record) none) id commit.hash := by
    refine (h.reaches hk hid hx).tail ?_
    exact (h.mem_parentsOf_iff hk (isSome_of_reaches_id hk hid hx)).mpr
      (.inr ⟨rfl, child, hchild, hmem⟩)
  refine Set.ncard_lt_ncard ⟨fun y hy => h.reaches hk hid hy, fun hsubset => ?_⟩ (Set.toFinite _)
  have hstored := isSome_of_reaches_id hk hid (hsubset hnew)
  simp [h.fresh] at hstored

theorem NewCommit.countsExact (hc : CountsExact db cache)
    (hnames : ∀ id count, cache.lookup id = some count → ¬ Names db id commit.hash) :
    CountsExact (db.write record) cache := by
  intro id count hcached
  obtain ⟨hsome, hcount⟩ := hc id count hcached
  refine ⟨?_, hcount.trans (h.historySize_eq hk hsome (hnames id count hcached)).symm⟩
  rw [getByHash_write h.node]
  split
  · rfl
  · exact hsome

end Growth

end Commits

end Oxen
