import Oxen.Model.Pull
import Oxen.Verification.Server.Updates

/-! The commits that branches and HEAD have in their histories, and what becomes of
them when branches are set. -/

namespace Oxen

open Commits Exploration KeyedMap

variable {s s' : Repository} {db db' : NodeStore} {x y : MerkleHash} {name commitId : String}

/-! ## Histories -/

theorem historyOf_mono (h : KeepsCommits db db') (hk : db.Keyed) (hk' : db'.Keyed) :
    HistoryOf db commitId ⊆ HistoryOf db' commitId := by
  rintro id ⟨commit, hget, hr⟩
  rw [getById, Option.bind_eq_some_iff] at hget
  rcases hget with ⟨hash, hparse, hget⟩
  rcases h hash commit hget with ⟨commit', hget', -⟩
  refine ⟨commit', ?_, ?_⟩
  · rw [getById, hparse, Option.bind_some, hget']
  · rw [hk' hash commit' hget', ← hk hash commit hget]
    exact h.reaches hk hk' hr

theorem historyOf_closed (h : x ∈ HistoryOf db commitId) (hr : Reaches (parentsOf db none) x y) :
    y ∈ HistoryOf db commitId := by
  rcases h with ⟨commit, hget, hr'⟩
  exact ⟨commit, hget, hr'.trans hr⟩

theorem isSome_of_mem_historyOf (hk : db.Keyed) (h : x ∈ HistoryOf db commitId) :
    (getByHash db x).isSome := by
  rcases h with ⟨commit, hget, hr⟩
  rw [getById, Option.bind_eq_some_iff] at hget
  rcases hget with ⟨hash, -, hget⟩
  rcases isStored_of_reaches_parents hk (isStored_of_getByHash hk hget) hr with ⟨c, hc, -⟩
  rw [hc, Option.isSome_some]

/-! ## Unpacked nodes -/

theorem getByHash_update (record : NodeDb) (hash id : MerkleHash) :
    getByHash (Function.update db hash (some record)) id =
      if id = hash then record.node.commit? else getByHash db id := by
  by_cases hid : id = hash
  · simp [getByHash_eq, hid]
  · simp [getByHash_eq, hid]

theorem KeepsCommits.refl : KeepsCommits db db :=
  fun _ commit hget => ⟨commit, hget, rfl⟩

theorem unpackNodes_keeps {archive : TreeNodes.Archive} (hk : db.Keyed)
    (harchive : ∀ entry ∈ archive, entry.2.node.hash = entry.1) :
    KeepsCommits db (TreeNodes.unpackNodes db archive) ∧
      (TreeNodes.unpackNodes db archive).Keyed := by
  induction archive generalizing db with
  | nil => exact ⟨.refl, hk⟩
  | cons entry archive ih =>
      rcases entry with ⟨hash, record⟩
      have hrest := fun entry hmem => harchive entry (List.mem_cons_of_mem _ hmem)
      rw [TreeNodes.unpackNodes, List.foldl_cons, ← TreeNodes.unpackNodes]
      dsimp only
      split
      · exact ih hk hrest
      · next hnew =>
        have hstored : ∀ id commit, getByHash db id = some commit →
            getByHash (Function.update db hash (some record)) id = some commit := by
          intro id commit hget
          have hid : id ≠ hash := by
            rintro rfl
            apply hnew
            rw [getByHash_eq, Option.bind_eq_some_iff] at hget
            rcases hget with ⟨record', hrecord, -⟩
            rw [hrecord, Option.isSome_some]
          rw [getByHash_update, if_neg hid, hget]
        have hkeyed : NodeStore.Keyed (Function.update db hash (some record)) := by
          intro id commit hget
          rw [getByHash_update] at hget
          split at hget
          · next hid =>
            have hhash := harchive (hash, record) List.mem_cons_self
            cases hnode : record.node with
            | commit c =>
                rw [hnode] at hget hhash
                rw [hid, ← Option.some.inj hget]
                exact hhash
            | _ => rw [hnode] at hget; cases hget
          · exact hk id commit hget
        rcases ih hkeyed hrest with ⟨hkeeps, hkeyed'⟩
        refine ⟨?_, hkeyed'⟩
        exact KeepsCommits.trans (fun id commit hget => ⟨commit, hstored id commit hget, rfl⟩) hkeeps

/-! ## Branches and HEAD -/

/-- The commits reachable from a branch or from HEAD. -/
def LocalCommits (s : Repository) : Set MerkleHash :=
  {id | (∃ name commitId, s.refs.branches.lookup name = some commitId ∧
      id ∈ HistoryOf s.db commitId) ∨
    ∃ commitId, s.refs.headCommitId s.db = some commitId ∧ id ∈ HistoryOf s.db commitId}

/-- HEAD is on a branch, which may have no commit yet. -/
structure OnBranch (s : Repository) : Prop where
  named : ∀ name, s.refs.headFile = some name →
    name ∈ s.refs.branches ∨ MerkleHash.parse name = none
  stored : ∀ name commitId, s.refs.headFile = some name →
    s.refs.branches.lookup name = some commitId → (getById s.db commitId).isSome

theorem headCommitId_of_named (h : ∀ name, s.refs.headFile = some name →
    name ∈ s.refs.branches ∨ MerkleHash.parse name = none) :
    s.refs.headCommitId s.db = s.refs.headFile.bind fun name => s.refs.branches.lookup name := by
  rw [Refs.headCommitId]
  cases hfile : s.refs.headFile with
  | none => rfl
  | some name =>
      rw [Option.bind_some, Option.bind_some]
      cases hlookup : s.refs.branches.lookup name with
      | some commitId => rfl
      | none =>
          rcases h name hfile with hmem | hparse
          · exact absurd hmem (AList.lookup_eq_none.mp hlookup)
          · simp [getById, hparse]

theorem mem_localCommits_iff (h : ∀ name, s.refs.headFile = some name →
    name ∈ s.refs.branches ∨ MerkleHash.parse name = none) :
    x ∈ LocalCommits s ↔ ∃ name commitId, s.refs.branches.lookup name = some commitId ∧
      x ∈ HistoryOf s.db commitId := by
  constructor
  · rintro (h' | ⟨commitId, hhead, hx⟩)
    · exact h'
    · rw [headCommitId_of_named h, Option.bind_eq_some_iff] at hhead
      rcases hhead with ⟨name, -, hlookup⟩
      exact ⟨name, commitId, hlookup, hx⟩
  · exact Or.inl

/-! ## Setting branches -/

/-- The history of a branch after a list of writes, each of which gives a branch a
new history. -/
def historyAfter (db : NodeStore) (refs : Refs) (writes : List (String × Set MerkleHash))
    (name : String) : Set MerkleHash :=
  match (insertAll ∅ writes).lookup name with
  | some history => history
  | none => {id | ∃ commitId, refs.branches.lookup name = some commitId ∧ id ∈ HistoryOf db commitId}

/-- The commit of every branch that is written stays in the history of a branch. -/
def CoversWrites (s : Repository) (db : NodeStore) (writes : List (String × Set MerkleHash)) : Prop :=
  ∀ name ∈ writes.map Prod.fst, ∀ commitId, s.refs.branches.lookup name = some commitId →
    ∀ commit, getById s.db commitId = some commit →
      ∃ other, commit.hash ∈ historyAfter db s.refs writes other

/-- The branches have the histories that the writes give them, as far as the commits
from before are concerned. -/
structure CarriesOut (s : Repository) (db : NodeStore) (writes : List (String × Set MerkleHash))
    (s' : Repository) : Prop where
  keyed : s'.db.Keyed
  keyed_db : db.Keyed
  keeps : KeepsCommits s.db db
  keeps' : KeepsCommits s.db s'.db
  named : ∀ name, s'.refs.headFile = some name →
    name ∈ s'.refs.branches ∨ MerkleHash.parse name = none
  history : ∀ id, (getByHash s.db id).isSome → ∀ name,
    (∃ commitId, s'.refs.branches.lookup name = some commitId ∧ id ∈ HistoryOf s'.db commitId) ↔
      id ∈ historyAfter db s.refs writes name

theorem CarriesOut.subset_iff {writes : List (String × Set MerkleHash)}
    (h : CarriesOut s db writes s') (hk : s.db.Keyed) (hs : OnBranch s) :
    LocalCommits s ⊆ LocalCommits s' ↔ CoversWrites s db writes := by
  constructor
  · intro hsub name _ commitId hlookup commit hget
    have hhistory : commit.hash ∈ HistoryOf s.db commitId := ⟨commit, hget, .refl⟩
    have hlocal := hsub ((mem_localCommits_iff hs.named).mpr ⟨name, commitId, hlookup, hhistory⟩)
    rcases (mem_localCommits_iff h.named).mp hlocal with ⟨other, commitId', hlookup', hx⟩
    have hstored := isSome_of_mem_historyOf hk hhistory
    exact ⟨other, (h.history commit.hash hstored other).mp ⟨commitId', hlookup', hx⟩⟩
  · intro hcovers id hid
    rcases (mem_localCommits_iff hs.named).mp hid with ⟨name, commitId, hlookup, hx⟩
    apply (mem_localCommits_iff h.named).mpr
    by_cases hname : name ∈ writes.map Prod.fst
    · -- the branch was moved, but its old commit is still covered
      rcases hx with ⟨commit, hget, hr⟩
      rcases hcovers name hname commitId hlookup commit hget with ⟨other, hother⟩
      have hstored := isSome_of_mem_historyOf hk (⟨commit, hget, .refl⟩ :
        commit.hash ∈ HistoryOf s.db commitId)
      rcases (h.history commit.hash hstored other).mpr hother with ⟨commitId', hlookup', hx'⟩
      exact ⟨other, commitId', hlookup', historyOf_closed hx' (h.keeps'.reaches hk h.keyed hr)⟩
    · have hafter : id ∈ historyAfter db s.refs writes name := by
        rw [historyAfter, lookup_insertAll_empty_eq_none.mpr hname]
        exact ⟨commitId, hlookup, historyOf_mono h.keeps hk h.keyed_db hx⟩
      rcases (h.history id (isSome_of_mem_historyOf hk hx) name).mpr hafter with
        ⟨commitId', hlookup', hx'⟩
      exact ⟨name, commitId', hlookup', hx'⟩

/-- A write of a branch: the commit it is set to, and the history that it gets. -/
abbrev RefWrite := String × String × Set MerkleHash

def histories (writes : List RefWrite) : List (String × Set MerkleHash) :=
  writes.map fun write => (write.1, write.2.2)

def commitIds (writes : List RefWrite) : List (String × String) :=
  writes.map fun write => (write.1, write.2.1)

/-- Writes are carried out by inserting the commit ids. -/
theorem CarriesOut.of_insertAll {writes : List RefWrite} (hk' : s'.db.Keyed) (hk : db.Keyed)
    (hkeeps : KeepsCommits s.db db) (hkeeps' : KeepsCommits s.db s'.db)
    (hnamed : ∀ name, s'.refs.headFile = some name →
      name ∈ s'.refs.branches ∨ MerkleHash.parse name = none)
    (hbranches : s'.refs.branches = insertAll s.refs.branches (commitIds writes))
    (hsame : ∀ id, (getByHash s.db id).isSome → ∀ name commitId, name ∉ writes.map Prod.fst →
      s.refs.branches.lookup name = some commitId →
        (id ∈ HistoryOf s'.db commitId ↔ id ∈ HistoryOf db commitId))
    (hwrites : ∀ id, (getByHash s.db id).isSome → ∀ write ∈ writes,
      (id ∈ HistoryOf s'.db write.2.1 ↔ id ∈ write.2.2)) :
    CarriesOut s db (histories writes) s' where
  keyed := hk'
  keyed_db := hk
  keeps := hkeeps
  keeps' := hkeeps'
  named := hnamed
  history := by
    intro id hid name
    rw [hbranches, lookup_insertAll, commitIds, lookup_insertAll_map, historyAfter, histories,
      lookup_insertAll_map]
    cases hwrite : (insertAll ∅ writes).lookup name with
    | none =>
        have hname := lookup_insertAll_empty_eq_none.mp hwrite
        simp only [Option.map_none, Option.none_or, Set.mem_ofPred_eq]
        constructor
        · rintro ⟨commitId, hlookup, hx⟩
          exact ⟨commitId, hlookup, (hsame id hid name commitId hname hlookup).mp hx⟩
        · rintro ⟨commitId, hlookup, hx⟩
          exact ⟨commitId, hlookup, (hsame id hid name commitId hname hlookup).mpr hx⟩
    | some write =>
        rcases mem_of_lookup_insertAll hwrite with hnone | hmem
        · simp at hnone
        · simpa using hwrites id hid (name, write) hmem

end Oxen
