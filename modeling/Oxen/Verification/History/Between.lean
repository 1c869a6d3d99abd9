import Oxen.Verification.History.Pages

/-! The history between two commits ends at the base commit only. A merge may
lead around it to the commits below. -/

namespace Oxen

open Exploration Fuel

namespace Commits

variable {db : NodeStore} {base head : CommitNode}

/-- A `usize` counts the stored commits. -/
def Countable (db : NodeStore) : Prop :=
  ∀ ids : List MerkleHash, ids.Nodup → (∀ id ∈ ids, (getByHash db id).isSome) →
    ids.length ≤ usizeMax

/-- What the history from base to head should list: the base, and each commit
that is reachable from the head and not from the base. -/
def InRange (db : NodeStore) (base head : CommitNode) (id : MerkleHash) : Prop :=
  id = base.hash ∨
    Reaches (parentsOf db none) head.hash id ∧ ¬ Reaches (parentsOf db none) base.hash id

/-- Every commit of the range is returned, once. -/
def ListsRange (db : NodeStore) (base head : CommitNode) : Prop :=
  ∃ commits, Returns (fun fuel => listBetween db fuel base head) commits ∧ commits.Nodup ∧
    ∀ commit, commit ∈ commits ↔ IsStored db commit ∧ InRange db base head commit.hash

/-- From the head, a commit below the base is only reached through the base. -/
def NoWayAround (db : NodeStore) (base head : CommitNode) : Prop :=
  ∀ id, Reaches (parentsOf db (some base.hash)) head.hash id →
    Reaches (parentsOf db none) base.hash id → id = base.hash

theorem parentsOf_some (db : NodeStore) (id : MerkleHash) :
    parentsOf db (some id) = stopAt (parentsOf db none) id := by
  funext x
  simp [parentsOf, stopAt]

theorem length_historyOrder_le (hk : db.Keyed) (hfits : Countable db) (hs : IsStored db head)
    (base : Option MerkleHash) : (historyOrder db base head.hash).length ≤ usizeMax := by
  have hspec := historyOrder_spec db base head.hash
  apply hfits _ hspec.nodup
  intro id hid
  exact isSome_of_reaches hk hs (hspec.mem_iff.mp hid)

theorem mem_fullHistory (hk : db.Keyed) (hs : IsStored db head) {base : Option MerkleHash}
    {commit : CommitNode} :
    commit ∈ fullHistory db base head ↔
      IsStored db commit ∧ Reaches (parentsOf db base) head.hash commit.hash := by
  have hspec := historyOrder_spec db base head.hash
  rw [fullHistory, List.mem_map]
  constructor
  · rintro ⟨id, hid, rfl⟩
    have hr := hspec.mem_iff.mp hid
    have hsome := isSome_of_reaches hk hs hr
    rw [hash_commitAt hk hsome]
    rcases Option.isSome_iff_exists.mp hsome with ⟨c, hc⟩
    refine ⟨?_, hr⟩
    rw [IsStored, hash_commitAt hk hsome, commitAt, hc]
    rfl
  · rintro ⟨hc, hr⟩
    exact ⟨commit.hash, hspec.mem_iff.mpr hr, hc.commitAt_eq⟩

theorem nodup_fullHistory (hk : db.Keyed) (hs : IsStored db head) (base : Option MerkleHash) :
    (fullHistory db base head).Nodup := by
  have hspec := historyOrder_spec db base head.hash
  apply List.Nodup.map_on _ hspec.nodup
  intro x hx y hy heq
  rw [← hash_commitAt hk (isSome_of_reaches hk hs (hspec.mem_iff.mp hx)),
    ← hash_commitAt hk (isSome_of_reaches hk hs (hspec.mem_iff.mp hy)), heq]

theorem listBetween_returns (hk : db.Keyed) (hfits : Countable db) (hs : IsStored db head)
    (base : CommitNode) :
    Returns (fun fuel => listBetween db fuel base head)
      (fullHistory db (some base.hash) head) := by
  rcases listRecursivePaginated_returns hk hs 0 usizeMax (some base) none with ⟨bound, hb⟩
  refine ⟨bound, fun fuel hfuel => ?_⟩
  have hrun : listRecursivePaginated db fuel head 0 usizeMax (some base) none = _ := hb fuel hfuel
  have hlen : (fullHistory db (some base.hash) head).length ≤ 0 + usizeMax := by
    have hle := length_historyOrder_le hk hfits hs (some base.hash)
    simpa [fullHistory] using hle
  show listBetween db fuel base head = _
  rw [listBetween, hrun, Option.map_some, List.drop_zero, Option.map_some,
    List.take_of_length_le hlen]

/-- The traversal goes wherever it gets without passing the base. -/
theorem reaches_cut_of_inRange (hanc : Reaches (parentsOf db none) head.hash base.hash)
    {id : MerkleHash} (h : InRange db base head id) :
    Reaches (parentsOf db (some base.hash)) head.hash id := by
  rw [parentsOf_some]
  rcases h with rfl | ⟨hr, hnot⟩
  · rcases hanc.stopAt_or base.hash with h | h
    · exact h
    · exact h.1
  · rcases hr.stopAt_or base.hash with h | h
    · exact h
    · exact absurd h.2 hnot

theorem inRange_iff_noWayAround (hanc : Reaches (parentsOf db none) head.hash base.hash) :
    (∀ id, Reaches (parentsOf db (some base.hash)) head.hash id ↔ InRange db base head id) ↔
      NoWayAround db base head := by
  constructor
  · intro h id hr hbelow
    rcases (h id).mp hr with heq | hrange
    · exact heq
    · exact absurd hbelow hrange.2
  · intro h id
    refine ⟨fun hr => ?_, reaches_cut_of_inRange hanc⟩
    by_cases hbelow : Reaches (parentsOf db none) base.hash id
    · exact .inl (h id hr hbelow)
    · rw [parentsOf_some] at hr
      exact .inr ⟨hr.of_stopAt, hbelow⟩

/-- The list is the range exactly when no merge leads around the base. -/
theorem listsRange_iff (hk : db.Keyed) (hfits : Countable db) (hhead : IsStored db head)
    (hanc : Reaches (parentsOf db none) head.hash base.hash) :
    ListsRange db base head ↔ NoWayAround db base head := by
  have hreturns := listBetween_returns hk hfits hhead base
  rw [← inRange_iff_noWayAround hanc]
  constructor
  · rintro ⟨commits, hcommits, -, hmem⟩ id
    obtain rfl := hcommits.unique hreturns
    refine ⟨fun hr => ?_, reaches_cut_of_inRange hanc⟩
    have hsome := isSome_of_reaches hk hhead hr
    have hid := hash_commitAt hk hsome
    have hstored : IsStored db (commitAt db id) := by
      rcases Option.isSome_iff_exists.mp hsome with ⟨c, hc⟩
      rw [IsStored, hid, commitAt, hc]
      rfl
    have hlisted : commitAt db id ∈ fullHistory db (some base.hash) head :=
      (mem_fullHistory hk hhead).mpr ⟨hstored, by rwa [hid]⟩
    simpa [hid] using ((hmem _).mp hlisted).2
  · intro h
    refine ⟨_, hreturns, nodup_fullHistory hk hhead _, fun commit => ?_⟩
    rw [mem_fullHistory hk hhead, h]

namespace HistoryExample

theorem isSome_write {db : NodeStore} {record : NodeDb} {id : MerkleHash}
    (h : (getByHash (db.write record) id).isSome) :
    id = record.node.hash ∨ (getByHash db id).isSome := by
  by_cases hid : id = record.node.hash
  · exact .inl hid
  · rw [getByHash, NodeStore.write, Function.update_of_ne hid] at h
    exact .inr h

theorem isSome_merged {id : MerkleHash} (h : (getByHash merged id).isSome) :
    id ∈ ([4, 3, 2, 1] : List MerkleHash) := by
  rcases isSome_write h with rfl | h
  · exact .head _
  rcases isSome_write h with rfl | h
  · exact .tail _ (.head _)
  rcases isSome_write h with rfl | h
  · exact .tail _ (.tail _ (.head _))
  rcases isSome_write h with rfl | h
  · exact .tail _ (.tail _ (.tail _ (.head _)))
  cases h

theorem merged_countable : Countable merged := by
  intro ids hnodup hsome
  have hsub : ids ⊆ [4, 3, 2, 1] := fun id hid => isSome_merged (hsome id hid)
  have hle := (List.subperm_of_subset hnodup hsub).length_le
  exact hle.trans (by decide)

theorem merged_reaches : Reaches (parentsOf merged none) 4 2 :=
  .single (by decide)

end HistoryExample

theorem listsRange_iff_merged :
    ListsRange HistoryExample.merged (HistoryExample.commitNode 2 [1] 2)
        (HistoryExample.commitNode 4 [2, 3] 4) ↔
      NoWayAround HistoryExample.merged (HistoryExample.commitNode 2 [1] 2)
        (HistoryExample.commitNode 4 [2, 3] 4) :=
  listsRange_iff HistoryExample.merged_keyed HistoryExample.merged_countable
    (by rw [IsStored]; decide) HistoryExample.merged_reaches

/-- The merge commit leads to commit 1 by way of commit 3, although commit 1 is
below the base. -/
theorem not_listsRange :
    Reaches (parentsOf HistoryExample.merged none) 4 2 ∧
      ¬ ListsRange HistoryExample.merged (HistoryExample.commitNode 2 [1] 2)
        (HistoryExample.commitNode 4 [2, 3] 4) := by
  refine ⟨HistoryExample.merged_reaches, ?_⟩
  rintro ⟨commits, hcommits, -, hmem⟩
  have hstored : IsStored HistoryExample.merged (HistoryExample.commitNode 4 [2, 3] 4) := by
    rw [IsStored]
    decide
  obtain rfl := hcommits.unique
    (listBetween_returns HistoryExample.merged_keyed HistoryExample.merged_countable hstored _)
  have haround : Reaches (parentsOf HistoryExample.merged (some 2)) 4 1 :=
    .tail (.single (by decide : (3 : MerkleHash) ∈ _)) (by decide)
  have hlisted : HistoryExample.commitNode 1 [] 1 ∈ fullHistory HistoryExample.merged (some 2)
      (HistoryExample.commitNode 4 [2, 3] 4) :=
    (mem_fullHistory HistoryExample.merged_keyed hstored).mpr
      ⟨by rw [IsStored]; decide, haround⟩
  rcases ((hmem _).mp hlisted).2 with heq | hrange
  · exact absurd heq (by decide)
  · exact hrange.2 (.single (by decide))

end Commits

end Oxen
