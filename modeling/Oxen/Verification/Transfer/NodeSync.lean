import Oxen.Verification.Transfer.Download
import Oxen.Verification.Tree.FileMap

/-! The nodes between commits, with those of the first commit, are all nodes of the later ones. -/

namespace Oxen

open MerkleTreeNode

namespace MerkleTreeNode

variable {db receiver : NodeStore} {t c : MerkleTreeNode}

theorem mem_containerHashes_self (h : t.node.hasChildren = true) : t.hash ∈ t.containerHashes :=
  (mem_containerHashes_iff []).mpr ⟨[], t, self_mem_subtrees [] t, h, rfl⟩

theorem mem_containerHashes_child {n : EMerkleTreeNode} {cs : List MerkleTreeNode} (hc : c ∈ cs)
    {hash : MerkleHash} (h : hash ∈ c.containerHashes) : hash ∈ (mk n cs).containerHashes := by
  rcases (mem_containerHashes_iff (n.ownPath [])).mp h with ⟨p, s, hs, hsc, rfl⟩
  have hchild := child_mem_subtrees (self_mem_subtrees [] (mk n cs)) hc
  exact (mem_containerHashes_iff []).mpr ⟨p, s, mem_subtrees_trans hchild hs, hsc, rfl⟩

/-- A tree is stored wherever the records of its containers are. -/
theorem Stored.of_agree (ht : t.Stored db)
    (h : ∀ hash ∈ t.containerHashes, receiver hash = db hash) : t.Stored receiver := by
  induction t with
  | mk n cs ih =>
      have hchildren : ∀ c ∈ cs, c.Stored receiver := fun c hc =>
        ih c hc (ht.child c hc) fun hash hhash => h hash (mem_containerHashes_child hc hhash)
      by_cases hn : n.hasChildren = true
      · rcases (stored_container hn cs).mp ht with ⟨⟨record, hrecord, hnode⟩, -⟩
        have hself := h n.hash (mem_containerHashes_self hn)
        exact (stored_container hn cs).mpr ⟨⟨record, hself.trans hrecord, hnode⟩, hchildren⟩
      · cases n with
        | file f => exact (stored_file receiver f cs).mpr ((stored_file db f cs).mp ht)
        | directory d => exact absurd rfl hn
        | vnode v => exact absurd rfl hn
        | commit c => exact absurd rfl hn

end MerkleTreeNode

namespace TreeNodes

variable {db : NodeStore} {dirHashes : MerkleHash → DirHashes} {first : CommitNode}
  {newer : List CommitNode}

/-- The nodes of a commit: itself, its directories and its virtual nodes. -/
def CommitNodes (db : NodeStore) (commit : CommitNode) : Set MerkleHash :=
  {h | h = commit.hash ∨ h ∈ DirNodes db commit.hash}

theorem mem_commitNodes_iff (t : CommitTree db) {hash : MerkleHash} :
    hash ∈ CommitNodes db t.commit ↔ hash ∈ t.tree.containerHashes := by
  change hash = t.id ∨ hash ∈ DirNodes db t.id ↔ _
  rw [mem_dirNodes_iff]
  constructor
  · rintro (rfl | ⟨c, hc, hmem⟩)
    · exact mem_containerHashes_self rfl
    · exact mem_containerHashes_child hc hmem
  · intro h
    rcases (mem_containerHashes_iff []).mp h with ⟨p, s, hs, hsc, rfl⟩
    rw [CommitTree.tree, subtrees_mk, List.mem_cons, List.mem_flatMap] at hs
    rcases hs with hroot | ⟨c, hc, hs⟩
    · obtain ⟨-, rfl⟩ := Prod.mk.inj hroot
      exact .inl rfl
    · exact .inr ⟨c, hc, (mem_containerHashes_iff _).mpr ⟨p, s, hs, hsc, rfl⟩⟩

/-- The hashes make up for what the first commit does not have, so that whoever has the nodes of
both can load each of the newer commits. -/
structure SyncComplete (db : NodeStore) (first : CommitNode) (newer : List CommitNode)
    (hashes : List MerkleHash) : Prop where
  complete : ∀ c ∈ newer, ∀ h ∈ CommitNodes db c, h ∈ hashes ∨ h ∈ CommitNodes db first
  loads : ∀ receiver : NodeStore,
    (∀ h, h ∈ hashes ∨ h ∈ CommitNodes db first → receiver h = db h) →
      ∀ t : CommitTree db, t.commit ∈ newer →
        t.tree.Stored receiver ∧ ∃ bound, ∀ fuel, bound ≤ fuel →
          (rootWithChildrenAndNodeHashes receiver [] fuel t.commit.hash).map LoadedNode.tree =
            some t.tree

theorem syncComplete_of_complete {hashes : List MerkleHash}
    (h : ∀ c ∈ newer, ∀ h ∈ CommitNodes db c, h ∈ hashes ∨ h ∈ CommitNodes db first) :
    SyncComplete db first newer hashes := by
  refine ⟨h, fun receiver hreceiver t ht => ?_⟩
  have hstored : t.tree.Stored receiver := by
    apply t.stored_tree.of_agree
    intro hash hhash
    exact hreceiver hash (h t.commit ht hash ((mem_commitNodes_iff t).mpr hhash))
  have htree : t.tree.prune [] = t.tree := hstored.prune_nil
  let held : CommitTree receiver := { t with stored := hstored }
  refine ⟨hstored, t.tree.size, fun fuel hfuel => ?_⟩
  have hload := held.load_nodeHashes [] hfuel
  change rootWithChildrenAndNodeHashes receiver [] fuel t.commit.hash = _ at hload
  rw [hload]
  exact congrArg some htree

/-- Nodes that are skipped since they were seen are nodes of the first commit, or collected
before. -/
theorem nodeHashes_syncComplete (hne : newer ≠ [])
    (htrees : ∀ c ∈ first :: newer, ∃ t : CommitTree db, IsTreeOf dirHashes c t) :
    ∃ bound, ∀ fuel, bound ≤ fuel → ∃ hashes,
      getNodeHashesBetweenCommits db dirHashes fuel (first :: newer) = .ok hashes ∧
        SyncComplete db first newer hashes := by
  rcases exists_fuel htrees with ⟨bound, hbound⟩
  refine ⟨bound, fun fuel hfuel => ?_⟩
  rcases getNodeHashesBetweenCommits_spec (hbound fuel hfuel) with ⟨hashes, hrun, hmem⟩
  refine ⟨hashes, hrun, syncComplete_of_complete fun c hc h hh => ?_⟩
  rw [hmem, RangeHashes, Set.mem_ofPred_eq, if_neg fun hnil => hne (List.map_eq_nil_iff.mp hnil)]
  rcases hh with rfl | hh
  · exact .inl (.inl (List.mem_map_of_mem hc))
  · by_cases hfirst : h ∈ DirNodes db first.hash
    · exact .inr (.inr hfirst)
    · exact .inl (.inr ⟨hfirst, c.hash, List.mem_map_of_mem hc, hh⟩)

namespace SyncExample

open Oxen.Example

/-- The commits share the directories `a` and `b`. -/
def trees : List MerkleTreeNode :=
  [.mk (.commit { hash := 1 }) [dir [] 0x10 [dir ["a"] 0x30 [file "x" [1] 1]]],
    .mk (.commit { hash := 2, parentIds := [1] })
      [dir [] 0x20 [dir ["a"] 0x30 [file "x" [1] 1], dir ["b"] 0x40 [file "y" [2] 2]]],
    .mk (.commit { hash := 3, parentIds := [2] })
      [dir [] 0x50 [dir ["b"] 0x40 [file "y" [2] 2]]]]

def nodes : NodeStore :=
  NodeStore.ofTrees trees

def index (id : MerkleHash) : DirHashes :=
  AList.insert [] (if id = 1 then 0x10 else if id = 2 then 0x20 else 0x50) ∅

theorem trees_forest : Forest trees := by
  decide

theorem nodes_hasTrees : HasTrees nodes index :=
  trees_forest.hasTrees (by decide)

end SyncExample

open SyncExample in
theorem nodeHashes_syncComplete_three :
    ∃ bound, ∀ fuel, bound ≤ fuel → ∃ hashes,
      getNodeHashesBetweenCommits nodes index fuel
          [{ hash := 1 }, { hash := 2, parentIds := [1] }, { hash := 3, parentIds := [2] }] =
        .ok hashes ∧
      SyncComplete nodes { hash := 1 } [{ hash := 2, parentIds := [1] },
        { hash := 3, parentIds := [2] }] hashes := by
  apply nodeHashes_syncComplete (by decide)
  intro c hc
  have hstored : ∀ c ∈ ([{ hash := 1 }, { hash := 2, parentIds := [1] },
      { hash := 3, parentIds := [2] }] : List CommitNode),
      Commits.getByHash nodes c.hash = some c := by
    decide
  exact nodes_hasTrees c.hash c (hstored c hc)

end TreeNodes

end Oxen
