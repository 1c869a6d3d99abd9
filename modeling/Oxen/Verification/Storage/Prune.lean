import Mathlib.Data.Fintype.Prod
import Oxen.Model.Prune
import Oxen.Verification.History.Pages
import Oxen.Verification.Tree.Shape

/-! What pruning keeps: everything that the commits of a branch refer to, and nothing else. -/

namespace Oxen

open Exploration Fuel Commits MerkleTreeNode

/-! ## The nodes of a loaded tree -/

/-- The containers that a container has among its children. -/
def childHashes (db : NodeStore) (hash : MerkleHash) : List MerkleHash :=
  ((db.readChildrenFromHash hash).filter (·.hasChildren)).map (·.hash)

/-- A node other than the root is in the tree of a commit. -/
def InTree (db : NodeStore) (id : MerkleHash) (n : EMerkleTreeNode) : Prop :=
  ∃ c, Reaches (childHashes db) id c ∧ n ∈ db.readChildrenFromHash c

/-- The hashes of all nodes of the tree. -/
def TreeHashes (db : NodeStore) (id : MerkleHash) : Set MerkleHash :=
  {h | h = id ∨ ∃ n, InTree db id n ∧ n.hash = h}

/-- The hashes of its files. -/
def TreeFiles (db : NodeStore) (id : MerkleHash) : Set MerkleHash :=
  {h | ∃ f : FileNode, InTree db id (.file f) ∧ f.hash = h}

namespace MerkleTreeNode

/-- The nodes of a loaded tree, without their paths. -/
def allNodes (t : MerkleTreeNode) : List EMerkleTreeNode :=
  (t.subtrees []).map (·.2.node)

theorem allNodes_mk (n : EMerkleTreeNode) (cs : List MerkleTreeNode) :
    (mk n cs).allNodes = n :: cs.flatMap allNodes := by
  have hpath : ∀ path : PathBuf, ∀ c : MerkleTreeNode,
      (c.subtrees path).map (·.2.node) = c.allNodes := by
    intro path c
    have h := congrArg (List.map node) (map_snd_subtrees path [] c)
    simpa only [allNodes, List.map_map, Function.comp_def] using h
  rw [allNodes, subtrees_mk, List.map_cons, List.map_flatMap]
  simp only [hpath, node_mk]

theorem mem_allNodes_mk {n m : EMerkleTreeNode} {cs : List MerkleTreeNode} :
    m ∈ (mk n cs).allNodes ↔ m = n ∨ ∃ c ∈ cs, m ∈ c.allNodes := by
  rw [allNodes_mk, List.mem_cons, List.mem_flatMap]

end MerkleTreeNode

theorem collectChildHashes_eq (cs : List MerkleTreeNode) (r : ReferencedHashes) :
    collectChildHashes cs r = cs.foldl (fun r c => collectNodeHashes c r) r := by
  induction cs generalizing r with
  | nil => rfl
  | cons c cs ih => rw [collectChildHashes, ih, List.foldl_cons]

theorem collectNodeHashes_eq (t : MerkleTreeNode) (r : ReferencedHashes) :
    collectNodeHashes t r = t.allNodes.foldl ReferencedHashes.insert r := by
  induction t generalizing r with
  | mk n cs ih =>
    rw [collectNodeHashes, collectChildHashes_eq, allNodes_mk, List.foldl_cons]
    generalize r.insert n = r
    induction cs generalizing r with
    | nil => rfl
    | cons c cs ihcs =>
      rw [List.foldl_cons, List.flatMap_cons, List.foldl_append, ih c (List.mem_cons_self)]
      exact ihcs (fun d hd => ih d (List.mem_cons_of_mem _ hd)) _

theorem mem_nodes_foldl_insert (ns : List EMerkleTreeNode) (r : ReferencedHashes)
    (h : MerkleHash) :
    h ∈ (ns.foldl ReferencedHashes.insert r).nodes ↔ h ∈ r.nodes ∨ ∃ n ∈ ns, n.hash = h := by
  induction ns generalizing r with
  | nil => simp
  | cons n ns ih =>
    rw [List.foldl_cons, ih]
    simp only [ReferencedHashes.insert, List.mem_cons, exists_eq_or_imp]
    tauto

theorem mem_versions_foldl_insert (ns : List EMerkleTreeNode) (r : ReferencedHashes)
    (h : MerkleHash) :
    h ∈ (ns.foldl ReferencedHashes.insert r).versions ↔
      h ∈ r.versions ∨ ∃ f : FileNode, .file f ∈ ns ∧ f.hash = h := by
  induction ns generalizing r with
  | nil => simp
  | cons n ns ih =>
    rw [List.foldl_cons, ih]
    cases n with
    | file f =>
      simp only [ReferencedHashes.insert, List.mem_cons, EMerkleTreeNode.file.injEq,
        or_and_right, exists_or, exists_eq_left]
      tauto
    | directory d => simp [ReferencedHashes.insert]
    | vnode v => simp [ReferencedHashes.insert]
    | commit c => simp [ReferencedHashes.insert]

/-- The tree that is loaded with some fuel. -/
def loadedTree (db : NodeStore) (fuel : ℕ) (path : PathBuf) (n : EMerkleTreeNode) :
    MerkleTreeNode :=
  (loadChildrenAndCollectPartialNodes db [] fuel path n).tree

theorem mem_allNodes_loadedTree_succ {db : NodeStore} {fuel : ℕ} {path : PathBuf}
    {n m : EMerkleTreeNode} (hn : n.hasChildren = true) :
    m ∈ (loadedTree db (fuel + 1) path n).allNodes ↔
      m = n ∨ ∃ c ∈ db.readChildrenFromHash n.hash,
        m = c ∨ c.hasChildren = true ∧
          m ∈ (loadedTree db fuel (c.ownPath path) c).allNodes := by
  have hself : ∀ c, c ∈ (loadedTree db fuel (c.ownPath path) c).allNodes := by
    intro c
    cases fuel with
    | zero => simp [loadedTree, loadChildrenAndCollectPartialNodes, mem_allNodes_mk]
    | succ fuel =>
      rw [loadedTree, loadChildrenAndCollectPartialNodes]
      split
      · simp [mem_allNodes_mk]
      · split <;> simp [mem_allNodes_mk]
  rw [loadedTree, loadChildrenAndCollectPartialNodes]
  simp only [hn, Bool.not_true, Bool.false_eq_true, if_false, List.not_mem_nil, mem_allNodes_mk,
    List.map_map, List.mem_map, exists_exists_and_eq_and, Function.comp_apply]
  apply or_congr_right
  apply exists_congr
  intro c
  apply and_congr_right
  intro _
  cases c with
  | file f => simp [loadChild, mem_allNodes_mk, EMerkleTreeNode.hasChildren]
  | directory d =>
    refine ⟨fun h => Or.inr ⟨rfl, h⟩, ?_⟩
    rintro (rfl | h)
    · exact hself _
    · exact h.2
  | vnode v =>
    refine ⟨fun h => Or.inr ⟨rfl, h⟩, ?_⟩
    rintro (rfl | h)
    · exact hself _
    · exact h.2
  | commit k =>
    refine ⟨fun h => Or.inr ⟨rfl, h⟩, ?_⟩
    rintro (rfl | h)
    · exact hself _
    · exact h.2

theorem mem_childHashes {db : NodeStore} {hash : MerkleHash} {c : EMerkleTreeNode}
    (hc : c ∈ db.readChildrenFromHash hash) (h : c.hasChildren = true) :
    c.hash ∈ childHashes db hash :=
  List.mem_map_of_mem (List.mem_filter.mpr ⟨hc, h⟩)

/-- Only nodes of the tree are loaded. -/
theorem inTree_of_mem_loadedTree {db : NodeStore} {fuel : ℕ} {path : PathBuf}
    {n m : EMerkleTreeNode} (hn : n.hasChildren = true)
    (h : m ∈ (loadedTree db fuel path n).allNodes) : m = n ∨ InTree db n.hash m := by
  induction fuel generalizing n path with
  | zero => exact Or.inl (by simpa [loadedTree, loadChildrenAndCollectPartialNodes, mem_allNodes_mk]
      using h)
  | succ fuel ih =>
    rcases (mem_allNodes_loadedTree_succ hn).mp h with rfl | ⟨c, hc, rfl | ⟨hcc, h⟩⟩
    · exact Or.inl rfl
    · exact Or.inr ⟨n.hash, .refl, hc⟩
    · rcases ih hcc h with rfl | ⟨d, hd, hm⟩
      · exact Or.inr ⟨n.hash, .refl, hc⟩
      · exact Or.inr ⟨d, .head (mem_childHashes hc hcc) hd, hm⟩

/-- The children of a container in the tree are loaded, with enough fuel. -/
theorem exists_fuel_of_reaches {db : NodeStore} {id c : MerkleHash}
    (h : Reaches (childHashes db) id c) :
    ∃ bound, ∀ fuel, bound ≤ fuel → ∀ path n, n.hash = id → n.hasChildren = true →
      ∀ m ∈ db.readChildrenFromHash c, m ∈ (loadedTree db fuel path n).allNodes := by
  induction h using Relation.ReflTransGen.head_induction_on with
  | refl =>
    refine ⟨1, fun fuel hf path n hid hn m hm => ?_⟩
    rcases Nat.exists_eq_add_of_le' hf with ⟨k, rfl⟩
    rw [mem_allNodes_loadedTree_succ hn, hid]
    exact Or.inr ⟨m, hm, Or.inl rfl⟩
  | head hstep _ ih =>
    rcases ih with ⟨bound, ih⟩
    refine ⟨bound + 1, fun fuel hf path n hid hn m hm => ?_⟩
    rcases Nat.exists_eq_add_of_le' (Nat.le_trans (Nat.le_add_left 1 bound) hf) with ⟨k, rfl⟩
    rcases List.mem_map.mp hstep with ⟨d, hd, hdh⟩
    rcases List.mem_filter.mp hd with ⟨hd, hdc⟩
    rw [mem_allNodes_loadedTree_succ hn, hid]
    exact Or.inr ⟨d, hd, Or.inr ⟨hdc, ih k (by omega) _ d hdh hdc m hm⟩⟩

/-- There are finitely many hashes, so some fuel is enough for all trees. -/
theorem exists_fuel_loadedTree (db : NodeStore) :
    ∃ bound, ∀ fuel, bound ≤ fuel → ∀ path n, n.hasChildren = true → ∀ m,
      m ∈ (loadedTree db fuel path n).allNodes ↔ m = n ∨ InTree db n.hash m := by
  have hpairs : ∀ pair : MerkleHash × MerkleHash, ∃ bound,
      Reaches (childHashes db) pair.1 pair.2 → ∀ fuel, bound ≤ fuel → ∀ path n,
        n.hash = pair.1 → n.hasChildren = true →
          ∀ m ∈ db.readChildrenFromHash pair.2, m ∈ (loadedTree db fuel path n).allNodes := by
    intro pair
    by_cases h : Reaches (childHashes db) pair.1 pair.2
    · rcases exists_fuel_of_reaches h with ⟨bound, hb⟩
      exact ⟨bound, fun _ => hb⟩
    · exact ⟨0, fun hr => absurd hr h⟩
  choose bound hbound using hpairs
  refine ⟨Finset.univ.sup bound + 1, fun fuel hf path n hn m => ?_⟩
  refine ⟨inTree_of_mem_loadedTree hn, ?_⟩
  rintro (rfl | ⟨c, hc, hm⟩)
  · rcases Nat.exists_eq_add_of_le' (Nat.le_trans (Nat.le_add_left 1 _) hf) with ⟨k, rfl⟩
    exact (mem_allNodes_loadedTree_succ hn).mpr (Or.inl rfl)
  · have hle : bound (n.hash, c) ≤ Finset.univ.sup bound := Finset.le_sup (Finset.mem_univ _)
    exact hbound (n.hash, c) hc fuel (by omega) path n rfl hn m hm

/-! ## The listed commits -/

variable {repo : PrunableRepository}

namespace PrunableRepository

/-- The commits reachable from a branch. -/
def BranchCommits (repo : PrunableRepository) : Set MerkleHash :=
  {id | ∃ name commitId, repo.refs.branches.lookup name = some commitId ∧
    id ∈ HistoryOf repo.db commitId}

/-- The commits reachable from HEAD or from a workspace. -/
def OtherCommits (repo : PrunableRepository) : Set MerkleHash :=
  {id | (∃ commitId, repo.refs.headCommitId repo.db = some commitId ∧
      id ∈ HistoryOf repo.db commitId) ∨
    ∃ workspace ∈ repo.workspaces, id ∈ HistoryOf repo.db workspace.commitId}

/-- The versions of the files that are staged, in the repository or in a workspace. -/
def StagedVersions (repo : PrunableRepository) : Set MerkleHash :=
  {h | ∃ staged, (staged = repo.staged ∨ ∃ workspace ∈ repo.workspaces, staged = workspace.staged) ∧
    ∃ path entry, staged.lookup path = some entry ∧ entry.status ≠ .removed ∧
      ∃ f : FileNode, entry.node = .file f ∧ f.hash = h}

/-- The hashes of nodes, and those of files, in the trees of the branches. -/
def BranchNodes (repo : PrunableRepository) : Set MerkleHash :=
  {h | ∃ id ∈ repo.BranchCommits, h ∈ TreeHashes repo.db id}

def BranchFiles (repo : PrunableRepository) : Set MerkleHash :=
  {h | ∃ id ∈ repo.BranchCommits, h ∈ TreeFiles repo.db id}

end PrunableRepository

theorem length_historyOrder_le_nodes (hk : repo.db.Keyed) {commit : CommitNode}
    (hs : IsStored repo.db commit) :
    (historyOrder repo.db none commit.hash).length ≤ repo.nodes.keys.length := by
  have hspec := historyOrder_spec repo.db none commit.hash
  apply (List.subperm_of_subset hspec.nodup ?_).length_le
  intro id hid
  rcases isStored_of_reaches_parents hk hs (hspec.mem_iff.mp hid) with ⟨c, hc, -⟩
  rw [getByHash] at hc
  split at hc
  · next h =>
    exact AList.mem_keys.mp (AList.lookup_isSome.mp (Option.isSome_of_eq_some h))
  · cases hc

theorem listAllRecursive_returns (hk : repo.db.Keyed)
    (hn : repo.nodes.keys.length ≤ usizeMax) {commit : CommitNode}
    (hs : IsStored repo.db commit) :
    ∃ bound results, (∀ fuel, bound ≤ fuel → ∀ commits,
        listAllRecursive repo.db fuel commit commits = some (commits ∪ results)) ∧
      ∀ c, c ∈ results ↔
        Reaches (parentsOf repo.db none) commit.hash c.hash ∧ IsStored repo.db c := by
  rcases listRecursivePaginated_returns hk hs 0 usizeMax none none with ⟨bound, hb⟩
  have hshort : (historyOrder repo.db none commit.hash).length ≤ usizeMax :=
    (length_historyOrder_le_nodes hk hs).trans hn
  refine ⟨bound, fullHistory repo.db none commit, fun fuel hf commits => ?_, fun c => ?_⟩
  · have hrun : listRecursivePaginated repo.db fuel commit 0 usizeMax none none = _ := hb fuel hf
    rw [listAllRecursive, hrun, Option.map_some, List.drop_zero, List.take_of_length_le]
    · rfl
    · simpa [fullHistory] using hshort
  · have hspec := historyOrder_spec repo.db none commit.hash
    rw [fullHistory, List.mem_map]
    constructor
    · rintro ⟨id, hid, rfl⟩
      have hr := hspec.mem_iff.mp hid
      rcases isStored_of_reaches_parents hk hs hr with ⟨c, hc, rfl⟩
      have hc' : commitAt repo.db c.hash = c := IsStored.commitAt_eq hc
      rw [hc']
      exact ⟨hr, hc⟩
    · rintro ⟨hr, hc⟩
      exact ⟨c.hash, hspec.mem_iff.mpr hr, IsStored.commitAt_eq hc⟩

/-- Listing some branches adds the stored commits that they reach. -/
theorem foldlM_listBranch_returns (hk : repo.db.Keyed) (hn : repo.nodes.keys.length ≤ usizeMax)
    (branches : List (String × String)) :
    ∃ (bound : ℕ) (results : List CommitNode → List CommitNode),
      (∀ fuel, bound ≤ fuel → ∀ commits,
        branches.foldlM (listBranch repo.db fuel) commits = some (results commits)) ∧
      ∀ commits c, c ∈ results commits ↔ c ∈ commits ∨
        (∃ branch ∈ branches, c.hash ∈ HistoryOf repo.db branch.2) ∧ IsStored repo.db c := by
  induction branches with
  | nil => exact ⟨0, id, fun _ _ _ => rfl, by simp⟩
  | cons branch branches ih =>
    rcases ih with ⟨bound, results, hrun, hmem⟩
    cases hg : getById repo.db branch.2 with
    | none =>
      have hempty : ∀ id, id ∉ HistoryOf repo.db branch.2 := by simp [HistoryOf, hg]
      refine ⟨bound, results, fun fuel hf commits => ?_, fun commits c => ?_⟩
      · rw [List.foldlM_cons, listBranch, hg]
        exact hrun fuel hf commits
      · simp [hmem, hempty]
    | some commit =>
      rcases listAllRecursive_returns hk hn (isStored_of_getById hk hg) with
        ⟨bound', listed, hrun', hmem'⟩
      have hhistory : ∀ id, id ∈ HistoryOf repo.db branch.2 ↔
          Reaches (parentsOf repo.db none) commit.hash id := by simp [HistoryOf, hg]
      refine ⟨max bound bound', fun commits => results (commits ∪ listed),
        fun fuel hf commits => ?_, fun commits c => ?_⟩
      · rw [List.foldlM_cons, listBranch, hg]
        simp only [hrun' fuel (le_trans (le_max_right _ _) hf)]
        exact hrun fuel (le_trans (le_max_left _ _) hf) _
      · simp only [hmem, List.mem_union_iff, hmem', List.mem_cons, exists_eq_or_imp, hhistory]
        tauto

/-- Exactly the stored commits that some branch reaches are listed. -/
theorem listAll_returns (hk : repo.db.Keyed) (hn : repo.nodes.keys.length ≤ usizeMax) :
    ∃ bound, ∀ fuel, bound ≤ fuel → ∃ commits, listAll repo.db fuel repo.refs = some commits ∧
      ∀ c, c ∈ commits ↔ c.hash ∈ repo.BranchCommits ∧ IsStored repo.db c := by
  rcases foldlM_listBranch_returns hk hn (KeyedMap.toList repo.refs.branches) with
    ⟨bound, results, hrun, hmem⟩
  refine ⟨bound, fun fuel hf => ⟨results [], hrun fuel hf [], fun c => ?_⟩⟩
  rw [hmem, PrunableRepository.BranchCommits]
  simp [KeyedMap.mem_toList]

theorem getRootWithChildren_eq {db : NodeStore} {commit : CommitNode} (hs : IsStored db commit)
    (fuel : ℕ) : getRootWithChildren db fuel commit = some (loadedTree db fuel [] (.commit commit)) := by
  rw [IsStored, getByHash] at hs
  split at hs
  · next c parentId children h =>
    rw [getRootWithChildren, rootWithChildrenAndNodeHashes, h, ← Option.some.inj hs]
    rfl
  · cases hs

section Collected

variable {db : NodeStore} {fuel : ℕ}
  (hload : ∀ n, n.hasChildren = true → ∀ m,
    m ∈ (loadedTree db fuel [] n).allNodes ↔ m = n ∨ InTree db n.hash m)
include hload

theorem mem_nodes_collectCommit {c : CommitNode} (hc : IsStored db c) (r : ReferencedHashes)
    (h : MerkleHash) :
    h ∈ (collectCommit db fuel r c).nodes ↔ h ∈ r.nodes ∨ h ∈ TreeHashes db c.hash := by
  rw [collectCommit, getRootWithChildren_eq hc]
  simp only [collectNodeHashes_eq, mem_nodes_foldl_insert, hload (.commit c) rfl, or_and_right,
    exists_or, exists_eq_left]
  apply or_congr_right
  apply or_congr_left
  exact eq_comm

theorem mem_versions_collectCommit {c : CommitNode} (hc : IsStored db c) (r : ReferencedHashes)
    (h : MerkleHash) :
    h ∈ (collectCommit db fuel r c).versions ↔ h ∈ r.versions ∨ h ∈ TreeFiles db c.hash := by
  rw [collectCommit, getRootWithChildren_eq hc]
  simp only [collectNodeHashes_eq, mem_versions_foldl_insert, hload (.commit c) rfl,
    reduceCtorEq, false_or]
  rfl

theorem mem_foldl_collectCommit (commits : List CommitNode) (hs : ∀ c ∈ commits, IsStored db c)
    (r : ReferencedHashes) (h : MerkleHash) :
    (h ∈ (commits.foldl (collectCommit db fuel) r).nodes ↔
      h ∈ r.nodes ∨ ∃ c ∈ commits, h ∈ TreeHashes db c.hash) ∧
    (h ∈ (commits.foldl (collectCommit db fuel) r).versions ↔
      h ∈ r.versions ∨ ∃ c ∈ commits, h ∈ TreeFiles db c.hash) := by
  induction commits generalizing r with
  | nil => simp
  | cons c commits ih =>
    have hc := hs c List.mem_cons_self
    rcases ih (fun d hd => hs d (List.mem_cons_of_mem _ hd)) (collectCommit db fuel r c) with
      ⟨hnodes, hversions⟩
    rw [List.foldl_cons, hnodes, hversions, mem_nodes_collectCommit hload hc,
      mem_versions_collectCommit hload hc]
    simp only [List.mem_cons, exists_eq_or_imp, or_assoc, and_self]

end Collected

/-- The collected hashes are those of the trees of the branches. -/
theorem collectReferencedHashes_returns (hk : repo.db.Keyed)
    (hn : repo.nodes.keys.length ≤ usizeMax) :
    ∃ bound, ∀ fuel, bound ≤ fuel → ∃ referenced,
      collectReferencedHashes repo fuel = some referenced ∧
      ∀ h, (h ∈ referenced.nodes ↔ h ∈ repo.BranchNodes) ∧
        (h ∈ referenced.versions ↔ h ∈ repo.BranchFiles) := by
  rcases listAll_returns hk hn with ⟨bound, hlist⟩
  rcases exists_fuel_loadedTree repo.db with ⟨bound', hload⟩
  refine ⟨max bound bound', fun fuel hf => ?_⟩
  rcases hlist fuel (le_trans (le_max_left _ _) hf) with ⟨commits, hrun, hmem⟩
  have hstored : ∀ id ∈ repo.BranchCommits, ∃ c ∈ commits, c.hash = id := by
    rintro id ⟨name, commitId, hl, commit, hg, hr⟩
    rcases isStored_of_reaches_parents hk (isStored_of_getById hk hg) hr with ⟨c, hc, rfl⟩
    exact ⟨c, (hmem c).mpr ⟨⟨name, commitId, hl, commit, hg, hr⟩, hc⟩, rfl⟩
  refine ⟨_, by rw [collectReferencedHashes, hrun, Option.map_some], fun h => ?_⟩
  rcases mem_foldl_collectCommit (hload fuel (le_trans (le_max_right _ _) hf) []) commits
    (fun c hc => ((hmem c).mp hc).2) {} h with ⟨hnodes, hversions⟩
  rw [hnodes, hversions]
  have hbranches : ∀ S : MerkleHash → Set MerkleHash,
      (h ∈ ([] : List MerkleHash) ∨ ∃ c ∈ commits, h ∈ S c.hash) ↔
        ∃ id ∈ repo.BranchCommits, h ∈ S id := by
    intro S
    constructor
    · rintro (h0 | ⟨c, hc, h⟩)
      · simp at h0
      · exact ⟨c.hash, ((hmem c).mp hc).1, h⟩
    · rintro ⟨id, hid, h⟩
      rcases hstored id hid with ⟨c, hc, rfl⟩
      exact Or.inr ⟨c, hc, h⟩
  exact ⟨hbranches _, hbranches _⟩

/-! ## What is left -/

theorem lookup_pruneNodes (nodes : KeyedMap.Map MerkleHash NodeDb) (referenced : List MerkleHash)
    (stats : PruneStats) (h : MerkleHash) :
    (pruneNodes nodes referenced stats false).1.lookup h =
      if h ∈ referenced then nodes.lookup h else none := by
  rw [pruneNodes, KeyedMap.lookup_foldl_erase (· ∈ referenced)
    (fun s k => by rw [pruneNode]; split <;> simp)]
  by_cases hr : h ∈ referenced
  · simp [hr]
  · by_cases hk : h ∈ nodes
    · simp [hr, AList.mem_keys.mp hk]
    · simp [hr, AList.lookup_eq_none.mpr hk]

theorem lookup_pruneVersions (versions : KeyedMap.Map MerkleHash VersionDir)
    (referenced : List MerkleHash) (stats : PruneStats) (h : MerkleHash) :
    (pruneVersions versions referenced stats false).1.lookup h =
      if h ∈ referenced then versions.lookup h else none := by
  rw [pruneVersions, KeyedMap.lookup_foldl_erase (· ∈ referenced)
    (fun s k => by rw [pruneVersion]; split <;> simp)]
  by_cases hr : h ∈ referenced
  · simp [hr]
  · by_cases hk : h ∈ versions
    · simp [hr, AList.mem_keys.mp hk]
    · simp [hr, AList.lookup_eq_none.mpr hk]

open Classical in
/-- Exactly what the branches refer to is left. -/
theorem prune_returns (hk : repo.db.Keyed) (hn : repo.nodes.keys.length ≤ usizeMax) :
    ∃ bound, ∀ fuel, bound ≤ fuel → ∃ stats after, prune repo fuel false = some (stats, after) ∧
      ∀ h, after.nodes.lookup h = (if h ∈ repo.BranchNodes then repo.nodes.lookup h else none) ∧
        after.versions.lookup h =
          if h ∈ repo.BranchFiles then repo.versions.lookup h else none := by
  rcases collectReferencedHashes_returns hk hn with ⟨bound, hcollect⟩
  refine ⟨bound, fun fuel hf => ?_⟩
  rcases hcollect fuel hf with ⟨referenced, hrun, hmem⟩
  refine ⟨_, _, by rw [prune, hrun, Option.map_some], fun h => ?_⟩
  simp only [lookup_pruneNodes, lookup_pruneVersions, (hmem h).1, (hmem h).2, and_self]

/-- A dry run only counts. -/
theorem prune_dryRun {fuel : ℕ} {stats : PruneStats} {after : PrunableRepository}
    (h : prune repo fuel true = some (stats, after)) : after = repo := by
  have hnodes : ∀ (referenced keys : List MerkleHash) (s : KeyedMap.Map MerkleHash NodeDb × PruneStats),
      (keys.foldl (pruneNode referenced true) s).1 = s.1 := by
    intro referenced keys
    induction keys with
    | nil => intro s; rfl
    | cons key keys ih =>
      intro s
      rw [List.foldl_cons, ih, pruneNode]
      split <;> simp
  have hversions : ∀ (referenced keys : List MerkleHash) (s : KeyedMap.Map MerkleHash VersionDir × PruneStats),
      (keys.foldl (pruneVersion referenced true) s).1 = s.1 := by
    intro referenced keys
    induction keys with
    | nil => intro s; rfl
    | cons key keys ih =>
      intro s
      rw [List.foldl_cons, ih, pruneVersion]
      split <;> simp
  rw [prune] at h
  rcases Option.map_eq_some_iff.mp h with ⟨referenced, -, heq⟩
  obtain ⟨-, rfl⟩ := Prod.mk.inj heq
  simp only [hnodes, hversions]

/-- The nodes and versions that a branch, HEAD, a workspace or a staged file needs are
left as they are. -/
structure PruneKeeps (before after : PrunableRepository) : Prop where
  nodes : ∀ id ∈ before.BranchCommits ∪ before.OtherCommits,
    ∀ h, Reaches (childHashes before.db) id h → after.nodes.lookup h = before.nodes.lookup h
  versions : ∀ id ∈ before.BranchCommits ∪ before.OtherCommits,
    ∀ h ∈ TreeFiles before.db id, after.versions.lookup h = before.versions.lookup h
  staged : ∀ h ∈ before.StagedVersions, after.versions.lookup h = before.versions.lookup h

/-- What is stored of what HEAD, the workspaces and the staged files need is in the tree of
some commit of a branch. -/
structure BranchesCover (repo : PrunableRepository) : Prop where
  nodes : ∀ id ∈ repo.OtherCommits, ∀ h, Reaches (childHashes repo.db) id h → h ∈ repo.nodes →
    h ∈ repo.BranchNodes
  versions : ∀ id ∈ repo.OtherCommits, ∀ h ∈ TreeFiles repo.db id, h ∈ repo.versions →
    h ∈ repo.BranchFiles
  staged : ∀ h ∈ repo.StagedVersions, h ∈ repo.versions → h ∈ repo.BranchFiles

theorem mem_treeHashes_of_reaches {db : NodeStore} {id h : MerkleHash}
    (hr : Reaches (childHashes db) id h) : h ∈ TreeHashes db id := by
  rcases Relation.ReflTransGen.cases_tail hr with rfl | ⟨c, hc, hstep⟩
  · exact Or.inl rfl
  · rcases List.mem_map.mp hstep with ⟨n, hn, rfl⟩
    exact Or.inr ⟨n, ⟨c, hc, (List.mem_filter.mp hn).1⟩, rfl⟩

open Classical in
/-- An entry survives exactly if it is kept or was never there. -/
theorem ite_lookup_eq_iff {β : Type*} (m : KeyedMap.Map MerkleHash β) (S : Set MerkleHash)
    (h : MerkleHash) :
    (if h ∈ S then m.lookup h else none) = m.lookup h ↔ (h ∈ m → h ∈ S) := by
  by_cases hs : h ∈ S
  · simp [hs]
  · simp only [hs, if_false]
    rw [eq_comm, AList.lookup_eq_none]

open Classical in
theorem pruneKeeps_iff_of_lookup {after : PrunableRepository}
    (hafter : ∀ h,
      after.nodes.lookup h = (if h ∈ repo.BranchNodes then repo.nodes.lookup h else none) ∧
      after.versions.lookup h =
        if h ∈ repo.BranchFiles then repo.versions.lookup h else none) :
    PruneKeeps repo after ↔ BranchesCover repo := by
  have hnode : ∀ h, after.nodes.lookup h = repo.nodes.lookup h ↔
      (h ∈ repo.nodes → h ∈ repo.BranchNodes) := fun h => by
    rw [(hafter h).1, ite_lookup_eq_iff]
  have hversion : ∀ h, after.versions.lookup h = repo.versions.lookup h ↔
      (h ∈ repo.versions → h ∈ repo.BranchFiles) := fun h => by
    rw [(hafter h).2, ite_lookup_eq_iff]
  constructor
  · intro hkeeps
    constructor
    · intro id hid h hr
      exact (hnode h).mp (hkeeps.nodes id (Or.inr hid) h hr)
    · intro id hid h hf
      exact (hversion h).mp (hkeeps.versions id (Or.inr hid) h hf)
    · intro h hs
      exact (hversion h).mp (hkeeps.staged h hs)
  · intro hcover
    constructor
    · rintro id (hid | hid) h hr
      · exact (hnode h).mpr fun _ => ⟨id, hid, mem_treeHashes_of_reaches hr⟩
      · exact (hnode h).mpr (hcover.nodes id hid h hr)
    · rintro id (hid | hid) h hf
      · exact (hversion h).mpr fun _ => ⟨id, hid, hf⟩
      · exact (hversion h).mpr (hcover.versions id hid h hf)
    · intro h hs
      exact (hversion h).mpr (hcover.staged h hs)

/-- The kept commits load as before. -/
theorem PruneKeeps.loadedTree_eq {after : PrunableRepository} (h : PruneKeeps repo after)
    {id : MerkleHash} (hid : id ∈ repo.BranchCommits ∪ repo.OtherCommits) (fuel : ℕ)
    (path : PathBuf) (n : EMerkleTreeNode) (hn : Reaches (childHashes repo.db) id n.hash) :
    loadChildrenAndCollectPartialNodes after.db [] fuel path n =
      loadChildrenAndCollectPartialNodes repo.db [] fuel path n := by
  induction fuel generalizing path n with
  | zero => rfl
  | succ fuel ih =>
    have hrecord : after.db n.hash = repo.db n.hash := h.nodes id hid n.hash hn
    have hread : after.db.readChildrenFromHash n.hash = repo.db.readChildrenFromHash n.hash := by
      rw [NodeStore.readChildrenFromHash, NodeStore.readChildrenFromHash, hrecord]
    have hchildren : ∀ c ∈ repo.db.readChildrenFromHash n.hash,
        loadChild (loadChildrenAndCollectPartialNodes after.db [] fuel) path c =
          loadChild (loadChildrenAndCollectPartialNodes repo.db [] fuel) path c := by
      intro c hc
      cases c with
      | file f => rfl
      | directory d => exact ih _ _ (hn.tail (mem_childHashes hc rfl))
      | vnode v => exact ih _ _ (hn.tail (mem_childHashes hc rfl))
      | commit k => exact ih _ _ (hn.tail (mem_childHashes hc rfl))
    rw [loadChildrenAndCollectPartialNodes, loadChildrenAndCollectPartialNodes, hread]
    simp only [List.map_congr_left hchildren]

/-- A database whose entries are under the ids of their commits. -/
theorem keyed_of_toList
    (h : (KeyedMap.toList repo.nodes).all fun entry =>
      entry.2.node.commit?.all (·.hash = entry.1)) : repo.db.Keyed := by
  intro id commit hg
  rw [getByHash] at hg
  split at hg
  · next hl =>
    have hentry := List.all_eq_true.mp h _ (KeyedMap.mem_toList.mpr hl)
    rw [← Option.some.inj hg]
    simpa [EMerkleTreeNode.commit?] using hentry
  · cases hg

/-- Pruning is safe exactly if the branches cover what else is in use. -/
theorem prune_keeps_iff (hk : repo.db.Keyed) (hn : repo.nodes.keys.length ≤ usizeMax) :
    ∃ bound, ∀ fuel, bound ≤ fuel → ∃ stats after, prune repo fuel false = some (stats, after) ∧
      (PruneKeeps repo after ↔ BranchesCover repo) := by
  rcases prune_returns hk hn with ⟨bound, h⟩
  refine ⟨bound, fun fuel hf => ?_⟩
  rcases h fuel hf with ⟨stats, after, hrun, hafter⟩
  exact ⟨stats, after, hrun, pruneKeeps_iff_of_lookup hafter⟩

namespace PruneExample

private def stagedFile : StagedMerkleTreeNode :=
  { status := .added, node := .file { name := ["a.txt"], hash := 7, numBytes := 1 } }

private def rootOf (hash : MerkleHash) : EMerkleTreeNode :=
  .directory { name := [], hash }

private def commitAt (id root : MerkleHash) (parentIds : List MerkleHash) : NodeDb :=
  { node := .commit { hash := id, parentIds }, children := [rootOf root] }

/-- A first file is staged, and nothing is committed yet. -/
private def beforeFirstCommit : PrunableRepository :=
  { versions := KeyedMap.insertAll ∅ [(7, { data := some [1] })]
    refs := { headFile := some "main" }
    staged := KeyedMap.insertAll ∅ [(["a.txt"], stagedFile)] }

/-- The commit `2` is checked out, and the branch is still at its parent. -/
private def detached : PrunableRepository :=
  { nodes := KeyedMap.insertAll ∅
      [(1, commitAt 1 3 []), (3, { node := rootOf 3 }),
        (2, commitAt 2 4 [1]), (4, { node := rootOf 4 })]
    refs := { headFile := some "2", branches := KeyedMap.insertAll ∅ [("main", "1")] } }

/-- The branch is checked out, and a node and a version are in no commit. -/
private def attached : PrunableRepository :=
  { detached with
    versions := KeyedMap.insertAll ∅ [(7, { data := some [1] })]
    refs := { headFile := some "main", branches := KeyedMap.insertAll ∅ [("main", "1")] } }

private theorem keyed_detached : detached.db.Keyed :=
  keyed_of_toList (by decide)

/-- HEAD is at the branch, which covers all it needs. -/
private theorem branchesCover_attached : BranchesCover attached := by
  have hother : attached.OtherCommits ⊆ attached.BranchCommits := by
    rintro id (⟨commitId, hc, hid⟩ | ⟨workspace, hw, -⟩)
    · have hhead : attached.refs.headCommitId attached.db = some "1" := by decide
      obtain rfl := Option.some.inj (hhead.symm.trans hc)
      exact ⟨"main", "1", by decide, hid⟩
    · simp [attached, detached] at hw
  refine ⟨fun id hid h hr _ => ?_, fun id hid h hf _ => ?_, ?_⟩
  · exact ⟨id, hother hid, mem_treeHashes_of_reaches hr⟩
  · exact ⟨id, hother hid, hf⟩
  · rintro h ⟨staged, rfl | ⟨workspace, hw, -⟩, path, entry, hl, -⟩
    · simp [attached, detached] at hl
    · simp [attached, detached] at hw

theorem prune_keeps_attached :
    ∃ bound, ∀ fuel, bound ≤ fuel → ∃ stats after,
      prune attached fuel false = some (stats, after) ∧ PruneKeeps attached after := by
  rcases @prune_keeps_iff attached (keyed_of_toList (by decide))
    (by decide) with ⟨bound, h⟩
  refine ⟨bound, fun fuel hf => ?_⟩
  rcases h fuel hf with ⟨stats, after, hrun, hiff⟩
  exact ⟨stats, after, hrun, hiff.mpr branchesCover_attached⟩

private theorem not_branchesCover_beforeFirstCommit : ¬ BranchesCover beforeFirstCommit := by
  intro h
  have hstaged : (7 : MerkleHash) ∈ beforeFirstCommit.StagedVersions :=
    ⟨_, Or.inl rfl, ["a.txt"], stagedFile, by decide, by decide, _, rfl, rfl⟩
  rcases h.staged 7 hstaged (by decide) with ⟨id, ⟨name, commitId, hl, -⟩, -⟩
  simp [beforeFirstCommit] at hl

/-- What the branch of the repository reaches. -/
private theorem branchNodes_detached {h : MerkleHash} (hh : h ∈ detached.BranchNodes) :
    h ∈ [(1 : MerkleHash), 3] := by
  rcases hh with ⟨id, ⟨name, commitId, hl, commit, hg, hr⟩, ht⟩
  have hbranch : (name, commitId) ∈ [("main", "1")] := by
    have hm := KeyedMap.mem_of_lookup_insertAll hl
    simpa using hm
  obtain ⟨rfl, rfl⟩ : name = "main" ∧ commitId = "1" := by simpa using hbranch
  have hcommit : getById detached.db "1" = some { hash := 1 } := by decide
  obtain rfl := Option.some.inj (hcommit.symm.trans hg)
  have hid : id ∈ [(1 : MerkleHash)] :=
    Reaches.mem_of_closed hr (List.mem_singleton_self _) (by decide)
  obtain rfl := List.mem_singleton.mp hid
  have hclosed : ∀ c, Reaches (childHashes detached.db) 1 c → c ∈ [(1 : MerkleHash), 3] :=
    fun c hc => Reaches.mem_of_closed hc List.mem_cons_self (by decide)
  rcases ht with rfl | ⟨n, ⟨c, hc, hn⟩, rfl⟩
  · exact List.mem_cons_self
  · have hall : [(1 : MerkleHash), 3].all fun c =>
        (detached.db.readChildrenFromHash c).all fun n => n.hash ∈ [(1 : MerkleHash), 3] := by
      decide
    have hnodes := List.all_eq_true.mp hall c (hclosed c hc)
    exact of_decide_eq_true (List.all_eq_true.mp hnodes n hn)

private theorem not_branchesCover_detached : ¬ BranchesCover detached := by
  intro h
  have hother : (2 : MerkleHash) ∈ detached.OtherCommits :=
    Or.inl ⟨"2", by decide, { hash := 2, parentIds := [1] }, by decide, .refl⟩
  have hbranch := branchNodes_detached (h.nodes 2 hother 2 .refl (by decide))
  exact absurd hbranch (by decide)

theorem not_prune_keeps :
    (∃ bound, ∀ fuel, bound ≤ fuel → ∃ stats after,
      prune beforeFirstCommit fuel false = some (stats, after) ∧
        ¬ PruneKeeps beforeFirstCommit after) ∧
    ∃ bound, ∀ fuel, bound ≤ fuel → ∃ stats after,
      prune detached fuel false = some (stats, after) ∧ ¬ PruneKeeps detached after := by
  have hfails : ∀ repo : PrunableRepository, repo.db.Keyed → repo.nodes.keys.length ≤ usizeMax →
      ¬ BranchesCover repo → ∃ bound, ∀ fuel, bound ≤ fuel → ∃ stats after,
        prune repo fuel false = some (stats, after) ∧ ¬ PruneKeeps repo after := by
    intro repo hk hn hcover
    rcases prune_returns hk hn with ⟨bound, h⟩
    refine ⟨bound, fun fuel hf => ?_⟩
    rcases h fuel hf with ⟨stats, after, hrun, hafter⟩
    exact ⟨stats, after, hrun, fun hkeeps =>
      hcover ((pruneKeeps_iff_of_lookup hafter).mp hkeeps)⟩
  exact ⟨hfails _ (keyed_of_toList (by decide)) (by decide)
      not_branchesCover_beforeFirstCommit,
    hfails _ keyed_detached (by decide) not_branchesCover_detached⟩

end PruneExample

end Oxen
