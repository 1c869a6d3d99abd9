import Oxen.Model.TreeNodes
import Oxen.Verification.Tree.Occurs

/-! Hashes collected from the trees of several commits, each tree once. -/

namespace Oxen

open MerkleTreeNode

variable {db : NodeStore} {seen : List MerkleHash} {t : MerkleTreeNode} {hash : MerkleHash}

/-- With a container, the hashes have all containers below it. -/
def Closed (db : NodeStore) (seen : List MerkleHash) : Prop :=
  ∀ t : MerkleTreeNode, t.Stored db → t.node.hasChildren = true → t.hash ∈ seen →
    ∀ h ∈ t.containerHashes, h ∈ seen

theorem Closed.nil (db : NodeStore) : Closed db [] := by
  intro t _ _ h
  cases h

/-- A node below a stored tree is in the open or below a seen container. -/
theorem occurs_or_seen (seen : List MerkleHash) (ht : t.Stored db) {path q : PathBuf}
    {s : MerkleTreeNode} (hs : (q, s) ∈ t.subtrees path) :
    Occurs (fun _ n => n.hasChildren = true ∧ n.hash ∉ seen) path t q s ∨
      ∃ (r : PathBuf) (u : MerkleTreeNode), u.Stored db ∧ u.node.hasChildren = true ∧
        u.hash ∈ seen ∧ (q, s) ∈ u.subtrees r := by
  rcases occurs_or_hidden (fun _ n => n.hasChildren = true ∧ n.hash ∉ seen) hs with
    ho | ⟨r, u, hu, hpass, hne, hsu⟩
  · exact .inl ho
  · have hustored := ht.of_mem_subtrees hu
    have huc : u.node.hasChildren = true := by
      obtain ⟨n, cs⟩ := u
      cases n with
      | file f => exact absurd ((stored_file db f cs).mp hustored) hne
      | directory d => rfl
      | vnode v => rfl
      | commit c => rfl
    refine .inr ⟨r, u, hustored, huc, ?_, hsu⟩
    by_contra hnot
    exact hpass ⟨huc, hnot⟩

theorem Closed.occurs (hseen : Closed db seen) (ht : t.Stored db) {path q : PathBuf}
    {s : MerkleTreeNode} (hs : (q, s) ∈ t.subtrees path) (hc : s.node.hasChildren = true)
    (hnot : s.hash ∉ seen) :
    Occurs (fun _ n => n.hasChildren = true ∧ n.hash ∉ seen) path t q s := by
  apply (occurs_or_seen seen ht hs).resolve_right
  rintro ⟨r, u, hu, huc, huseen, hsu⟩
  exact hnot (hseen u hu huc huseen _ ((mem_containerHashes_iff r).mpr ⟨q, s, hsu, hc, rfl⟩))

/-- A load that stops at seen containers misses nothing that is not seen. -/
theorem Closed.mem_uniqueHashes_iff (hseen : Closed db seen) (ht : t.Stored db) (path : PathBuf) :
    hash ∈ (t.loaded seen path).uniqueHashes ↔ hash ∈ t.containerHashes ∧ hash ∉ seen := by
  simp only [loaded, List.mem_filter, decide_eq_true_eq]
  constructor
  · exact fun h => ⟨mem_containerHashes_of_prune h.1, h.2⟩
  · rintro ⟨hmem, hnot⟩
    refine ⟨?_, hnot⟩
    obtain ⟨p, s, hs, hc, rfl⟩ := (mem_containerHashes_iff []).mp hmem
    exact (mem_containerHashes_iff []).mpr
      ⟨p, s.prune seen, (hseen.occurs ht hs hc hnot).mem_subtrees_prune, by simpa using hc, by simp⟩

theorem Closed.append (hseen : Closed db seen) (ht : t.Stored db) (path : PathBuf) :
    Closed db (seen ++ (t.loaded seen path).uniqueHashes) := by
  intro u hu huc hmem h hh
  rw [List.mem_append] at hmem ⊢
  by_cases hseenh : h ∈ seen
  · exact .inl hseenh
  rcases hmem with hmem | hmem
  · exact .inl (hseen u hu huc hmem h hh)
  · right
    rw [hseen.mem_uniqueHashes_iff ht] at hmem ⊢
    refine ⟨?_, hseenh⟩
    obtain ⟨p, s, hs, hsc, heq⟩ := (mem_containerHashes_iff []).mp hmem.1
    obtain rfl : s = u := (ht.of_mem_subtrees hs).eq_of_hash hu hsc huc heq
    obtain ⟨q, v, hv, hvc, hvh⟩ := (mem_containerHashes_iff p).mp hh
    exact (mem_containerHashes_iff []).mpr ⟨q, v, mem_subtrees_trans hs hv, hvc, hvh⟩

/-! ## The trees of commits -/

/-- A tree of the commit, which the index of the commit leads to. -/
structure IsTreeOf (dirHashes : MerkleHash → DirHashes) (commit : CommitNode) (t : CommitTree db) :
    Prop where
  commit_eq : t.commit = commit
  root : ∀ c ∈ t.children, (dirHashes commit.hash).lookup [] = some c.hash

/-- Every commit has its whole tree in the database. -/
def HasTrees (db : NodeStore) (dirHashes : MerkleHash → DirHashes) : Prop :=
  ∀ id commit, Commits.getByHash db id = some commit →
    ∃ t : CommitTree db, IsTreeOf dirHashes commit t

/-- The directories and virtual nodes of a commit's tree. -/
def DirNodes (db : NodeStore) (id : MerkleHash) : Set MerkleHash :=
  {h | ∃ t : CommitTree db, t.id = id ∧ ∃ c ∈ t.children, h ∈ c.containerHashes}

variable {dirHashes : MerkleHash → DirHashes} {commit : CommitNode} {fuel : ℕ}

theorem CommitTree.tree_eq_of_id {s t : CommitTree db} (h : s.id = t.id) : s.tree = t.tree :=
  s.stored_tree.eq_of_hash t.stored_tree rfl rfl h

theorem mem_dirNodes_iff {t : CommitTree db} :
    hash ∈ DirNodes db t.id ↔ ∃ c ∈ t.children, hash ∈ c.containerHashes := by
  constructor
  · rintro ⟨s, hid, hs⟩
    have hchildren : s.children = t.children := (mk.inj (CommitTree.tree_eq_of_id hid)).2
    rwa [hchildren] at hs
  · exact fun h => ⟨t, rfl, h⟩

theorem isSome_of_mem_dirNodes {id : MerkleHash} (h : hash ∈ DirNodes db id) :
    (db hash).isSome := by
  obtain ⟨t, -, c, hc, hmem⟩ := h
  obtain ⟨p, ⟨n, cs⟩, hu, huc, rfl⟩ := (mem_containerHashes_iff []).mp hmem
  obtain ⟨⟨record, hrecord, -⟩, -⟩ :=
    (stored_container huc cs).mp ((t.stored_tree.child c hc).of_mem_subtrees hu)
  exact Option.isSome_of_eq_some hrecord

/-- No commit is below the root of a tree. -/
theorem id_notMem_dirNodes (t : CommitTree db) (id : MerkleHash) : t.id ∉ DirNodes db id := by
  rintro ⟨s, rfl, c, hc, hmem⟩
  obtain ⟨p, u, hu, huc, hh⟩ := (mem_containerHashes_iff []).mp hmem
  have hchild : ([], c) ∈ s.tree.subtrees [] :=
    child_mem_subtrees (self_mem_subtrees [] s.tree) hc
  obtain rfl : u = t.tree := by
    have hus := s.stored_tree.of_mem_subtrees (mem_subtrees_trans hchild hu)
    exact hus.eq_of_hash t.stored_tree huc rfl hh
  rcases mem_subtrees_cases hu with hroot | ⟨q, n, ds, hq, hds, -⟩
  · obtain ⟨-, rfl⟩ := Prod.mk.inj hroot
    exact s.not_commit_child (self_mem_subtrees [] s.tree) hc
  · exact s.not_commit_child (mem_subtrees_trans hchild hq) hds

/-- With enough fuel, a commit's tree is loaded from its root directory down. -/
theorem exists_loadChildren {t : CommitTree db} (ht : IsTreeOf dirHashes commit t)
    (hf : t.tree.size ≤ fuel) (seen : List MerkleHash) :
    ∃ root nodeHash record, t.children = [root] ∧ root.Stored db ∧ root.node.hasChildren = true ∧
      (dirHashes commit.hash).lookup [] = some nodeHash ∧ db nodeHash = some record ∧
      loadChildren db seen fuel record.node =
        { root.loaded seen [] with partialNodes := [], panicked := false } := by
  obtain ⟨d, vnodes, hchildren, hname⟩ := t.exists_root
  have hroot : (mk (.directory d) vnodes).Stored db :=
    t.stored_tree.child _ (by rw [hchildren]; simp)
  obtain ⟨⟨record, hrecord, hnode, -⟩, -⟩ := (stored_container rfl _).mp hroot
  have hlookup := ht.root _ (hchildren ▸ List.mem_singleton_self _)
  have hsize : (mk (.directory d) vnodes).size ≤ fuel := by
    rw [CommitTree.tree, hchildren, size_mk] at hf
    simp only [List.map_cons, List.map_nil, List.sum_cons, List.sum_nil] at hf
    omega
  have hpath : (EMerkleTreeNode.directory d).ownPath [] = [] := by
    simp [EMerkleTreeNode.ownPath, hname]
  have hload := loadChildren_of_stored hroot rfl seen [] hsize
  rw [node_mk, hpath] at hload
  exact ⟨_, _, record, hchildren, hroot, rfl, hlookup, hrecord, by rw [hnode, loadChildren, hload]⟩

theorem collectHashes_eq {t : CommitTree db} (ht : IsTreeOf dirHashes commit t)
    (hf : t.tree.size ≤ fuel) (seen : List MerkleHash) :
    TreeNodes.readDepthFromPathAndCollectHashes db dirHashes fuel commit seen =
      t.children.flatMap fun c => (c.loaded seen []).uniqueHashes := by
  obtain ⟨root, nodeHash, record, hchildren, -, -, hlookup, hrecord, hload⟩ :=
    exists_loadChildren ht hf seen
  simp only [TreeNodes.readDepthFromPathAndCollectHashes, hlookup, hrecord, hload, hchildren,
    List.flatMap_singleton]

theorem mem_collectHashes_iff {t : CommitTree db} (ht : IsTreeOf dirHashes commit t)
    (hseen : Closed db seen) (hf : t.tree.size ≤ fuel) :
    hash ∈ TreeNodes.readDepthFromPathAndCollectHashes db dirHashes fuel commit seen ↔
      hash ∈ DirNodes db commit.hash ∧ hash ∉ seen := by
  have hid : commit.hash = t.id := by rw [← ht.commit_eq]; rfl
  obtain ⟨d, vnodes, hchildren, -⟩ := t.exists_root
  have hroot : (mk (.directory d) vnodes).Stored db :=
    t.stored_tree.child _ (by rw [hchildren]; simp)
  rw [collectHashes_eq ht hf, hid, mem_dirNodes_iff, hchildren, List.flatMap_singleton,
    hseen.mem_uniqueHashes_iff hroot]
  simp

theorem Closed.collectHashes {t : CommitTree db} (ht : IsTreeOf dirHashes commit t)
    (hseen : Closed db seen) (hf : t.tree.size ≤ fuel) :
    Closed db (seen ++ TreeNodes.readDepthFromPathAndCollectHashes db dirHashes fuel commit seen) := by
  obtain ⟨d, vnodes, hchildren, -⟩ := t.exists_root
  have hroot : (mk (.directory d) vnodes).Stored db :=
    t.stored_tree.child _ (by rw [hchildren]; simp)
  rw [collectHashes_eq ht hf, hchildren, List.flatMap_singleton]
  exact hseen.append hroot []

/-! ## Databases that hold the trees of some commits -/

/-- Trees of commits that fit into one database. -/
def Forest (trees : List MerkleTreeNode) : Prop :=
  ∀ t ∈ trees, t.Stored (NodeStore.ofTrees trees) ∧
    (∀ s ∈ t.subtrees [], s.2.localShape) ∧
    ∀ s ∈ t.subtrees [], s.2.node.commit? = none ∨ s.2.node ∈ trees.map node

instance (trees : List MerkleTreeNode) : Decidable (Forest trees) :=
  inferInstanceAs (Decidable (∀ t ∈ trees, _))

variable {trees : List MerkleTreeNode} {id : MerkleHash}

theorem Forest.exists_mem (h : Forest trees)
    (hget : Commits.getByHash (NodeStore.ofTrees trees) id = some commit) :
    commit.hash = id ∧ ∃ cs, mk (.commit commit) cs ∈ trees := by
  rw [Commits.getByHash] at hget
  split at hget
  · next c parentId children hrecord =>
    obtain rfl := Option.some.inj hget
    rw [NodeStore.ofTrees] at hrecord
    have hid := List.find?_some hrecord
    rw [decide_eq_true_eq] at hid
    refine ⟨hid, ?_⟩
    obtain ⟨s, hs, hrec⟩ := List.mem_map.mp (List.mem_of_find?_eq_some hrecord)
    have hnode : s.node = .commit c := (NodeDb.mk.inj hrec).1
    obtain ⟨⟨p, s⟩, hsub, rfl⟩ := List.mem_map.mp (List.mem_of_mem_filter hs)
    obtain ⟨t, ht, hsub⟩ := List.mem_flatMap.mp hsub
    rcases (h t ht).2.2 _ hsub with hnone | hmem
    · dsimp only at hnone hnode
      rw [hnode] at hnone
      cases hnone
    · obtain ⟨⟨n, cs⟩, hu, hun⟩ := List.mem_map.mp hmem
      dsimp only at hun hnode
      rw [node_mk] at hun
      rw [hun, hnode] at hu
      exact ⟨cs, hu⟩
  · cases hget

theorem Forest.hasTrees (h : Forest trees)
    (hroot : ∀ t ∈ trees, ∀ c ∈ t.children, (dirHashes t.hash).lookup [] = some c.hash) :
    HasTrees (NodeStore.ofTrees trees) dirHashes := by
  intro id commit hget
  obtain ⟨-, cs, hmem⟩ := h.exists_mem hget
  exact ⟨⟨commit, cs, (h _ hmem).1, (h _ hmem).2.1⟩, rfl, hroot _ hmem⟩

/-- The database has no other trees. -/
theorem Forest.tree_mem (h : Forest trees) (t : CommitTree (NodeStore.ofTrees trees)) :
    t.tree ∈ trees := by
  obtain ⟨⟨record, hrecord, hnode, -⟩, -⟩ := (stored_container rfl _).mp t.stored
  have hget : Commits.getByHash (NodeStore.ofTrees trees) t.id = some t.commit := by
    have hrec : NodeStore.ofTrees trees t.id = some record := hrecord
    obtain ⟨n, parentId, children⟩ := record
    obtain rfl : n = .commit t.commit := hnode
    rw [Commits.getByHash, hrec]
  obtain ⟨-, cs, hmem⟩ := h.exists_mem hget
  have heq : t.tree = mk (.commit t.commit) cs :=
    t.stored_tree.eq_of_hash (h _ hmem).1 rfl rfl rfl
  exact heq ▸ hmem

end Oxen
