import Oxen.Model.Merge
import Oxen.Verification.Tree.FileMap

/-! The trees of a merge as they are loaded, and what their pruned views hide. -/

namespace Oxen

open MerkleTreeNode

variable {db : NodeStore} (L : Option (CommitTree db)) (B M : CommitTree db)

def mergeCommits : MergeCommits where
  lca := L.map (·.id)
  base := B.id
  merge := M.id

def lcaHashes : List MerkleHash :=
  (L.map (·.tree.containerHashes)).getD []

/-- The containers of the base tree that its load goes through. -/
def baseHashes : List MerkleHash :=
  (B.tree.loaded (lcaHashes L) []).uniqueHashes

def mergeTrees : MergeTrees where
  lca := L.map fun l => { tree := l.tree, uniqueHashes := l.tree.containerHashes }
  base := { B.tree.loaded (lcaHashes L) [] with partialNodes := [], panicked := false }
  merge := { M.tree.loaded (baseHashes L B) [] with partialNodes := [], panicked := false }

/-- What the base view hides: containers of the ancestor, and containers that
were found to be shared. -/
def baseHidden : List MerkleHash :=
  lcaHashes L ++ (mergeTrees L B M).sharedHashes

def mergeHidden : List MerkleHash :=
  baseHashes L B ++ (mergeTrees L B M).sharedHashes

def lcaFiles : KeyedMap.Map PathBuf FileNode :=
  (L.map (·.fileMap)).getD ∅

theorem loadMergeTrees_eq {fuel : ℕ} (hL : ∀ l, L = some l → l.tree.size ≤ fuel)
    (hB : B.tree.size ≤ fuel) (hM : M.tree.size ≤ fuel) :
    loadMergeTrees db fuel (mergeCommits L B M) = some (mergeTrees L B M) := by
  have hlca : (L.map (·.id)).bind (rootWithChildrenAndNodeHashes db [] fuel) =
      (mergeTrees L B M).lca := by
    cases L with
    | none => rfl
    | some l =>
        rw [Option.map_some, Option.bind_some, l.load_nodeHashes [] (hL l rfl)]
        simp [mergeTrees, loaded, l.stored_tree.prune_nil]
  have hhashes : ((mergeTrees L B M).lca.map (·.uniqueHashes)).getD [] = lcaHashes L := by
    cases L <;> rfl
  simp only [loadMergeTrees, mergeCommits, hlca, hhashes, B.load_nodeHashes _ hB,
    M.load_nodeHashes _ hM, Option.bind_eq_bind, Option.bind_some]
  rfl

theorem mergeContext_eq (host : Host) (dirHashes : MerkleHash → DirHashes) :
    mergeContext host db dirHashes (mergeCommits L B M) (mergeTrees L B M) =
      { lcaEntries := lcaFiles L
        baseEntries := B.openFiles (baseHidden L B M)
        mergeTreeEntries := M.openFiles (mergeHidden L B M)
        getBaseFile := CommitMerkleTree.getFileByPath host db (dirHashes B.id)
        getMergeFile := CommitMerkleTree.getFileByPath host db (dirHashes M.id) } := by
  have hlca : KeyedMap.insertAll ∅
      (((mergeTrees L B M).lca.map fun lca => lca.tree.uniqueDirEntries [] []).getD []) =
        lcaFiles L := by
    cases L with
    | none => rfl
    | some l =>
        have := l.uniqueDirEntries_prune [] []
        rw [List.append_nil, l.stored_tree.prune_nil] at this
        simp [mergeTrees, lcaFiles, CommitTree.fileMap, this]
  rw [mergeContext, hlca]
  simp only [CommitTree.openFiles, baseHidden, mergeHidden, ← CommitTree.uniqueDirEntries_prune]
  rfl

section Hidden

variable {L B M}

theorem mem_sharedHashes {h : MerkleHash} (hh : h ∈ (mergeTrees L B M).sharedHashes) :
    h ∈ lcaHashes L ∧ h ∈ B.tree.containerHashes ∨
      h ∈ baseHashes L B ∧ h ∈ M.tree.containerHashes := by
  simp only [MergeTrees.sharedHashes, mergeTrees, loaded, List.mem_append, List.mem_filter,
    decide_eq_true_eq] at hh
  exact hh.imp (fun h => ⟨h.2, mem_containerHashes_of_prune h.1⟩)
    fun h => ⟨h.2, mem_containerHashes_of_prune h.1⟩

theorem mem_containerHashes_of_baseHashes {h : MerkleHash} (hh : h ∈ baseHashes L B) :
    h ∈ B.tree.containerHashes :=
  mem_containerHashes_of_prune (List.mem_filter.mp hh).1

/-- What the merge view hides is in the base tree. -/
theorem mem_containerHashes_of_mergeHidden {h : MerkleHash} (hh : h ∈ mergeHidden L B M) :
    h ∈ B.tree.containerHashes := by
  rcases List.mem_append.mp hh with hh | hh
  · exact mem_containerHashes_of_baseHashes hh
  · rcases mem_sharedHashes hh with ⟨-, hb⟩ | ⟨hb, -⟩
    · exact hb
    · exact mem_containerHashes_of_baseHashes hb

/-- What the base view hides is in the ancestor, or the merge view hides it too. -/
theorem cases_of_baseHidden {h : MerkleHash} (hh : h ∈ baseHidden L B M) :
    h ∈ lcaHashes L ∨ h ∈ M.tree.containerHashes ∧ h ∈ mergeHidden L B M := by
  rcases List.mem_append.mp hh with hh | hh
  · exact .inl hh
  · exact (mem_sharedHashes hh).imp And.left fun h => ⟨h.2, List.mem_append_right _ hh⟩

variable (hL : ∀ l, L = some l → UniquePaths [] l.tree) (hB : UniquePaths [] B.tree)
  (hM : UniquePaths [] M.tree) (hLB : ∀ l, L = some l → SharedInPlace l B)
  (hBM : SharedInPlace B M) {path : PathBuf} {f : FileNode}

include hB hM hBM in
theorem base_of_hidden_merge (hf : M.fileMap.lookup path = some f)
    (hhidden : (M.openFiles (mergeHidden L B M)).lookup path = none) :
    B.fileMap.lookup path = some f := by
  obtain ⟨r, u, hu, hc, hh, hfile⟩ := M.hidden_of_not_open hM hf hhidden
  have hub := hBM.mem_subtrees hu hc (mem_containerHashes_of_mergeHidden hh)
  exact (B.lookup_fileMap_iff hB).mpr (mem_files_of_mem_subtrees hub hfile)

include hL hB hM hLB hBM in
theorem lca_or_merge_of_hidden_base (hf : B.fileMap.lookup path = some f)
    (hhidden : (B.openFiles (baseHidden L B M)).lookup path = none) :
    (lcaFiles L).lookup path = some f ∨
      M.fileMap.lookup path = some f ∧ (M.openFiles (mergeHidden L B M)).lookup path = none := by
  obtain ⟨r, u, hu, hc, hh, hfile⟩ := B.hidden_of_not_open hB hf hhidden
  rcases cases_of_baseHidden hh with hlca | ⟨hm, hh⟩
  · cases L with
    | none => simp [lcaHashes] at hlca
    | some l =>
        have hul := (hLB l rfl).mem_subtrees hu hc hlca
        exact .inl ((l.lookup_fileMap_iff (hL l rfl)).mpr (mem_files_of_mem_subtrees hul hfile))
  · have hum := hBM.symm.mem_subtrees hu hc hm
    refine .inr ⟨(M.lookup_fileMap_iff hM).mpr (mem_files_of_mem_subtrees hum hfile), ?_⟩
    cases hl : (M.openFiles (mergeHidden L B M)).lookup path with
    | none => rfl
    | some g =>
        exact absurd hh (M.not_hidden_of_open hM (M.mem_open_of_lookup hl) hum hc hfile)

end Hidden

end Oxen
