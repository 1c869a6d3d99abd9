import Oxen.Lib.Fuel
import Oxen.Verification.Tree.FileMap
import Oxen.Verification.Tree.Search

/-! Membership of a path in the tree of a commit. The search starts in the
directory of the path or in its parent, with the whole path. -/

namespace Oxen

open MerkleTreeNode

/-! ## Loading one directory -/

/-- The path a load starts at is only for the files it reports. -/
theorem tree_load_eq (db : NodeStore) (seen : List MerkleHash) (fuel : ℕ) (path path' : PathBuf)
    (node : EMerkleTreeNode) :
    (loadChildrenAndCollectPartialNodes db seen fuel path node).tree =
      (loadChildrenAndCollectPartialNodes db seen fuel path' node).tree := by
  induction fuel generalizing path path' node with
  | zero => rfl
  | succ fuel ih =>
      have hchild : ∀ c, (loadChild (loadChildrenAndCollectPartialNodes db seen fuel) path c).tree =
          (loadChild (loadChildrenAndCollectPartialNodes db seen fuel) path' c).tree := by
        intro c
        cases c with
        | file f => rfl
        | directory d => exact ih _ _ _
        | vnode v => exact ih _ _ _
        | commit c => exact ih _ _ _
      simp only [loadChildrenAndCollectPartialNodes]
      split
      · rfl
      · split
        · rfl
        · simp only [List.map_map, mk.injEq, true_and]
          exact List.map_congr_left fun c _ => hchild c

theorem getNodeByIdWithChildren_of_stored {db : NodeStore} {s : MerkleTreeNode} (h : s.Stored db)
    (hs : s.node.hasChildren = true) {fuel : ℕ} (hf : s.size ≤ fuel) :
    getNodeByIdWithChildren db fuel s.hash = some s := by
  obtain ⟨n, cs⟩ := s
  rcases (stored_container hs cs).mp h with ⟨⟨record, hr, hn, -⟩, -⟩
  have hload := congrArg LoadedNode.tree (loadChildren_of_stored h hs [] [] hf)
  have htree : (mk n cs).prune [] = mk n cs := h.prune_nil
  have hrecord : db (mk n cs).hash = some record := hr
  rw [tree_load_eq db [] fuel _ []] at hload
  rw [getNodeByIdWithChildren, rootWithChildrenAndNodeHashes, hrecord, Option.map_some,
    Option.map_some, hn, loadChildren]
  exact congrArg some (hload.trans htree)

namespace CommitMerkleTree

/-- The `dir_hashes` of a commit. Every path in it has a stored directory, though not
always one of the commit's tree. -/
structure DirIndex (db : NodeStore) where
  dirHashes : DirHashes
  stored : ∀ path hash, dirHashes.lookup path = some hash →
    ∃ d vnodes, (mk (.directory d) vnodes).Stored db ∧ d.hash = hash
  root : (dirHashes.lookup []).isSome

variable {db : NodeStore} (t : CommitTree db) (index : DirIndex db) {path : PathBuf}

/-- The path is the root, a directory or a file. -/
def InTree (path : PathBuf) : Prop :=
  ∃ e, (path, e) ∈ t.tree.entries []

/-- Whether the path is in the tree is found with enough fuel. -/
def DecidesPath (path : PathBuf) : Prop :=
  ∃ found bound, (∀ fuel, bound ≤ fuel → hasPath db index.dirHashes fuel path = .ok found) ∧
    (found = true ↔ InTree t path)

/-- The directory has a file or directory at the path below it. -/
def Contains (db : NodeStore) (hash : MerkleHash) (path : PathBuf) : Prop :=
  ∃ d vnodes, (mk (.directory d) vnodes).Stored db ∧ d.hash = hash ∧
    ∃ c ∈ vnodes, ∃ e, (path, e) ∈ c.entries []

/-- The directory at the path in the index, or else the one at its parent. -/
def searchedDir (path : PathBuf) : Option MerkleHash :=
  (index.dirHashes.lookup path).or (index.dirHashes.lookup path.dropLast)

/-- The directory that is searched has the whole path below it exactly when the tree has it. -/
def BasesAgree (path : PathBuf) : Prop :=
  path = [] ∨
    match searchedDir index path with
    | some dirHash => Contains db dirHash path ↔ InTree t path
    | none => ¬ InTree t path

theorem contains_iff {d : DirNode} {vnodes : List MerkleTreeNode}
    (h : (mk (.directory d) vnodes).Stored db) :
    Contains db d.hash path ↔ ∃ c ∈ vnodes, ∃ e, (path, e) ∈ c.entries [] := by
  constructor
  · rintro ⟨d', vnodes', h', hhash, hfound⟩
    obtain ⟨-, rfl⟩ := mk.inj (h.eq_of_hash h' rfl rfl hhash.symm)
    exact hfound
  · exact fun hfound => ⟨d, vnodes, h, rfl, hfound⟩

/-- What a search in an indexed directory finds. -/
theorem search_indexed {hash : MerkleHash} {p : PathBuf} (h : index.dirHashes.lookup p = some hash)
    (path : PathBuf) :
    ∃ found bound, (∀ fuel, bound ≤ fuel →
        (do
          let node ← unwrapNode db fuel hash
          Except.ok (node.getByPath path).isSome) = .ok found) ∧
      (found = true ↔ path = [] ∨ Contains db hash path) := by
  rcases index.stored p hash h with ⟨d, vnodes, hs, rfl⟩
  refine ⟨((mk (.directory d) vnodes).getByPath path).isSome, (mk (.directory d) vnodes).size,
    fun fuel hf => ?_, ?_⟩
  · have hnode := getNodeByIdWithChildren_of_stored hs rfl hf
    rw [hash_mk, EMerkleTreeNode.hash_directory] at hnode
    rw [unwrapNode, hnode]
    rfl
  · rw [hs.held.leafy.getByPath_isSome, contains_iff hs]

theorem inTree_root : InTree t [] := by
  rcases t.exists_root with ⟨d, vnodes, hroot, hname⟩
  refine ⟨.directory d, ?_⟩
  rw [CommitTree.tree, hroot]
  simp [entries_mk, entry?, EMerkleTreeNode.ownPath, hname]

theorem hasPath_returns (path : PathBuf) :
    ∃ found bound, (∀ fuel, bound ≤ fuel → hasPath db index.dirHashes fuel path = .ok found) ∧
      (found = true ↔ path = [] ∨ ∃ hash, searchedDir index path = some hash ∧
        Contains db hash path) := by
  cases hp : index.dirHashes.lookup path with
  | some dirHash =>
      rcases search_indexed index hp path with ⟨found, bound, hrun, hfound⟩
      refine ⟨found, bound, fun fuel hf => ?_, ?_⟩
      · rw [hasPath, hp]
        exact hrun fuel hf
      · simpa [searchedDir, hp] using hfound
  | none =>
      have hne : path ≠ [] := by
        rintro rfl
        have hroot := index.root
        rw [hp] at hroot
        cases hroot
      cases hparent : index.dirHashes.lookup path.dropLast with
      | some parentHash =>
          rcases search_indexed index hparent path with ⟨found, bound, hrun, hfound⟩
          refine ⟨found, bound, fun fuel hf => ?_, ?_⟩
          · simp only [hasPath, hp, if_neg hne, hparent]
            exact hrun fuel hf
          · simpa [searchedDir, hp, hparent] using hfound
      | none =>
          refine ⟨false, 0, fun fuel _ => ?_, ?_⟩
          · simp only [hasPath, hp, if_neg hne, hparent]
          · simp [searchedDir, hp, hparent, hne]

/-- Membership is decided where the two bases of the search agree. -/
theorem decidesPath_iff : DecidesPath t index path ↔ BasesAgree t index path := by
  rcases hasPath_returns index path with ⟨found, bound, hrun, hfound⟩
  have hdecides : DecidesPath t index path ↔ (found = true ↔ InTree t path) := by
    constructor
    · rintro ⟨found', bound', hrun', hfound'⟩
      have heq := (hrun _ (le_max_left bound bound')).symm.trans (hrun' _ (le_max_right bound bound'))
      cases heq
      exact hfound'
    · exact fun h => ⟨found, bound, hrun, h⟩
  rw [hdecides, hfound, BasesAgree]
  by_cases hnil : path = []
  · subst hnil
    simp [inTree_root t]
  · cases hs : searchedDir index path <;> simp [hnil]

namespace DataExample

open Example

/-- A directory `data` with one file. -/
def rootDir : MerkleTreeNode :=
  dir [] 0x10 [dir ["data"] 0x20 [file "x" [1] 1]]

def nodes : NodeStore :=
  .ofTrees [.mk (.commit { hash := 0x1 }) [rootDir]]

def commitTree : CommitTree nodes where
  commit := { hash := 0x1 }
  children := [rootDir]
  stored := by decide
  shape := by decide

def dataVNodes : List MerkleTreeNode :=
  [.mk (.vnode { hash := 0x21 }) [file "x" [1] 1]]

theorem dataDir_stored :
    (mk (.directory { name := ["data"], hash := 0x20 }) dataVNodes).Stored nodes := by
  decide

def dirIndex : DirIndex nodes where
  dirHashes := KeyedMap.insertAll ∅ [([], 0x10), (["data"], 0x20)]
  stored := by
    intro path dirHash h
    have hmem := (KeyedMap.lookup_insertAll_empty_iff (by decide)).mp h
    simp only [List.mem_cons, Prod.mk.injEq, List.not_mem_nil, or_false] at hmem
    rcases hmem with ⟨-, rfl⟩ | ⟨-, rfl⟩
    · exact ⟨{ name := [], hash := 0x10 }, _, commitTree.stored_tree.child _ List.mem_cons_self, rfl⟩
    · exact ⟨_, dataVNodes, dataDir_stored, rfl⟩
  root := by decide

end DataExample

/-- Below the directory `data` there is no second `data`, so its file is not found. -/
theorem not_decidesPath :
    ¬ DecidesPath DataExample.commitTree DataExample.dirIndex ["data", "x"] := by
  rintro ⟨found, bound, hrun, hfound⟩
  rcases hasPath_returns DataExample.dirIndex ["data", "x"] with ⟨found', bound', hrun', hfound'⟩
  have heq := (hrun _ (le_max_left bound bound')).symm.trans (hrun' _ (le_max_right bound bound'))
  cases heq
  have htree : InTree DataExample.commitTree ["data", "x"] :=
    ⟨.file (Example.fileNode "x" [1] 1), by decide⟩
  rcases hfound'.mp (hfound.mpr htree) with hnil | ⟨dirHash, hsearch, hcontains⟩
  · cases hnil
  · have hdata : searchedDir DataExample.dirIndex ["data", "x"] = some 0x20 := by decide
    obtain rfl := Option.some.inj (hdata.symm.trans hsearch)
    rcases (contains_iff DataExample.dataDir_stored).mp hcontains with ⟨c, hc, e, he⟩
    have hmem : ["data", "x"] ∈ (DataExample.dataVNodes.flatMap (entries [])).map Prod.fst :=
      List.mem_map.mpr ⟨(["data", "x"], e), List.mem_flatMap.mpr ⟨c, hc, he⟩, rfl⟩
    exact absurd hmem (by decide)

end CommitMerkleTree

end Oxen
