import Oxen.Verification.Commit.WriterRun
import Oxen.Verification.Tree.FileMap

/-! Where the files of a commit come from: they are staged for it, or they lie in a
directory that the index it builds upon names. -/

namespace Oxen

namespace CommitWriter

open MerkleTreeNode TreeWrites

variable {host : Host} {db : NodeStore} {dirHashes : DirHashes} {dirEntries : DirEntries}
  {directory path : PathBuf} {newChildren : List StagedMerkleTreeNode} {f : FileNode}

/-- A child was staged or stored before. -/
theorem child_origin {child : StagedMerkleTreeNode}
    (h : (dirChildren db dirHashes directory newChildren).children.lookup path = some child) :
    (∃ entry ∈ newChildren, entry.path ≠ [] ∧ entry.status ≠ .removed ∧
      fullPath directory entry = path ∧ completed directory entry = child) ∨
      (storedChildren db dirHashes directory).lookup path = some child := by
  change (newChildren.foldl (updateChildren directory)
    { children := storedChildren db dirHashes directory }).children.lookup path = some child at h
  revert h
  generalize hdir : ({ children := storedChildren db dirHashes directory } : DirChildren) = dir
  have hstored : dir.children = storedChildren db dirHashes directory := by rw [← hdir]
  rw [← hstored]
  clear hdir hstored
  induction newChildren generalizing dir with
  | nil => exact .inr
  | cons entry rest ih =>
      intro h
      rcases ih _ h with ⟨e, he, horigin⟩ | hold
      · exact .inl ⟨e, List.mem_cons_of_mem entry he, horigin⟩
      · by_cases hnil : entry.path = []
        · rw [updateChildren, if_pos hnil] at hold
          exact .inr hold
        · rw [lookup_updateChildren dir hnil] at hold
          split at hold
          · rename_i hpath
            split at hold
            · cases hold
            · rename_i hstatus
              rw [status_completed] at hstatus
              exact .inl ⟨entry, List.mem_cons_self, hnil, hstatus, hpath.symm,
                Option.some.inj hold⟩
          · exact .inr hold

/-- A stored child is listed by the directory that the index names. -/
theorem storedChild_origin {child : StagedMerkleTreeNode}
    (h : (storedChildren db dirHashes directory).lookup path = some child) :
    ∃ hash, dirHashes.lookup directory = some hash ∧ ∃ n ∈ listFilesAndFolders db hash,
      nodeDataToStagedNode directory n = some child := by
  rw [storedChildren] at h
  cases hnode : existingNode db dirHashes directory with
  | none => simp [hnode] at h
  | some hash =>
      rw [hnode, Option.map_some, Option.getD_some, getNodeDirChildren] at h
      rcases lookup_foldl_insertNew h with h | ⟨hchild, -⟩
      · cases h
      · rcases List.mem_filterMap.mp hchild with ⟨n, hn, hstaged⟩
        exact ⟨hash, (Option.filter_eq_some_iff.mp hnode).1, n, hn, hstaged⟩

/-- An entry that is staged for the commit under the path. -/
def StagedAt (dirEntries : DirEntries) (path : PathBuf) (entry : StagedMerkleTreeNode) : Prop :=
  ∃ directory newChildren staged, dirEntries.lookup directory = some newChildren ∧
    staged ∈ newChildren ∧ staged.path ≠ [] ∧ staged.status ≠ .removed ∧
      fullPath directory staged = path ∧ completed directory staged = entry

/-- A file at the path below a directory that the index names. -/
def IndexedFile (db : NodeStore) (dirHashes : DirHashes) (path : PathBuf) (f : FileNode) : Prop :=
  ∃ directory d vnodes, dirHashes.lookup directory = some d.hash ∧ d.name = leafName directory ∧
    (mk (.directory d) vnodes).Held db ∧ (path, f) ∈ (mk (.directory d) vnodes).files directory.dropLast

/-- What is at and below an entry that is listed is below an indexed directory. -/
theorem indexedFile_of_listed (hindex : GoodIndex host db dirHashes) {hash : MerkleHash}
    (hlookup : dirHashes.lookup directory = some hash) {n : EMerkleTreeNode}
    (hn : n ∈ listFilesAndFolders db hash) :
    ∃ c : MerkleTreeNode, c.node = n ∧ c.isEntry = true ∧ c.Held db ∧
      ∀ q g, (q, g) ∈ c.files directory → IndexedFile db dirHashes q g := by
  rcases (hindex directory hash hlookup).exists_entry hn with
    ⟨d, vnodes, c, rfl, hname, hheld, hc, hentry, hheldC, hmem, -⟩
  exact ⟨c, hc, hentry, hheldC, fun q g hg =>
    ⟨directory, d, vnodes, hlookup, hname, hheld, mem_files_of_mem_subtrees hmem hg⟩⟩

/-- The entries of the virtual nodes to write are children of their directory. -/
theorem exists_lookup_of_mem_entries {env : CommitEnv} {vnodes : List EntryVNode}
    {removed : List StagedMerkleTreeNode} {v : EntryVNode} {entry : StagedMerkleTreeNode}
    (h : (splitIntoVNodes env db dirHashes dirEntries).lookup directory = some (vnodes, removed))
    (hv : v ∈ vnodes) (hentry : entry ∈ v.entries) :
    ∃ newChildren path, dirEntries.lookup directory = some newChildren ∧
      (dirChildren db dirHashes directory newChildren).children.lookup path = some entry := by
  rw [splitIntoVNodes, KeyedMap.lookup_mapValues] at h
  rcases Option.map_eq_some_iff.mp h with ⟨newChildren, hdir, hsplit⟩
  obtain rfl := congrArg Prod.fst hsplit
  rcases List.mem_map.mp hv with ⟨bucket, -, rfl⟩
  rcases List.mem_map.mp (mem_bucketEntries.mp hentry).1 with ⟨pair, hpair, rfl⟩
  exact ⟨newChildren, pair.1, hdir, KeyedMap.mem_toList.mp hpair⟩

/-- A file of the tree that a commit plans is staged under its path or indexed. -/
def Originates (db : NodeStore) (commitId : MerkleHash) (dirHashes : DirHashes)
    (dirEntries : DirEntries) (path : PathBuf) (f : FileNode) : Prop :=
  (∃ entry g, StagedAt dirEntries path entry ∧ entry.node = .file g ∧
    f = writtenFile commitId entry.status g) ∨ IndexedFile db dirHashes path f

section

variable {env : CommitEnv} {commitId : MerkleHash} {oldDir : PathBuf → Option DirNode}
  {oldFile : PathBuf → Option FileNode}

/-- An unmodified file is written as it is listed. -/
theorem indexedFile_of_stored {entry : StagedMerkleTreeNode} {fe : FileNode}
    {written : PathBuf → Prop} (hindex : GoodIndex host db dirHashes)
    (hstored : (storedChildren db dirHashes directory).lookup path = some entry)
    (hnode : entry.node = .file fe) (hok : ChildOk host db written directory path entry) :
    IndexedFile db dirHashes path (writtenFile commitId entry.status fe) := by
  rcases storedChild_origin hstored with ⟨hash, hlookup, n, hn, hentry⟩
  rcases indexedFile_of_listed hindex hlookup hn with ⟨⟨m, cs⟩, rfl, hleaf, hheld, hbelow⟩
  cases m with
  | file f =>
      obtain rfl := Option.some.inj hentry
      obtain rfl := EMerkleTreeNode.file.inj hnode
      obtain rfl := held_file hheld
      rcases List.length_eq_one_iff.mp (of_decide_eq_true hleaf) with ⟨name, hname⟩
      have hsame : writtenFile commitId .unmodified { f with name := directory ++ f.name } = f := by
        rw [writtenFile, hname, leafName_append_singleton, ← hname, if_pos rfl]
      have hpath : path = directory ++ f.name := hok.path_eq.symm
      rw [hsame, hpath]
      exact hbelow _ _ (by rw [files_file]; exact List.mem_singleton.mpr rfl)
  | directory d =>
      obtain rfl := Option.some.inj hentry
      cases hnode
  | vnode v => cases hleaf
  | commit c => cases hleaf

/-- A directory that is kept has the files that it is listed with. -/
theorem indexedFile_of_kept {entry : StagedMerkleTreeNode} {d : DirNode}
    (hindex : GoodIndex host db dirHashes)
    (hstored : (storedChildren db dirHashes directory).lookup path = some entry)
    (hnode : entry.node = .directory d) {plan : TreePlan EMerkleTreeNode}
    (hplan : (match db d.hash with
      | some { node := .directory oldDirNode, .. } => some (.keep (.directory oldDirNode))
      | _ => none) = some plan) {q : PathBuf} {g : FileNode}
    (hq : (q, g) ∈ (plannedTree db plan).files directory) : IndexedFile db dirHashes q g := by
  rcases storedChild_origin hstored with ⟨hash, hlookup, n, hn, hentry⟩
  rcases indexedFile_of_listed hindex hlookup hn with ⟨⟨m, cs⟩, rfl, hleaf, hheld, hbelow⟩
  cases m with
  | directory e =>
      obtain rfl := Option.some.inj hentry
      obtain rfl := EMerkleTreeNode.directory.inj hnode
      rcases hheld.exists_record rfl with ⟨record, hr, hskeleton, hrecord⟩
      rcases EMerkleTreeNode.exists_directory_of_skeleton hskeleton with ⟨old, hold, hname, hhash⟩
      obtain ⟨k, parentId, children⟩ := record
      obtain rfl : k = .directory old := hold
      have hr' : db e.hash = some ⟨.directory old, parentId, children⟩ := hr
      rw [hr'] at hplan
      obtain rfl := Option.some.inj hplan
      apply hbelow
      rw [plannedTree_keep hrecord rfl, files_mk rfl] at hq
      rw [files_mk rfl]
      have hown : EMerkleTreeNode.ownPath directory (.directory old) =
          EMerkleTreeNode.ownPath directory (.directory e) := by
        rw [EMerkleTreeNode.ownPath, hname]
        rfl
      rwa [← hown]
  | file f =>
      obtain rfl := Option.some.inj hentry
      cases hnode
  | vnode v => cases hleaf
  | commit c => cases hleaf

theorem originates_of_plannedEntry (hindex : GoodIndex env.toHost db dirHashes)
    (hplaced : PlacedEntries dirEntries) {below : PathBuf → List (TreePlan EMerkleTreeNode)}
    (hbelow : ∀ directory q g, (q, g) ∈ ((below directory).map (plannedTree db)).flatMap
      (files directory) → Originates db commitId dirHashes dirEntries q g)
    (hdir : dirEntries.lookup directory = some newChildren) {entry : StagedMerkleTreeNode}
    (hentry : (dirChildren db dirHashes directory newChildren).children.lookup path = some entry)
    {plan : TreePlan EMerkleTreeNode}
    (hplan : plannedEntry env.toHost db commitId (splitIntoVNodes env db dirHashes dirEntries)
      oldDir oldFile below entry = some plan) {q : PathBuf} {g : FileNode}
    (hq : (q, g) ∈ (plannedTree db plan).files directory) :
    Originates db commitId dirHashes dirEntries q g := by
  have hok := childOk_dirChildren hindex hplaced hdir hentry
  unfold plannedEntry at hplan
  cases hnode : entry.node with
  | file fe =>
      rw [hnode] at hplan
      obtain rfl := Option.some.inj hplan
      have hpath : path = fe.name := by
        rw [← hok.path_eq, StagedMerkleTreeNode.path, hnode]
        rfl
      have hfile : (plannedTree db (.keep (.file (writtenFile commitId entry.status fe)))).files
          directory = [(path, writtenFile commitId entry.status fe)] := by
        rw [plannedTree, if_neg (fun h => by cases h), files_file, writtenFile, ← hpath, ← hok.parent,
          dropLast_append_leafName]
      rw [hfile, List.mem_singleton] at hq
      obtain ⟨rfl, rfl⟩ := Prod.mk.inj hq
      rcases child_origin hentry with ⟨staged, hstaged, hne, hstatus, hfull, hcompleted⟩ | hstored
      · exact .inl ⟨entry, fe, ⟨directory, newChildren, staged, hdir, hstaged, hne, hstatus, hfull,
          hcompleted⟩, hnode, rfl⟩
      · exact .inr (indexedFile_of_stored hindex hstored hnode hok)
  | directory d =>
      simp only [hnode] at hplan
      split at hplan
      · obtain rfl := Option.some.inj hplan
        apply hbelow entry.path
        rw [plannedTree_write, files_mk rfl] at hq
        have hown : EMerkleTreeNode.ownPath directory (.directory (computeDirNode env.toHost commitId
            (splitIntoVNodes env db dirHashes dirEntries) oldDir oldFile entry.path)) =
              entry.path := by
          rw [hok.path_eq, ← hok.parent]
          exact dropLast_append_leafName path
        rwa [hown] at hq
      · rename_i hkey
        rcases child_origin hentry with ⟨staged, hstaged, hne, hstatus, hfull, rfl⟩ | hstored
        · -- a staged directory is written itself
          rcases exists_of_node_completed hnode with ⟨e, he⟩
          have hmem := hplaced.keyed directory newChildren hdir staged hstaged hstatus e he
          rw [hfull, ← hok.path_eq] at hmem
          exact absurd (KeyedMap.mem_mapValues.mpr hmem) hkey
        · exact .inr (indexedFile_of_kept hindex hstored hnode hplan hq)
  | vnode v =>
      rw [hnode] at hplan
      cases hplan
  | commit c =>
      rw [hnode] at hplan
      cases hplan

/-- Every file below a planned directory is staged or indexed. -/
theorem originates_of_plannedVNodes (hindex : GoodIndex env.toHost db dirHashes)
    (hplaced : PlacedEntries dirEntries) (fuel : ℕ) (directory q : PathBuf) (g : FileNode)
    (hq : (q, g) ∈ ((plannedVNodes env.toHost db commitId
      (splitIntoVNodes env db dirHashes dirEntries) oldDir oldFile fuel directory).map
        (plannedTree db)).flatMap (files directory)) :
    Originates db commitId dirHashes dirEntries q g := by
  induction fuel generalizing directory q g with
  | zero => cases hq
  | succ fuel ih =>
      rw [plannedVNodes] at hq
      cases hdir : (splitIntoVNodes env db dirHashes dirEntries).lookup directory with
      | none =>
          rw [hdir] at hq
          cases hq
      | some written =>
          obtain ⟨vnodes, removed⟩ := written
          rw [hdir] at hq
          rcases List.mem_flatMap.mp hq with ⟨t, ht, hq⟩
          rcases List.mem_map.mp ht with ⟨vplan, hvplan, rfl⟩
          rcases List.mem_map.mp hvplan with ⟨v, hv, rfl⟩
          rw [plannedTree_write, files_mk rfl, List.mem_flatMap] at hq
          rcases hq with ⟨c, hc, hq⟩
          rcases List.mem_map.mp hc with ⟨plan, hplan, rfl⟩
          rcases List.mem_filterMap.mp hplan with ⟨entry, hentry, hplan⟩
          rcases exists_lookup_of_mem_entries hdir hv hentry with
            ⟨newChildren, path, hchildren, hlookup⟩
          exact originates_of_plannedEntry hindex hplaced ih hchildren hlookup hplan hq

/-- Every file of the commit that a plan makes is staged for it or indexed. -/
theorem originates_of_treeFile {s : Repository} {head : Option CommitNode} {node : CommitNode}
    {plan : Plan} (hplan : WritesTree plan env s head dirHashes dirEntries node)
    (hindex : GoodIndex env.toHost s.db dirHashes) (hplaced : PlacedEntries dirEntries)
    (hdistinct : DistinctIds env s head dirHashes dirEntries node)
    (h : TreeFile (s.run plan.ops).db node path f) :
    Originates s.db node.hash dirHashes dirEntries path f := by
  have hheld := hplan.held hindex hplaced hdistinct
  rw [commitPlan, plannedTree_write] at hheld
  rw [treeFile_iff hheld, files_mk rfl, List.map_singleton, List.flatMap_singleton, rootPlan,
    plannedTree_write, files_mk rfl] at h
  exact originates_of_plannedVNodes hindex hplaced _ [] path f h

end

end CommitWriter

end Oxen
