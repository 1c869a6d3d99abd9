import Mathlib.Data.List.Nodup
import Oxen.Verification.Commit.Children
import Oxen.Verification.Tree.WellPlaced

/-! How the entries of the directories to write lie in virtual nodes. -/

namespace Oxen

namespace CommitWriter

open MerkleTreeNode

/-- The database holds a well-placed directory with the hash at the path. -/
def GoodDir (host : Host) (db : NodeStore) (path : PathBuf) (hash : MerkleHash) : Prop :=
  ∃ d vnodes, d.hash = hash ∧ d.name = leafName path ∧ (mk (.directory d) vnodes).Held db ∧
    WellPlaced host path.dropLast (mk (.directory d) vnodes)

/-- Every path in the index has such a directory. -/
def GoodIndex (host : Host) (db : NodeStore) (dirHashes : DirHashes) : Prop :=
  ∀ path hash, dirHashes.lookup path = some hash → GoodDir host db path hash

/-- Entries are staged in their own directory, and a directory that is put is
staged for writing itself. -/
structure PlacedEntries (dirEntries : DirEntries) : Prop where
  placed : ∀ directory newChildren, dirEntries.lookup directory = some newChildren →
    ∀ child ∈ newChildren, child.path ≠ [] → (fullPath directory child).dropLast = directory
  keyed : ∀ directory newChildren, dirEntries.lookup directory = some newChildren →
    ∀ child ∈ newChildren, child.status ≠ .removed → ∀ d, child.node = .directory d →
      fullPath directory child ∈ dirEntries

/-- A child of the directory under its full path. A directory among them is to be written
itself or is a good one. -/
structure ChildOk (host : Host) (db : NodeStore) (written : PathBuf → Prop)
    (directory path : PathBuf) (child : StagedMerkleTreeNode) : Prop where
  path_eq : child.path = path
  ne_nil : path ≠ []
  parent : path.dropLast = directory
  known : ∀ d, child.node = .directory d → written path ∨ GoodDir host db path d.hash

section

variable {host : Host} {db : NodeStore} {dirHashes : DirHashes} {written : PathBuf → Prop}
  {directory path : PathBuf}

theorem dropLast_append_leafName (path : PathBuf) : path.dropLast ++ leafName path = path := by
  rcases List.eq_nil_or_concat path with rfl | ⟨parent, name, rfl⟩
  · rfl
  · simp [leafName]

theorem leafName_append_singleton (path : PathBuf) (name : String) :
    leafName (path ++ [name]) = [name] := by
  simp [leafName]

/-- What a good directory lists are the entries of its virtual nodes. -/
theorem GoodDir.exists_entry {hash : MerkleHash} (h : GoodDir host db directory hash)
    {n : EMerkleTreeNode} (hn : n ∈ listFilesAndFolders db hash) :
    ∃ d vnodes c, d.hash = hash ∧ d.name = leafName directory ∧
      (mk (.directory d) vnodes).Held db ∧ c.node = n ∧ c.isEntry = true ∧ c.Held db ∧
      (directory, c) ∈ (mk (.directory d) vnodes).subtrees directory.dropLast ∧
      WellPlaced host directory c := by
  rcases h with ⟨d, vnodes, rfl, hname, hheld, hplaced⟩
  have hown : EMerkleTreeNode.ownPath directory.dropLast (.directory d) = directory := by
    rw [EMerkleTreeNode.ownPath, hname, dropLast_append_leafName]
  rw [listFilesAndFolders, ← EMerkleTreeNode.hash_directory d, hheld.readChildren rfl,
    List.mem_flatMap] at hn
  rcases hn with ⟨m, hm, hn⟩
  rcases List.mem_map.mp hm with ⟨v, hv, rfl⟩
  rcases hplaced.eq_vnode hv with ⟨v, cs, rfl⟩
  rw [node_mk] at hn
  simp only [← EMerkleTreeNode.hash_vnode v, (hheld.child _ hv).readChildren rfl] at hn
  rcases List.mem_map.mp hn with ⟨c, hc, rfl⟩
  have hself := self_mem_subtrees directory.dropLast (mk (.directory d) vnodes)
  have hmem := child_mem_subtrees (child_mem_subtrees hself hv) hc
  have hplacedV := hplaced.child hv
  rw [hown] at hplacedV hmem
  exact ⟨d, vnodes, c, rfl, hname, hheld, rfl, hplacedV.isEntry hc, (hheld.child _ hv).child c hc,
    hmem, hplacedV.child hc⟩

/-- The entries of a good directory are children under their full paths. -/
theorem GoodDir.childOk {hash : MerkleHash} (h : GoodDir host db directory hash)
    {child : StagedMerkleTreeNode}
    (hchild : child ∈ (listFilesAndFolders db hash).filterMap (nodeDataToStagedNode directory)) :
    ChildOk host db written directory child.path child := by
  rcases List.mem_filterMap.mp hchild with ⟨n, hn, hstaged⟩
  rcases h.exists_entry hn with ⟨-, -, c, -, -, -, rfl, hleaf, hheldC, -, hplacedC⟩
  obtain ⟨n, ds⟩ := c
  cases n with
  | file f =>
      obtain rfl := Option.some.inj hstaged
      rcases List.length_eq_one_iff.mp (of_decide_eq_true hleaf) with ⟨name, hfile⟩
      have hpath : StagedMerkleTreeNode.path ⟨.unmodified, .file { f with name := directory ++ f.name }⟩ =
          directory ++ [name] := by
        simp [StagedMerkleTreeNode.path, EMerkleTreeNode.ownPath, hfile]
      exact ⟨rfl, by simp [hpath], by simp [hpath], fun d hd => by cases hd⟩
  | directory e =>
      obtain rfl := Option.some.inj hstaged
      rcases List.length_eq_one_iff.mp (of_decide_eq_true hleaf) with ⟨name, hdir⟩
      have hpath : StagedMerkleTreeNode.path
          ⟨.unmodified, .directory { e with name := directory ++ e.name }⟩ = directory ++ [name] := by
        simp [StagedMerkleTreeNode.path, EMerkleTreeNode.ownPath, hdir]
      refine ⟨rfl, by simp [hpath], by simp [hpath], fun d hd => .inr ?_⟩
      obtain rfl := EMerkleTreeNode.directory.inj hd
      refine ⟨e, ds, rfl, ?_, hheldC, ?_⟩
      · rw [hpath, leafName_append_singleton, hdir]
      · rw [hpath, List.dropLast_concat]
        exact hplacedC
  | vnode w => cases hleaf
  | commit w => cases hleaf

theorem lookup_foldl_insertNew {entries : List StagedMerkleTreeNode}
    {m : KeyedMap.Map PathBuf StagedMerkleTreeNode} {child : StagedMerkleTreeNode}
    (h : (entries.foldl (fun m entry => KeyedMap.insertNew m entry.path entry) m).lookup path =
      some child) :
    m.lookup path = some child ∨ child ∈ entries ∧ child.path = path := by
  induction entries generalizing m with
  | nil => exact .inl h
  | cons entry entries ih =>
      rcases ih h with hm | ⟨hmem, hpath⟩
      · change (KeyedMap.insertNew m entry.path entry).lookup path = _ at hm
        unfold KeyedMap.insertNew at hm
        split at hm
        · exact .inl hm
        · rcases KeyedMap.lookup_insert_eq_some.mp hm with ⟨rfl, rfl⟩ | ⟨-, hm⟩
          · exact .inr ⟨List.mem_cons_self, rfl⟩
          · exact .inl hm
      · exact .inr ⟨List.mem_cons_of_mem entry hmem, hpath⟩

/-- The children that are there before anything is staged. -/
theorem childOk_storedChildren (hindex : GoodIndex host db dirHashes)
    {child : StagedMerkleTreeNode}
    (h : (storedChildren db dirHashes directory).lookup path = some child) :
    ChildOk host db written directory path child := by
  rw [storedChildren] at h
  cases hnode : existingNode db dirHashes directory with
  | none => simp [hnode] at h
  | some hash =>
      have hgood := hindex directory hash (Option.filter_eq_some_iff.mp hnode).1
      rw [hnode, Option.map_some, Option.getD_some, getNodeDirChildren] at h
      rcases lookup_foldl_insertNew h with hm | ⟨hmem, rfl⟩
      · cases hm
      · exact hgood.childOk hmem

variable {dirEntries : DirEntries} {newChildren : List StagedMerkleTreeNode}

theorem status_completed (directory : PathBuf) (child : StagedMerkleTreeNode) :
    (completed directory child).status = child.status := by
  obtain ⟨status, node⟩ := child
  rw [completed]
  split
  · cases node <;> rfl
  · rfl

/-- Completing the name of an entry does not make it a directory. -/
theorem exists_of_node_completed {child : StagedMerkleTreeNode} {d : DirNode}
    (h : (completed directory child).node = .directory d) : ∃ e, child.node = .directory e := by
  obtain ⟨status, node⟩ := child
  rw [completed] at h
  split at h
  · cases node with
    | directory e => exact ⟨e, rfl⟩
    | file f => cases h
    | vnode v => cases h
    | commit c => cases h
  · exact ⟨d, h⟩

theorem fullPath_ne_nil {child : StagedMerkleTreeNode} (h : child.path ≠ []) :
    fullPath directory child ≠ [] := by
  rw [fullPath]
  split
  · simp [h]
  · exact h

/-- Every child of a directory is where it belongs. -/
theorem childOk_dirChildren (hindex : GoodIndex host db dirHashes) (hplaced : PlacedEntries dirEntries)
    (hdir : dirEntries.lookup directory = some newChildren) {child : StagedMerkleTreeNode}
    (h : (dirChildren db dirHashes directory newChildren).children.lookup path = some child) :
    ChildOk host db (· ∈ dirEntries) directory path child := by
  have hrun : ∀ (staged : List StagedMerkleTreeNode) (dir : DirChildren),
      (∀ c ∈ staged, c ∈ newChildren) →
      (∀ p c, dir.children.lookup p = some c → ChildOk host db (· ∈ dirEntries) directory p c) →
      ∀ p c, (staged.foldl (updateChildren directory) dir).children.lookup p = some c →
        ChildOk host db (· ∈ dirEntries) directory p c := by
    intro staged
    induction staged with
    | nil => exact fun dir _ hdir => hdir
    | cons entry staged ih =>
        intro dir hsub hok
        have hmem := hsub entry List.mem_cons_self
        refine ih _ (fun c hc => hsub c (List.mem_cons_of_mem entry hc)) fun p c hc => ?_
        by_cases hnil : entry.path = []
        · rw [updateChildren, if_pos hnil] at hc
          exact hok p c hc
        · have hparent := hplaced.placed directory newChildren hdir entry hmem hnil
          rw [lookup_updateChildren dir hnil] at hc
          split at hc
          · rename_i hp
            split at hc
            · cases hc
            · rename_i hstatus
              obtain rfl := Option.some.inj hc
              subst hp
              rw [status_completed] at hstatus
              refine ⟨path_completed hnil, fullPath_ne_nil hnil, hparent, fun d hd => ?_⟩
              rcases exists_of_node_completed hd with ⟨e, he⟩
              exact .inl (hplaced.keyed directory newChildren hdir entry hmem hstatus e he)
          · exact hok p c hc
  exact hrun newChildren _ (fun c hc => hc)
    (fun p c hc => childOk_storedChildren hindex hc) path child h

/-! ## Virtual nodes -/

/-- The entries of the virtual nodes of a directory to write. -/
structure WellSplit (host : Host) (db : NodeStore) (written : PathBuf → Prop) (directory : PathBuf)
    (vnodes : List EntryVNode) : Prop where
  nodup : ((vnodes.flatMap (·.entries)).map (·.path)).Nodup
  bucket : ∀ i v, vnodes[i]? = some v → ∀ entry ∈ v.entries,
    CommitMerkleTree.bucketOf host entry.path vnodes.length = i
  childOk : ∀ entry ∈ vnodes.flatMap (·.entries),
    ChildOk host db written directory entry.path entry

theorem mem_bucketEntries {env : CommitEnv} {children : List StagedMerkleTreeNode} {bucket : ℕ}
    {child : StagedMerkleTreeNode} :
    child ∈ bucketEntries env children bucket ↔ child ∈ children ∧
      CommitMerkleTree.bucketOf env.toHost child.path (env.numVNodes children.length) = bucket := by
  rw [bucketEntries, List.mem_insertionSort, List.mem_filter, decide_eq_true_eq]

theorem nodup_bucketEntries {env : CommitEnv} {children : List StagedMerkleTreeNode}
    (h : (children.map (·.path)).Nodup) (n : ℕ) :
    (((List.range n).flatMap (bucketEntries env children)).map (·.path)).Nodup := by
  rw [List.map_flatMap, List.nodup_flatMap]
  constructor
  · intro bucket _
    refine ((List.perm_insertionSort _ _).map _).nodup_iff.mpr ?_
    exact h.sublist (List.filter_sublist.map _)
  · refine List.nodup_range.pairwise_of_forall_ne fun i _ j _ hne => ?_
    intro path hi hj
    rcases List.mem_map.mp hi with ⟨child, hchild, rfl⟩
    rcases List.mem_map.mp hj with ⟨child', hchild', hpath⟩
    have hi := (mem_bucketEntries.mp hchild).2
    have hj := (mem_bucketEntries.mp hchild').2
    rw [hpath] at hj
    exact hne (hi.symm.trans hj)

/-- Every child goes to one virtual node. -/
theorem wellSplit_splitDirectory {env : CommitEnv} (hindex : GoodIndex env.toHost db dirHashes)
    (hplaced : PlacedEntries dirEntries) (hdir : dirEntries.lookup directory = some newChildren) :
    WellSplit env.toHost db (· ∈ dirEntries) directory
      (splitDirectory env db dirHashes directory newChildren).1 := by
  let dir := dirChildren db dirHashes directory newChildren
  let children := (KeyedMap.toList dir.children).map Prod.snd
  have hok : ∀ pair ∈ KeyedMap.toList dir.children,
      ChildOk env.toHost db (· ∈ dirEntries) directory pair.1 pair.2 := by
    intro pair hpair
    exact childOk_dirChildren hindex hplaced hdir (KeyedMap.mem_toList.mp hpair)
  have hnodup : (children.map (·.path)).Nodup := by
    have hkeys : children.map (·.path) = (KeyedMap.toList dir.children).map Prod.fst := by
      rw [List.map_map]
      exact List.map_congr_left fun pair hpair => (hok pair hpair).path_eq
    rw [hkeys]
    exact KeyedMap.nodup_map_fst_toList dir.children
  have hentries : (splitDirectory env db dirHashes directory newChildren).1.flatMap (·.entries) =
      (List.range (env.numVNodes children.length)).flatMap (bucketEntries env children) := by
    rw [splitDirectory, List.flatMap_map]
  have hlength : (splitDirectory env db dirHashes directory newChildren).1.length =
      env.numVNodes children.length := by
    rw [splitDirectory, List.length_map, List.length_range]
  refine ⟨?_, fun i v hv entry hentry => ?_, fun entry hentry => ?_⟩
  · rw [hentries]
    exact nodup_bucketEntries hnodup _
  · rw [hlength]
    rw [splitDirectory, List.getElem?_map, Option.map_eq_some_iff] at hv
    rcases hv with ⟨bucket, hbucket, rfl⟩
    obtain ⟨hlt, rfl⟩ := List.getElem?_eq_some_iff.mp hbucket
    rw [List.getElem_range] at hentry
    exact (mem_bucketEntries.mp hentry).2
  · rw [hentries, List.mem_flatMap] at hentry
    rcases hentry with ⟨bucket, -, hentry⟩
    rcases List.mem_map.mp (mem_bucketEntries.mp hentry).1 with ⟨pair, hpair, rfl⟩
    have hpairOk := hok pair hpair
    rwa [← hpairOk.path_eq] at hpairOk

end

/-! ## Entries of the staged database -/

/-- Entries that are read from the staged database lie under their parents. -/
structure ReadEntries (dirEntries : DirEntries) : Prop where
  parent : ∀ directory newChildren, dirEntries.lookup directory = some newChildren →
    ∀ child ∈ newChildren, child.path.dropLast = directory
  keyed : ∀ directory newChildren, dirEntries.lookup directory = some newChildren →
    ∀ child ∈ newChildren, ∀ d, child.node = .directory d → child.path ∈ dirEntries

theorem mem_insertNew_self {dirEntries : DirEntries} {path : PathBuf}
    {newChildren : List StagedMerkleTreeNode} :
    path ∈ KeyedMap.insertNew dirEntries path newChildren := by
  unfold KeyedMap.insertNew
  split
  · assumption
  · exact (AList.mem_insert _).mpr (.inl rfl)

theorem ReadEntries.insertNew {dirEntries : DirEntries} (h : ReadEntries dirEntries)
    (path : PathBuf) : ReadEntries (KeyedMap.insertNew dirEntries path []) := by
  have hold : ∀ directory newChildren,
      (KeyedMap.insertNew dirEntries path []).lookup directory = some newChildren →
        ∀ child ∈ newChildren, dirEntries.lookup directory = some newChildren := by
    intro directory newChildren hdir child hchild
    unfold KeyedMap.insertNew at hdir
    split at hdir
    · exact hdir
    · rcases KeyedMap.lookup_insert_eq_some.mp hdir with ⟨rfl, rfl⟩ | ⟨-, hdir⟩
      · cases hchild
      · exact hdir
  refine ⟨fun directory newChildren hdir child hchild => ?_,
    fun directory newChildren hdir child hchild d hd => ?_⟩
  · exact h.parent _ _ (hold _ _ hdir child hchild) child hchild
  · have hmem := h.keyed _ _ (hold _ _ hdir child hchild) child hchild d hd
    unfold KeyedMap.insertNew
    split
    · exact hmem
    · exact (AList.mem_insert _).mpr (.inr hmem)

theorem ReadEntries.append {dirEntries : DirEntries} (h : ReadEntries dirEntries)
    {entry : StagedMerkleTreeNode}
    (hentry : ∀ d, entry.node = .directory d → entry.path ∈ dirEntries) :
    ReadEntries (dirEntries.insert entry.path.dropLast
      ((dirEntries.lookup entry.path.dropLast).getD [] ++ [entry])) := by
  have hcases : ∀ directory newChildren, (dirEntries.insert entry.path.dropLast
      ((dirEntries.lookup entry.path.dropLast).getD [] ++ [entry])).lookup directory =
        some newChildren → ∀ child ∈ newChildren,
      (child = entry ∧ directory = entry.path.dropLast) ∨
        ∃ old, dirEntries.lookup directory = some old ∧ child ∈ old := by
    intro directory newChildren hdir child hchild
    rcases KeyedMap.lookup_insert_eq_some.mp hdir with ⟨rfl, rfl⟩ | ⟨-, hdir⟩
    · rcases List.mem_append.mp hchild with hchild | hchild
      · cases hold : dirEntries.lookup entry.path.dropLast with
        | none => simp [hold] at hchild
        | some old => exact .inr ⟨old, rfl, by simpa [hold] using hchild⟩
      · exact .inl ⟨List.mem_singleton.mp hchild, rfl⟩
    · exact .inr ⟨newChildren, hdir, hchild⟩
  refine ⟨fun directory newChildren hdir child hchild => ?_,
    fun directory newChildren hdir child hchild d hd => ?_⟩
  · rcases hcases _ _ hdir child hchild with ⟨rfl, rfl⟩ | ⟨old, hold, hchild⟩
    · rfl
    · exact h.parent _ _ hold child hchild
  · rw [AList.mem_insert]
    rcases hcases _ _ hdir child hchild with ⟨rfl, rfl⟩ | ⟨old, hold, hchild⟩
    · exact .inr (hentry d hd)
    · exact .inr (h.keyed _ _ hold child hchild d hd)

theorem readEntries_empty : ReadEntries ∅ :=
  ⟨nofun, nofun⟩

theorem readEntries_readStagedEntries {staged : StagedDb}
    (h : ∀ path entry, staged.lookup path = some entry → entry.path = path) :
    ReadEntries (readStagedEntries staged) := by
  have hpairs : ∀ pair ∈ KeyedMap.toList staged, pair.2.path = pair.1 :=
    fun pair hpair => h pair.1 pair.2 (KeyedMap.mem_toList.mp hpair)
  have hempty : ReadEntries ∅ := readEntries_empty
  rw [readStagedEntries]
  generalize KeyedMap.toList staged = pairs at hpairs ⊢
  generalize (∅ : DirEntries) = dirEntries at hempty ⊢
  induction pairs generalizing dirEntries with
  | nil => exact hempty
  | cons pair pairs ih =>
      refine ih (fun p hp => hpairs p (List.mem_cons_of_mem pair hp)) _ ?_
      obtain ⟨path, entry⟩ := pair
      obtain rfl : entry.path = path := hpairs _ List.mem_cons_self
      -- the key of a directory is there before the entry is added to its parent
      have hadd : ∀ {entries : DirEntries}, ReadEntries entries →
          (∀ d, entry.node = .directory d → entry.path ∈ entries) →
          ReadEntries (if entry.path = [] then entries
            else entries.insert entry.path.dropLast
              ((entries.lookup entry.path.dropLast).getD [] ++ [entry])) := by
        intro entries hentries hkey
        split
        · exact hentries
        · exact hentries.append hkey
      dsimp only
      cases hnode : entry.node with
      | directory d => exact hadd (hempty.insertNew entry.path) fun _ _ => mem_insertNew_self
      | file f => exact hadd hempty fun d h => by rw [hnode] at h; cases h
      | vnode v => exact hadd hempty fun d h => by rw [hnode] at h; cases h
      | commit c => exact hadd hempty fun d h => by rw [hnode] at h; cases h

/-- The staged entries lie in their own directories when the staged database has
every entry under its path. -/
theorem placedEntries_readStagedEntries {staged : StagedDb}
    (h : ∀ path entry, staged.lookup path = some entry → entry.path = path) :
    PlacedEntries (readStagedEntries staged) := by
  have hread := readEntries_readStagedEntries h
  have hfull : ∀ directory newChildren, (readStagedEntries staged).lookup directory =
      some newChildren → ∀ child ∈ newChildren, fullPath directory child = child.path := by
    intro directory newChildren hdir child hchild
    rw [fullPath, if_neg]
    rintro ⟨-, hprefix⟩
    apply hprefix
    rw [← hread.parent _ _ hdir child hchild]
    exact List.dropLast_prefix _
  refine ⟨fun directory newChildren hdir child hchild _ => ?_,
    fun directory newChildren hdir child hchild _ d hd => ?_⟩
  · rw [hfull _ _ hdir child hchild]
    exact hread.parent _ _ hdir child hchild
  · rw [hfull _ _ hdir child hchild]
    exact hread.keyed _ _ hdir child hchild d hd

end CommitWriter

end Oxen
