import Mathlib.Data.List.Perm.Subperm
import Oxen.Verification.Commit.Provenance
import Oxen.Verification.Commit.Staged

/-! The directories that a commit comes to, and what they list once it is written. -/

namespace Oxen

namespace CommitWriter

open MerkleTreeNode TreeWrites

/-! ## What a stored directory lists -/

section Stored

variable {host : Host} {db : NodeStore} {dirHashes : DirHashes} {directory path : PathBuf}
  {hash : MerkleHash} {entry : StagedMerkleTreeNode}

theorem listFilesAndFolders_of_held {d : DirNode} {vnodes : List MerkleTreeNode}
    (hheld : (mk (.directory d) vnodes).Held db)
    (hplaced : WellPlaced host path (mk (.directory d) vnodes)) :
    listFilesAndFolders db d.hash = (vnodes.flatMap children).map node := by
  rw [listFilesAndFolders, ← EMerkleTreeNode.hash_directory d, hheld.readChildren rfl,
    List.flatMap_map, List.map_flatMap]
  apply List.flatMap_congr
  intro v hv
  rcases hplaced.eq_vnode hv with ⟨w, cs, rfl⟩
  exact (hheld.child _ hv).readChildren rfl

/-- Entries under distinct paths are all found. -/
theorem lookup_foldl_insertNew_of_mem {entries : List StagedMerkleTreeNode}
    {m : KeyedMap.Map PathBuf StagedMerkleTreeNode} (hentry : entry ∈ entries)
    (huniq : ∀ e ∈ entries, e.path = entry.path → e = entry)
    (hm : ∀ e, m.lookup entry.path = some e → e = entry) :
    (entries.foldl (fun m e => KeyedMap.insertNew m e.path e) m).lookup entry.path =
      some entry := by
  -- once an entry is found under the path, it stays
  have hstays : ∀ (rest : List StagedMerkleTreeNode)
      (m : KeyedMap.Map PathBuf StagedMerkleTreeNode),
      m.lookup entry.path = some entry →
      (rest.foldl (fun m e => KeyedMap.insertNew m e.path e) m).lookup entry.path = some entry := by
    intro rest
    induction rest with
    | nil => exact fun m h => h
    | cons e rest ih =>
        intro m h
        rw [List.foldl_cons]
        apply ih
        rw [KeyedMap.lookup_insertNew]
        split
        · rename_i heq
          rw [← heq, h, Option.getD_some]
        · exact h
  induction entries generalizing m with
  | nil => cases hentry
  | cons e rest ih =>
      rw [List.foldl_cons]
      by_cases hpath : e.path = entry.path
      · obtain rfl := huniq e List.mem_cons_self hpath
        apply hstays
        rw [KeyedMap.lookup_insertNew, if_pos rfl]
        cases hold : m.lookup e.path with
        | none => rfl
        | some old => rw [hm old hold, Option.getD_some]
      · rcases List.mem_cons.mp hentry with rfl | hentry
        · exact absurd rfl hpath
        · refine ih hentry (fun c hc => huniq c (List.mem_cons_of_mem e hc)) fun old hold => ?_
          apply hm
          rwa [KeyedMap.lookup_insertNew, if_neg (Ne.symm hpath)] at hold

theorem path_nodeDataToStagedNode {n : EMerkleTreeNode}
    (h : nodeDataToStagedNode directory n = some entry) :
    entry.path = directory ++ n.ownPath [] := by
  cases n with
  | file f =>
      obtain rfl := Option.some.inj h
      rfl
  | directory d =>
      obtain rfl := Option.some.inj h
      rfl
  | vnode v => cases h
  | commit c => cases h

/-- The stored children of a directory that the index names are those that it lists. -/
theorem lookup_storedChildren (hgood : GoodDir host db directory hash)
    (hindex : dirHashes.lookup directory = some hash) :
    (storedChildren db dirHashes directory).lookup path = some entry ↔
      ∃ n ∈ listFilesAndFolders db hash, nodeDataToStagedNode directory n = some entry ∧
        entry.path = path := by
  rcases hgood with ⟨d, vnodes, rfl, hname, hheld, hplaced⟩
  have hexisting : existingNode db dirHashes directory = some d.hash := by
    rcases hheld.exists_record rfl with ⟨record, hr, -⟩
    rw [existingNode, hindex, Option.filter_some, if_pos]
    rw [← EMerkleTreeNode.hash_directory d, hr]
    rfl
  have hlisting := listFilesAndFolders_of_held hheld hplaced
  rw [storedChildren, hexisting, Option.map_some, Option.getD_some, getNodeDirChildren]
  constructor
  · intro h
    rcases lookup_foldl_insertNew h with h | ⟨hmem, hpath⟩
    · cases h
    · rcases List.mem_filterMap.mp hmem with ⟨n, hn, hentry⟩
      exact ⟨n, hn, hentry, hpath⟩
  · rintro ⟨n, hn, hentry, rfl⟩
    refine lookup_foldl_insertNew_of_mem (List.mem_filterMap.mpr ⟨n, hn, hentry⟩)
      (fun e he hpath => ?_) fun e he => by cases he
    rcases List.mem_filterMap.mp he with ⟨m, hm, he⟩
    rw [path_nodeDataToStagedNode he, path_nodeDataToStagedNode hentry] at hpath
    rw [hlisting] at hn hm
    rcases List.mem_map.mp hn with ⟨c, hc, rfl⟩
    rcases List.mem_map.mp hm with ⟨c', hc', rfl⟩
    have hnames := hplaced.bucketed.names
    obtain rfl := List.inj_on_of_nodup_map hnames hc' hc (List.append_cancel_left hpath)
    exact Option.some.inj (he.symm.trans hentry)

end Stored

/-! ## The directories that are written -/

section Written

variable (env : CommitEnv) (s : Repository) (head : Option CommitNode) (dirHashes : DirHashes)
  (dirEntries : DirEntries) (node : CommitNode)

/-- The directory that the commit writes at the path. -/
def writtenDir (path : PathBuf) : DirNode :=
  computeDirNode env.toHost node.hash (splitIntoVNodes env s.db dirHashes dirEntries)
    (oldDirs s head dirHashes) (oldFiles env s head) path

/-- The virtual nodes of the directory, with everything below them that is written. -/
def vnodesBelow (fuel : ℕ) (path : PathBuf) : List (TreePlan EMerkleTreeNode) :=
  plannedVNodes env.toHost s.db node.hash (splitIntoVNodes env s.db dirHashes dirEntries)
    (oldDirs s head dirHashes) (oldFiles env s head) fuel path

/-- The operations that write them. -/
def opsBelow (fuel : ℕ) (path : PathBuf) : List RepoOp :=
  rCreateDirNode env.toHost s.db node.hash (splitIntoVNodes env s.db dirHashes dirEntries)
    (oldDirs s head dirHashes) (oldFiles env s head) fuel path
    (writtenDir env s head dirHashes dirEntries node path).hash

/-- What is written for a child of a directory. -/
def writtenNode (entry : StagedMerkleTreeNode) : Option EMerkleTreeNode :=
  match entry.node with
  | .directory d =>
      if entry.path ∈ splitIntoVNodes env s.db dirHashes dirEntries then
        some (.directory (writtenDir env s head dirHashes dirEntries node entry.path))
      else
        match s.db d.hash with
        | some { node := .directory oldDirNode, .. } => some (.directory oldDirNode)
        | _ => none
  | .file f => some (.file (writtenFile node.hash entry.status f))
  | _ => none

/-- The writer comes to the directory, and has this much fuel left then. -/
inductive Reached : ℕ → PathBuf → Prop
  | root : Reached (splitIntoVNodes env s.db dirHashes dirEntries).keys.length []
  | child {fuel : ℕ} {directory : PathBuf} {vnodes : List EntryVNode}
      {removed : List StagedMerkleTreeNode} {v : EntryVNode} {entry : StagedMerkleTreeNode}
      {d : DirNode} (hdir : Reached (fuel + 1) directory)
      (hlookup : (splitIntoVNodes env s.db dirHashes dirEntries).lookup directory =
        some (vnodes, removed)) (hv : v ∈ vnodes) (hentry : entry ∈ v.entries)
      (hnode : entry.node = .directory d)
      (hkey : entry.path ∈ splitIntoVNodes env s.db dirHashes dirEntries) :
      Reached fuel entry.path

variable {env s head dirHashes dirEntries node} {fuel : ℕ} {directory path : PathBuf}
  {entry : StagedMerkleTreeNode}

theorem map_node_plannedEntry (below : PathBuf → List (TreePlan EMerkleTreeNode))
    (entry : StagedMerkleTreeNode) :
    (plannedEntry env.toHost s.db node.hash (splitIntoVNodes env s.db dirHashes dirEntries)
      (oldDirs s head dirHashes) (oldFiles env s head) below entry).map TreePlan.node =
      writtenNode env s head dirHashes dirEntries node entry := by
  unfold plannedEntry writtenNode
  cases entry.node with
  | directory d =>
      by_cases hkey : entry.path ∈ splitIntoVNodes env s.db dirHashes dirEntries
      · simp only [if_pos hkey]
        rfl
      · simp only [if_neg hkey]
        cases s.db d.hash with
        | none => rfl
        | some record =>
            obtain ⟨n, parentId, children⟩ := record
            cases n <;> rfl
  | file f => rfl
  | vnode v => rfl
  | commit c => rfl

theorem mem_records_of_child {vnodes : List EntryVNode} {removed : List StagedMerkleTreeNode}
    {v : EntryVNode} {d : DirNode}
    (hlookup : (splitIntoVNodes env s.db dirHashes dirEntries).lookup directory =
      some (vnodes, removed)) (hv : v ∈ vnodes) (hentry : entry ∈ v.entries)
    (hnode : entry.node = .directory d)
    (hkey : entry.path ∈ splitIntoVNodes env s.db dirHashes dirEntries) :
    ∀ r ∈ (TreePlan.write (.directory (writtenDir env s head dirHashes dirEntries node entry.path))
      (vnodesBelow env s head dirHashes dirEntries node fuel entry.path)).records,
      r ∈ (vnodesBelow env s head dirHashes dirEntries node (fuel + 1) directory).flatMap
        TreePlan.records := by
  intro r hr
  rw [vnodesBelow, plannedVNodes, hlookup]
  refine List.mem_flatMap.mpr ⟨_, List.mem_map_of_mem hv, ?_⟩
  rw [TreePlan.records_write]
  refine List.mem_cons_of_mem _ (List.mem_flatMap.mpr ⟨_, ?_, hr⟩)
  refine List.mem_filterMap.mpr ⟨entry, hentry, ?_⟩
  simp only [plannedEntry, hnode, if_pos hkey]
  rfl

/-- What is planned for a directory that the writer comes to is part of the whole plan. -/
theorem Reached.records (h : Reached env s dirHashes dirEntries fuel path) :
    ∀ r ∈ (vnodesBelow env s head dirHashes dirEntries node fuel path).flatMap TreePlan.records,
      r ∈ (rootVNodes env s head dirHashes dirEntries node).flatMap TreePlan.records := by
  induction h with
  | root => exact fun r hr => hr
  | @child fuel directory vnodes removed v entry d _ hlookup hv hentry hnode hkey ih =>
      intro r hr
      apply ih
      apply mem_records_of_child hlookup hv hentry hnode hkey
      rw [TreePlan.records_write]
      exact List.mem_cons_of_mem _ hr

theorem Reached.ops (h : Reached env s dirHashes dirEntries fuel path) :
    ∀ op ∈ opsBelow env s head dirHashes dirEntries node fuel path,
      op ∈ opsBelow env s head dirHashes dirEntries node
        (splitIntoVNodes env s.db dirHashes dirEntries).keys.length [] := by
  induction h with
  | root => exact fun op hop => hop
  | @child fuel directory vnodes removed v entry d _ hlookup hv hentry hnode hkey ih =>
      intro op hop
      apply ih
      rw [opsBelow, rCreateDirNode, hlookup]
      refine List.mem_flatMap.mpr ⟨v, hv, List.mem_cons_of_mem _ (List.mem_cons_of_mem _
        (List.mem_flatMap.mpr ⟨entry, hentry, ?_⟩))⟩
      simp only [hnode, if_pos hkey]
      refine List.mem_append_left _ (List.mem_cons_of_mem _ (List.mem_cons_of_mem _ ?_))
      exact hop

/-- A directory that the writer comes to is put into the index. -/
theorem Reached.put (h : Reached env s dirHashes dirEntries fuel path) (hne : path ≠ []) :
    .putDirHash node.hash path (writtenDir env s head dirHashes dirEntries node path).hash ∈
      opsBelow env s head dirHashes dirEntries node
        (splitIntoVNodes env s.db dirHashes dirEntries).keys.length [] := by
  cases h with
  | root => exact absurd rfl hne
  | @child _ directory vnodes removed v entry d hdir hlookup hv hentry hnode hkey =>
      apply hdir.ops
      rw [opsBelow, rCreateDirNode, hlookup]
      refine List.mem_flatMap.mpr ⟨v, hv, List.mem_cons_of_mem _ (List.mem_cons_of_mem _
        (List.mem_flatMap.mpr ⟨entry, hentry, ?_⟩))⟩
      simp only [hnode, if_pos hkey]
      exact List.mem_append_right _ (List.mem_singleton.mpr rfl)

/-- The records of a directory that the writer comes to are planned. -/
theorem Reached.planned (h : Reached env s dirHashes dirEntries fuel path) :
    ∀ r ∈ (TreePlan.write (.directory (writtenDir env s head dirHashes dirEntries node path))
      (vnodesBelow env s head dirHashes dirEntries node fuel path)).records,
      r ∈ (commitPlan env s head dirHashes dirEntries node).records := by
  have hroot : ∀ r ∈ (rootPlan env s head dirHashes dirEntries node).records,
      r ∈ (commitPlan env s head dirHashes dirEntries node).records := by
    intro r hr
    rw [commitPlan, TreePlan.records_write]
    exact List.mem_cons_of_mem _ (List.mem_flatMap.mpr ⟨_, List.mem_singleton.mpr rfl, hr⟩)
  intro r hr
  apply hroot
  cases h with
  | root => exact hr
  | @child _ directory vnodes removed v entry d hdir hlookup hv hentry hnode hkey =>
      rw [rootPlan, TreePlan.records_write]
      exact List.mem_cons_of_mem _ (hdir.records r
        (mem_records_of_child hlookup hv hentry hnode hkey r hr))

/-! ## The writer comes to all that is staged -/

theorem lookup_splitIntoVNodes {newChildren : List StagedMerkleTreeNode}
    (hdir : dirEntries.lookup directory = some newChildren) :
    (splitIntoVNodes env s.db dirHashes dirEntries).lookup directory =
      some (splitDirectory env s.db dirHashes directory newChildren) := by
  rw [splitIntoVNodes, KeyedMap.lookup_mapValues, hdir]
  rfl

theorem exists_mem_entries {newChildren : List StagedMerkleTreeNode}
    (hdir : dirEntries.lookup directory = some newChildren)
    (h : (dirChildren s.db dirHashes directory newChildren).children.lookup path = some entry) :
    ∃ vnodes removed, (splitIntoVNodes env s.db dirHashes dirEntries).lookup directory =
      some (vnodes, removed) ∧ ∃ v ∈ vnodes, entry ∈ v.entries := by
  let children :=
    (KeyedMap.toList (dirChildren s.db dirHashes directory newChildren).children).map Prod.snd
  have hentry : entry ∈ children :=
    List.mem_map.mpr ⟨(path, entry), KeyedMap.mem_toList.mpr h, rfl⟩
  have hpos : 0 < env.numVNodes children.length :=
    env.numVNodes_pos _ (List.length_pos_of_mem hentry)
  have hbucket : CommitMerkleTree.bucketOf env.toHost entry.path (env.numVNodes children.length) ∈
      List.range (env.numVNodes children.length) := List.mem_range.mpr (Nat.mod_lt _ hpos)
  exact ⟨_, _, lookup_splitIntoVNodes hdir, _, List.mem_map_of_mem hbucket,
    mem_bucketEntries.mpr ⟨hentry, rfl⟩⟩

theorem mem_splitIntoVNodes :
    path ∈ splitIntoVNodes env s.db dirHashes dirEntries ↔ path ∈ dirEntries :=
  KeyedMap.mem_mapValues

/-- All directories on the way to a path take part in the number of directories. -/
theorem WholeStaging.length_lt (h : WholeStaging dirHashes dirEntries) (hpath : path ∈ dirEntries) :
    path.length < (splitIntoVNodes env s.db dirHashes dirEntries).keys.length := by
  let above := (List.range (path.length + 1)).map fun n => path.take n
  have hnodup : above.Nodup := by
    refine List.Nodup.map_on (fun i hi j hj heq => ?_) List.nodup_range
    have hlength := congrArg List.length heq
    rw [List.length_take, List.length_take] at hlength
    rw [List.mem_range] at hi hj
    omega
  have hsub : above ⊆ (splitIntoVNodes env s.db dirHashes dirEntries).keys := by
    intro p hp
    rcases List.mem_map.mp hp with ⟨n, -, rfl⟩
    apply AList.mem_keys.mp
    rw [mem_splitIntoVNodes]
    refine @prefix_mem _ _ _ h (path.drop n) ?_
    rwa [List.take_append_drop]
  have hle := (hnodup.subperm hsub).length_le
  rw [List.length_map, List.length_range] at hle
  omega

/-- A directory is kept when neither it nor one above it is removed. -/
def Kept (dirEntries : DirEntries) (path : PathBuf) : Prop :=
  ∀ above, above <+: path → ∀ entry, Staged dirEntries above entry → entry.status ≠ .removed

theorem WholeStaging.reached (h : WholeStaging dirHashes dirEntries)
    (hpath : path ∈ dirEntries) (hkept : Kept dirEntries path) :
    Reached env s dirHashes dirEntries
      ((splitIntoVNodes env s.db dirHashes dirEntries).keys.length - path.length) path := by
  induction path using List.reverseRecOn with
  | nil => exact .root
  | append_singleton directory name ih =>
      have hdirectory : directory ∈ dirEntries := h.prefix_mem hpath
      have hreached := ih hdirectory fun above habove =>
        hkept above (habove.trans (List.prefix_append directory [name]))
      rcases h.listed _ hpath (by simp) with ⟨entry, d, hstaged, hnode⟩
      have hstatus := hkept _ (List.prefix_refl _) entry hstaged
      have hentry := hstaged.2.1
      rcases hstaged.2.2 with ⟨newChildren, hdir, -⟩
      have hchild := (@lookup_dirChildren s.db _ _ _ _ _ h hdir).mpr (.inl ⟨hstaged, hstatus⟩)
      rcases @exists_mem_entries env _ _ _ _ _ _ _ hdir hchild with
        ⟨vnodes, removed, hlookup, v, hv, hmem⟩
      have hlength := @length_lt env s _ _ _ h hpath
      rw [List.length_append, List.length_singleton] at hlength ⊢
      have hfuel : (splitIntoVNodes env s.db dirHashes dirEntries).keys.length - directory.length =
          (splitIntoVNodes env s.db dirHashes dirEntries).keys.length - (directory.length + 1) +
            1 := by
        omega
      rw [hfuel] at hreached
      rw [List.dropLast_concat] at hlookup
      have hkey : entry.path ∈ splitIntoVNodes env s.db dirHashes dirEntries := by
        rwa [hentry, mem_splitIntoVNodes]
      have hnext := Reached.child hreached hlookup hv hmem hnode hkey
      rwa [hentry] at hnext

/-! ## What a written directory lists -/

/-- A directory that the writer comes to lists its children, in the database it leaves. -/
theorem WholeStaging.mem_listFilesAndFolders (h : WholeStaging dirHashes dirEntries)
    (hindex : GoodIndex env.toHost s.db dirHashes) (hpath : path ∈ dirEntries)
    (hkept : Kept dirEntries path) {db' : NodeStore} (hext : s.db.Extends db')
    (hnew : HasRecords db' (commitPlan env s head dirHashes dirEntries node).records)
    {newChildren : List StagedMerkleTreeNode}
    (hdir : dirEntries.lookup path = some newChildren) {n : EMerkleTreeNode} :
    n ∈ listFilesAndFolders db' (writtenDir env s head dirHashes dirEntries node path).hash ↔
      ∃ below entry, (dirChildren s.db dirHashes path newChildren).children.lookup below =
        some entry ∧ writtenNode env s head dirHashes dirEntries node entry = some n := by
  have hlength := @length_lt env s _ _ _ h hpath
  have hreached := @reached env s _ _ _ h hpath hkept
  obtain ⟨fuel, hfuel⟩ : ∃ fuel, (splitIntoVNodes env s.db dirHashes dirEntries).keys.length -
      path.length = fuel + 1 := ⟨_, (Nat.succ_pred_eq_of_pos (by omega)).symm⟩
  rw [hfuel] at hreached
  have hbelow : PlannedBelow env.toHost s.db
      (vnodesBelow env s head dirHashes dirEntries node (fuel + 1)) :=
    plannedBelow_plannedVNodes (wellSplit_of_lookup hindex h.placed) (fuel + 1)
  have hplaced := hbelow.wellPlaced path (writtenDir env s head dirHashes dirEntries node path) rfl
  have hheld := (Sound.write rfl (hbelow.sound path)).held hext
    (fun r hr => hnew r (hreached.planned r hr))
  rw [plannedTree_write] at hheld hplaced
  have hsplit := @lookup_splitIntoVNodes env s dirHashes dirEntries path newChildren hdir
  rw [listFilesAndFolders_of_held hheld hplaced, vnodesBelow, plannedVNodes, hsplit]
  simp only [List.mem_map, List.mem_flatMap]
  constructor
  · rintro ⟨c, ⟨t, ⟨plan, ⟨v, hv, rfl⟩, rfl⟩, hc⟩, rfl⟩
    rw [plannedTree_write, children_mk] at hc
    rcases List.mem_map.mp hc with ⟨p, hp, rfl⟩
    rcases List.mem_filterMap.mp hp with ⟨entry, hentry, hplan⟩
    rcases exists_lookup_of_mem_entries hsplit hv hentry with ⟨children, below, hlookup, hchild⟩
    obtain rfl := Option.some.inj (hdir.symm.trans hlookup)
    have hwritten := congrArg (Option.map TreePlan.node) hplan
    rw [map_node_plannedEntry] at hwritten
    exact ⟨below, entry, hchild, by rw [hwritten, node_plannedTree]; rfl⟩
  · rintro ⟨below, entry, hchild, hwritten⟩
    rcases @exists_mem_entries env _ _ _ _ _ _ _ hdir hchild with
      ⟨vnodes, removed, hlookup, v, hv, hentry⟩
    obtain rfl := congrArg Prod.fst (Option.some.inj (hsplit.symm.trans hlookup))
    rw [← map_node_plannedEntry (fun directory =>
      vnodesBelow env s head dirHashes dirEntries node fuel directory)] at hwritten
    rcases Option.map_eq_some_iff.mp hwritten with ⟨plan, hplan, rfl⟩
    refine ⟨plannedTree s.db plan, ⟨_, ⟨_, ⟨v, hv, rfl⟩, rfl⟩, ?_⟩, node_plannedTree s.db plan⟩
    rw [plannedTree_write, children_mk]
    exact List.mem_map_of_mem (List.mem_filterMap.mpr ⟨entry, hentry, hplan⟩)

end Written

end CommitWriter

end Oxen
