import Oxen.Verification.Commit.Reached

/-! The index of a commit names the directories of its tree. -/

namespace Oxen

open TreeWrites

/-! ## What operations do to one key of an index -/

/-- What an operation makes of the key of the index, if it touches it. -/
def RepoOp.effect? (commitId : MerkleHash) (path : PathBuf) : RepoOp → Option (Option MerkleHash)
  | putDirHash id p value => if id = commitId ∧ p = path then some (some value) else none
  | deleteDirHash id p => if id = commitId ∧ p = path then some none else none
  | _ => none

section Effects

variable {s : Repository} {ops : List RepoOp} {commitId : MerkleHash} {path : PathBuf}
  {value : Option MerkleHash}

theorem lookup_dirHashes_apply (s : Repository) (op : RepoOp) (commitId : MerkleHash)
    (path : PathBuf) : ((op.apply s).dirHashes commitId).lookup path =
      (op.effect? commitId path).getD ((s.dirHashes commitId).lookup path) := by
  cases op with
  | putDirHash id p hash =>
      by_cases hid : id = commitId
      · subst hid
        by_cases hp : p = path
        · subst hp
          simp [RepoOp.apply, RepoOp.effect?]
        · simp [RepoOp.apply, RepoOp.effect?, hp, AList.lookup_insert_ne (Ne.symm hp)]
      · simp [RepoOp.apply, RepoOp.effect?, hid, Function.update_of_ne (Ne.symm hid)]
  | deleteDirHash id p =>
      by_cases hid : id = commitId
      · subst hid
        by_cases hp : p = path
        · subst hp
          simp [RepoOp.apply, RepoOp.effect?]
        · simp [RepoOp.apply, RepoOp.effect?, hp, AList.lookup_erase_ne (Ne.symm hp)]
      · simp [RepoOp.apply, RepoOp.effect?, hid, Function.update_of_ne (Ne.symm hid)]
  | _ => rfl

/-- Operations that agree on a key leave it as they say. -/
theorem lookup_dirHashes_run_of_effects
    (hall : ∀ op ∈ ops, ∀ v, op.effect? commitId path = some v → v = value)
    (hsome : (∃ op ∈ ops, op.effect? commitId path = some value) ∨
      (s.dirHashes commitId).lookup path = value) :
    ((s.run ops).dirHashes commitId).lookup path = value := by
  induction ops generalizing s with
  | nil =>
      rcases hsome with ⟨op, hop, -⟩ | hsame
      · cases hop
      · exact hsame
  | cons op ops ih =>
      apply ih (fun o ho => hall o (List.mem_cons_of_mem op ho))
      rw [lookup_dirHashes_apply]
      cases heffect : op.effect? commitId path with
      | some v =>
          right
          rw [Option.getD_some, hall op List.mem_cons_self v heffect]
      | none =>
          rcases hsome with ⟨o, ho, heq⟩ | hsame
          · rcases List.mem_cons.mp ho with rfl | ho
            · rw [heffect] at heq
              cases heq
            · exact .inl ⟨o, ho, heq⟩
          · exact .inr hsame

theorem run_append (s : Repository) (xs ys : List RepoOp) :
    s.run (xs ++ ys) = (s.run xs).run ys :=
  List.foldl_append

theorem effect?_putDirHash {p : PathBuf} {hash : MerkleHash} {v : Option MerkleHash}
    (h : (RepoOp.putDirHash commitId p hash).effect? commitId path = some v) :
    p = path ∧ v = some hash := by
  simp only [RepoOp.effect?, true_and] at h
  split at h
  · rename_i hp
    exact ⟨hp, (Option.some.inj h).symm⟩
  · cases h

theorem effect?_putDirHash_self {hash : MerkleHash} :
    (RepoOp.putDirHash commitId path hash).effect? commitId path = some (some hash) :=
  if_pos ⟨rfl, rfl⟩

theorem effect?_deleteDirHash_self :
    (RepoOp.deleteDirHash commitId path).effect? commitId path = some none :=
  if_pos ⟨rfl, rfl⟩

end Effects

namespace CommitWriter

open MerkleTreeNode

/-! ## The operations of one call -/

section Ops

variable {env : CommitEnv} {s : Repository} {dirEntries : DirEntries} {node : CommitNode}
  {commitId : MerkleHash} {path : PathBuf} {removed : List StagedMerkleTreeNode}

/-- Operations that touch neither nodes nor indexes. -/
def Idle (ops : List RepoOp) : Prop :=
  ∀ op ∈ ops, op.write? = none ∧ ∀ commitId path, op.effect? commitId path = none

theorem idle_nil : Idle [] :=
  fun op hop => by cases hop

theorem idle_createCommitData {parents : List String} {cleanup : List RepoOp}
    {newCommit : NewCommit} (h : createCommitData env s parents = .ok (cleanup, newCommit)) :
    Idle cleanup := by
  rw [createCommitData] at h
  split at h
  · obtain ⟨rfl, -⟩ := Prod.mk.inj (Except.ok.inj h)
    exact idle_nil
  · cases h
  · obtain ⟨rfl, -⟩ := Prod.mk.inj (Except.ok.inj h)
    intro op hop
    rcases List.mem_pair.mp hop with rfl | rfl
    · exact ⟨rfl, fun _ _ => rfl⟩
    · exact ⟨rfl, fun _ _ => rfl⟩

theorem CommitCall.exists_ops (call : CommitCall)
    (h : (call.plan env s dirEntries).result = .ok node) {head onto : Option CommitNode}
    (hhead : Commits.headCommitMaybe s.db s.refs = .ok head) (honto : call.base s = .ok onto) :
    ∃ before parentId after, Idle before ∧
      (after = [] ∨ after = cacheInvalidateDirHashDb node.hash (allStaged dirEntries)) ∧
      (call.plan env s dirEntries).ops =
        before ++ writeTree env s head (indexOf s onto) dirEntries node parentId ++ after := by
  cases call with
  | new =>
      obtain rfl := Except.ok.inj (hhead.symm.trans honto)
      simp only [CommitCall.plan, commitDirEntriesNew, hhead] at h ⊢
      split at h
      · cases h
      · rename_i cleanup newCommit hdata
        split at h
        · cases h
        · obtain rfl := Except.ok.inj h
          exact ⟨cleanup, _, _, idle_createCommitData hdata, .inr rfl, rfl⟩
  | withParents parentCommits target =>
      have honto : targetCommit s target = .ok onto := honto
      simp only [CommitCall.plan, commitDirEntriesWithParents, honto, hhead] at h ⊢
      split at h
      · cases h
      · rename_i cleanup newCommit hdata
        obtain rfl := Except.ok.inj h
        exact ⟨cleanup, _, [], idle_createCommitData hdata, .inl rfl, (List.append_nil _).symm⟩
  | onto targetBranch =>
      have honto : targetCommit s targetBranch = .ok onto := honto
      simp only [CommitCall.plan, commitDirEntries, honto, hhead] at h ⊢
      split at h
      · cases h
      · rename_i hne
        obtain rfl := Except.ok.inj h
        simp only [if_neg hne]
        exact ⟨[], _, _, idle_nil, .inr rfl, rfl⟩

theorem effect?_cacheInvalidateDirHashDb {op : RepoOp}
    (hop : op ∈ cacheInvalidateDirHashDb commitId removed) {v : Option MerkleHash}
    (hv : op.effect? commitId path = some v) :
    v = none ∧ ∃ child ∈ removed, child.status = .removed ∧ child.path = path ∧
      ∃ d, child.node = .directory d := by
  rcases List.mem_filterMap.mp hop with ⟨child, hchild, hop⟩
  split at hop
  · rename_i d hstatus hnode
    obtain rfl := Option.some.inj hop
    simp only [RepoOp.effect?, true_and] at hv
    split at hv
    · rename_i hpath
      refine ⟨(Option.some.inj hv).symm, child, hchild, hstatus, ?_, d, hnode⟩
      rw [StagedMerkleTreeNode.path, hnode]
      exact hpath
    · cases hv
  · cases hop

theorem delete_mem_cacheInvalidateDirHashDb {child : StagedMerkleTreeNode}
    (hchild : child ∈ removed) (hstatus : child.status = .removed) {d : DirNode} (hnode : child.node = .directory d) :
    .deleteDirHash commitId child.path ∈ cacheInvalidateDirHashDb commitId removed := by
  refine List.mem_filterMap.mpr ⟨child, hchild, ?_⟩
  obtain ⟨status, n⟩ := child
  obtain rfl : status = .removed := hstatus
  obtain rfl : n = .directory d := hnode
  rfl

end Ops

/-! ## Indexes that follow the directories -/

/-- A directory that the index names is listed by its parent, which the index names, too,
and the directories that it lists are named with their hashes. -/
structure MirrorIndex (db : NodeStore) (dirHashes : DirHashes) : Prop where
  child : ∀ directory hash d, dirHashes.lookup directory = some hash →
    .directory d ∈ listFilesAndFolders db hash →
      dirHashes.lookup (directory ++ d.name) = some d.hash
  parent : ∀ path hash, path ≠ [] → dirHashes.lookup path = some hash →
    ∃ above d, dirHashes.lookup path.dropLast = some above ∧
      .directory d ∈ listFilesAndFolders db above ∧ path.dropLast ++ d.name = path

section Mirror

variable {db db' : NodeStore} {dirHashes : DirHashes} {dirEntries : DirEntries}
  {path above : PathBuf} {entry : StagedMerkleTreeNode}

theorem mirrorIndex_empty (db : NodeStore) : MirrorIndex db ∅ :=
  ⟨nofun, nofun⟩

theorem listFilesAndFolders_mono (hext : db.Extends db') {host : Host} {hash : MerkleHash}
    (hgood : GoodDir host db path hash) :
    listFilesAndFolders db' hash = listFilesAndFolders db hash := by
  rcases hgood with ⟨d, vnodes, rfl, -, hheld, hplaced⟩
  rw [listFilesAndFolders_of_held hheld hplaced,
    listFilesAndFolders_of_held (hheld.mono hext) hplaced]

theorem MirrorIndex.mono {host : Host} (h : MirrorIndex db dirHashes) (hext : db.Extends db')
    (hindex : GoodIndex host db dirHashes) : MirrorIndex db' dirHashes := by
  constructor
  · intro directory hash d hlookup hd
    rw [listFilesAndFolders_mono hext (hindex _ _ hlookup)] at hd
    exact h.child directory hash d hlookup hd
  · intro path hash hne hlookup
    rcases h.parent path hash hne hlookup with ⟨up, d, hup, hd, hpath⟩
    refine ⟨up, d, hup, ?_, hpath⟩
    rwa [listFilesAndFolders_mono hext (hindex _ _ hup)]

/-- Something is staged under the path, or the index has it. -/
def Known (dirHashes : DirHashes) (dirEntries : DirEntries) (path : PathBuf) : Prop :=
  (∃ entry, Staged dirEntries path entry) ∨ path ∈ dirHashes

theorem WholeStaging.known_of_mem (h : WholeStaging dirHashes dirEntries)
    (hpath : path ∈ dirEntries) (hne : path ≠ []) : Known dirHashes dirEntries path := by
  rcases h.listed path hpath hne with ⟨entry, d, hstaged, -⟩
  exact .inl ⟨entry, hstaged⟩

theorem Known.parent (h : WholeStaging dirHashes dirEntries) (hmirror : MirrorIndex db dirHashes)
    (hknown : Known dirHashes dirEntries path) (hne : path ≠ []) (hup : path.dropLast ≠ []) :
    Known dirHashes dirEntries path.dropLast := by
  rcases hknown with ⟨entry, -, -, newChildren, hdir, -⟩ | hmem
  · exact h.known_of_mem (AList.lookup_isSome.mp (by rw [hdir]; rfl)) hup
  · rcases Option.isSome_iff_exists.mp (AList.lookup_isSome.mpr hmem) with ⟨hash, hlookup⟩
    rcases hmirror.parent path hash hne hlookup with ⟨up, d, hlookup, -⟩
    exact .inr (AList.lookup_isSome.mp (by rw [hlookup]; rfl))

/-- Whatever is known below a removed directory is removed. -/
theorem Known.removed (h : WholeStaging dirHashes dirEntries) (hmirror : MirrorIndex db dirHashes)
    (hknown : Known dirHashes dirEntries path) (habove : above <+: path)
    (hstaged : Staged dirEntries above entry) (hstatus : entry.status = .removed) :
    ∃ entry', Staged dirEntries path entry' ∧ entry'.status = .removed := by
  obtain ⟨rest, rfl⟩ := habove
  induction rest using List.reverseRecOn with
  | nil =>
      rw [List.append_nil]
      exact ⟨entry, hstaged, hstatus⟩
  | append_singleton rest name ih =>
      have hup : (above ++ (rest ++ [name])).dropLast = above ++ rest := by
        rw [← List.append_assoc, List.dropLast_concat]
      have hne : above ++ (rest ++ [name]) ≠ [] := by simp
      have hupper : above ++ rest ≠ [] := by
        intro hnil
        exact hstaged.1 (List.append_eq_nil_iff.mp hnil).1
      have hparent := hknown.parent h hmirror hne (by rwa [hup])
      rw [hup] at hparent
      rcases ih hparent with ⟨parent, hparentStaged, hparentStatus⟩
      exact h.removed _ parent hparentStaged hparentStatus _ hne hup hknown

/-- Nothing above what is known and not removed is removed. -/
theorem Known.kept (h : WholeStaging dirHashes dirEntries) (hmirror : MirrorIndex db dirHashes)
    (hknown : Known dirHashes dirEntries path)
    (hlive : ∀ entry, Staged dirEntries path entry → entry.status ≠ .removed) :
    Kept dirEntries path := by
  intro above habove entry hstaged hstatus
  rcases hknown.removed h hmirror habove hstaged hstatus with ⟨entry', hentry', hremoved⟩
  exact hlive entry' hentry' hremoved

/-- A stored child that is a directory has the hash that the index names. -/
theorem MirrorIndex.lookup_stored (hmirror : MirrorIndex db dirHashes) {directory : PathBuf}
    (hstored : (storedChildren db dirHashes directory).lookup path = some entry)
    (hpath : entry.path = path) {d : DirNode} (hnode : entry.node = .directory d) :
    dirHashes.lookup path = some d.hash := by
  rcases storedChild_origin hstored with ⟨hash, hlookup, m, hm, hstaged⟩
  have hname := path_nodeDataToStagedNode hstaged
  cases m with
  | directory e =>
      have hsame := congrArg StagedMerkleTreeNode.node (Option.some.inj hstaged)
      rw [hnode] at hsame
      obtain rfl := EMerkleTreeNode.directory.inj hsame
      rw [← hpath, hname]
      exact hmirror.child directory hash e hlookup hm
  | file f =>
      have hsame := congrArg StagedMerkleTreeNode.node (Option.some.inj hstaged)
      rw [hnode] at hsame
      cases hsame
  | vnode w => cases hstaged
  | commit c => cases hstaged

theorem kept_nil : Kept dirEntries [] := by
  intro above hprefix entry hstaged
  exact absurd (List.prefix_nil.mp hprefix) hstaged.1

end Mirror

/-! ## The index that one call leaves -/

section Index

variable {env : CommitEnv} {s : Repository} {head : Option CommitNode} {dirHashes : DirHashes}
  {dirEntries : DirEntries} {node : CommitNode} {path : PathBuf}

/-- A path that is put below a directory gets the hash of what is there. -/
theorem effect?_opsBelow (h : WholeStaging dirHashes dirEntries)
    (hindex : GoodIndex env.toHost s.db dirHashes) (hmirror : MirrorIndex s.db dirHashes)
    {fuel : ℕ} {directory : PathBuf} {op : RepoOp}
    (hop : op ∈ opsBelow env s head dirHashes dirEntries node fuel directory)
    {v : Option MerkleHash} (hv : op.effect? node.hash path = some v) :
    (path ∈ dirEntries ∧ v = some (writtenDir env s head dirHashes dirEntries node path).hash) ∨
      (path ∉ dirEntries ∧ v = dirHashes.lookup path) := by
  induction fuel generalizing directory with
  | zero => cases hop
  | succ fuel ih =>
      rw [opsBelow, rCreateDirNode] at hop
      cases hdir : (splitIntoVNodes env s.db dirHashes dirEntries).lookup directory with
      | none =>
          rw [hdir] at hop
          cases hop
      | some written =>
          obtain ⟨vnodes, removed⟩ := written
          rw [hdir] at hop
          simp only [List.mem_flatMap, List.mem_cons] at hop
          rcases hop with ⟨v', hv', rfl | rfl | ⟨entry, hentry, hop⟩⟩
          · cases hv
          · cases hv
          · have hok := (wellSplit_of_lookup hindex h.placed directory vnodes removed hdir).childOk
              entry (List.mem_flatMap.mpr ⟨v', hv', hentry⟩)
            cases hnode : entry.node with
            | file f =>
                simp only [hnode, List.mem_singleton] at hop
                subst hop
                cases hv
            | vnode w => simp [hnode] at hop
            | commit c => simp [hnode] at hop
            | directory d =>
                simp only [hnode] at hop
                split at hop
                · rename_i hkey
                  rcases List.mem_append.mp hop with hop | hop
                  · rcases List.mem_cons.mp hop with rfl | hop
                    · cases hv
                    rcases List.mem_cons.mp hop with rfl | hop
                    · cases hv
                    · exact ih hop
                  · obtain rfl := List.mem_singleton.mp hop
                    rcases effect?_putDirHash hv with ⟨rfl, rfl⟩
                    exact .inl ⟨mem_splitIntoVNodes.mp hkey, rfl⟩
                · rename_i hkey
                  rw [mem_splitIntoVNodes] at hkey
                  rcases exists_lookup_of_mem_entries hdir hv' hentry with
                    ⟨newChildren, below, hlookup, hchild⟩
                  -- the directory is stored and keeps its hash
                  have hgood := (hok.known d hnode).resolve_left
                    (fun hmem => hkey (mem_splitIntoVNodes.mp hmem))
                  rcases hgood.exists_record with ⟨record, old, -, hr, hold, hhash, -⟩
                  obtain ⟨n, parentId, children⟩ := record
                  obtain rfl : n = .directory old := hold
                  rw [hr] at hop
                  simp only [List.mem_cons, List.not_mem_nil, or_false] at hop
                  rcases hop with rfl | rfl
                  · cases hv
                  · rcases effect?_putDirHash hv with ⟨rfl, rfl⟩
                    have hbelow := (childOk_dirChildren hindex h.placed hlookup hchild).path_eq
                    subst hbelow
                    have hparent := hok.parent
                    subst hparent
                    rcases (h.lookup_dirChildren hlookup).mp hchild with
                      ⟨hstaged, hstatus⟩ | ⟨-, hstored⟩
                    · exact absurd (h.keyed _ entry hstaged hstatus d hnode) hkey
                    · rw [hmirror.lookup_stored hstored rfl hnode, hhash]
                      exact .inr ⟨hkey, rfl⟩

/-- What is taken out of the index is staged as a removed directory. -/
theorem effect?_deletes (h : WholeStaging dirHashes dirEntries) {after : List RepoOp}
    (hafter : after = [] ∨ after = cacheInvalidateDirHashDb node.hash (allStaged dirEntries))
    {op : RepoOp} (hop : op ∈ cacheInvalidateDirHashDb node.hash
      ((KeyedMap.toList (splitIntoVNodes env s.db dirHashes dirEntries)).flatMap
        fun entry => entry.2.2) ++ after)
    {v : Option MerkleHash} (hv : op.effect? node.hash path = some v) :
    v = none ∧ ∃ entry d, Staged dirEntries path entry ∧ entry.status = .removed ∧
      entry.node = .directory d := by
  have hstaged : ∀ directory newChildren child, dirEntries.lookup directory = some newChildren →
      child ∈ newChildren → child.path = path → Staged dirEntries path child := by
    intro directory newChildren child hdir hchild hpath
    rw [← hpath]
    exact h.staged_of_mem hdir hchild
  rcases List.mem_append.mp hop with hop | hop
  · rcases effect?_cacheInvalidateDirHashDb hop hv with ⟨rfl, child, hchild, hstatus, hpath, d, hd⟩
    rcases List.mem_flatMap.mp hchild with ⟨⟨directory, vnodes, removed⟩, hmem, hchild⟩
    have hlookup := KeyedMap.mem_toList.mp hmem
    rw [splitIntoVNodes, KeyedMap.lookup_mapValues] at hlookup
    rcases Option.map_eq_some_iff.mp hlookup with ⟨newChildren, hdir, hsplit⟩
    obtain rfl := congrArg Prod.snd hsplit
    have hremoved := (@WholeStaging.mem_removed_iff s.db _ _ _ _ h _ hdir).mp
      (List.mem_map.mp hchild)
    exact ⟨rfl, child, d, hstaged _ _ _ hdir hremoved.1 hpath, hstatus, hd⟩
  · rcases hafter with rfl | rfl
    · cases hop
    · rcases effect?_cacheInvalidateDirHashDb hop hv with
        ⟨rfl, child, hchild, hstatus, hpath, d, hd⟩
      rcases List.mem_flatMap.mp hchild with ⟨⟨directory, newChildren⟩, hmem, hchild⟩
      exact ⟨rfl, child, d, hstaged _ _ _ (KeyedMap.mem_toList.mp hmem) hchild hpath, hstatus, hd⟩

theorem delete_mem (h : WholeStaging dirHashes dirEntries) {entry : StagedMerkleTreeNode}
    (hstaged : Staged dirEntries path entry) (hstatus : entry.status = .removed) {d : DirNode}
    (hnode : entry.node = .directory d) :
    .deleteDirHash node.hash path ∈ cacheInvalidateDirHashDb node.hash
      ((KeyedMap.toList (splitIntoVNodes env s.db dirHashes dirEntries)).flatMap
        fun entry => entry.2.2) := by
  obtain ⟨-, rfl, newChildren, hdir, hentry⟩ := hstaged
  have hremoved : entry ∈ (splitDirectory env s.db dirHashes entry.path.dropLast newChildren).2 :=
    List.mem_map.mpr ((h.mem_removed_iff hdir).mpr ⟨hentry, hstatus⟩)
  exact delete_mem_cacheInvalidateDirHashDb (List.mem_flatMap.mpr
    ⟨_, KeyedMap.mem_toList.mpr (lookup_splitIntoVNodes hdir), hremoved⟩) hstatus hnode

theorem effect?_openCommit {parentId : Option MerkleHash} {op : RepoOp}
    (hop : op ∈ openCommit dirHashes node parentId) {v : Option MerkleHash}
    (hv : op.effect? node.hash path = some v) : v = dirHashes.lookup path := by
  rcases List.mem_append.mp hop with hop | hop
  · rcases List.mem_map.mp hop with ⟨⟨p, hash⟩, hmem, rfl⟩
    rcases effect?_putDirHash hv with ⟨rfl, rfl⟩
    exact (KeyedMap.mem_toList.mp hmem).symm
  · obtain rfl := List.mem_singleton.mp hop
    cases hv

variable (env s head dirHashes dirEntries node) in
/-- The operations between the copy of the index and the removals. -/
def rootOps : List RepoOp :=
  let dirNode := writtenDir env s head dirHashes dirEntries node []
  .addChild node.hash (.directory dirNode) :: .putDirHash node.hash [] dirNode.hash ::
    .openReadWrite (.directory dirNode) (some node.hash) ::
    opsBelow env s head dirHashes dirEntries node
      (splitIntoVNodes env s.db dirHashes dirEntries).keys.length []

theorem run_writeTree (before after : List RepoOp) (parentId : Option MerkleHash) :
    s.run (before ++ writeTree env s head dirHashes dirEntries node parentId ++ after) =
      (((s.run before).run (openCommit dirHashes node parentId)).run
        (rootOps env s head dirHashes dirEntries node)).run
          (cacheInvalidateDirHashDb node.hash
            ((KeyedMap.toList (splitIntoVNodes env s.db dirHashes dirEntries)).flatMap
              fun entry => entry.2.2) ++ after) := by
  have hops : before ++ writeTree env s head dirHashes dirEntries node parentId ++ after =
      before ++ (openCommit dirHashes node parentId ++
        (rootOps env s head dirHashes dirEntries node ++ (cacheInvalidateDirHashDb node.hash
          ((KeyedMap.toList (splitIntoVNodes env s.db dirHashes dirEntries)).flatMap
            fun entry => entry.2.2) ++ after))) := by
    rw [List.append_assoc, writeTree, List.append_assoc, ← List.append_assoc (rootOps ..)]
    rfl
  rw [hops, run_append, run_append, run_append]

section Lookup

variable (h : WholeStaging dirHashes dirEntries) {before after : List RepoOp}
  (parentId : Option MerkleHash)
  (hafter : after = [] ∨ after = cacheInvalidateDirHashDb node.hash (allStaged dirEntries))
include h hafter

/-- A removed directory leaves the index. -/
theorem lookup_index_removed {entry : StagedMerkleTreeNode}
    (hstaged : Staged dirEntries path entry) (hstatus : entry.status = .removed) {d : DirNode}
    (hnode : entry.node = .directory d) :
    ((s.run (before ++ writeTree env s head dirHashes dirEntries node parentId ++ after)).dirHashes
      node.hash).lookup path = none := by
  rw [run_writeTree]
  apply lookup_dirHashes_run_of_effects
  · intro op hop v hv
    exact (effect?_deletes h hafter hop hv).1
  · exact .inl ⟨_, List.mem_append_left _ (delete_mem h hstaged hstatus hnode),
      effect?_deleteDirHash_self⟩

/-- A path that is not a removed directory gets the hash of the directory that is written
for it, or keeps the one that the index has which the commit builds upon. -/
theorem lookup_index (hindex : GoodIndex env.toHost s.db dirHashes)
    (hmirror : MirrorIndex s.db dirHashes) (hbefore : Idle before)
    (hfresh : s.dirHashes node.hash = ∅)
    (hlive : ∀ entry d, Staged dirEntries path entry → entry.status = .removed →
      entry.node ≠ .directory d)
    (hkept : path ∈ dirEntries → Kept dirEntries path) :
    ((s.run (before ++ writeTree env s head dirHashes dirEntries node parentId ++ after)).dirHashes
      node.hash).lookup path =
        if path ∈ dirEntries then
          some (writtenDir env s head dirHashes dirEntries node path).hash
        else dirHashes.lookup path := by
  have hfirst : ((s.run before).dirHashes node.hash).lookup path = none := by
    apply lookup_dirHashes_run_of_effects
    · intro op hop v hv
      rw [(hbefore op hop).2] at hv
      cases hv
    · rw [hfresh]
      exact .inr rfl
  have hopen : (((s.run before).run (openCommit dirHashes node parentId)).dirHashes
      node.hash).lookup path = dirHashes.lookup path := by
    apply lookup_dirHashes_run_of_effects
    · intro op hop v hv
      exact effect?_openCommit hop hv
    · cases hlookup : dirHashes.lookup path with
      | none => exact .inr hfirst
      | some hash =>
          refine .inl ⟨.putDirHash node.hash path hash, List.mem_append_left _ ?_,
            effect?_putDirHash_self⟩
          exact List.mem_map.mpr ⟨(path, hash), KeyedMap.mem_toList.mpr hlookup, rfl⟩
  rw [run_writeTree]
  apply lookup_dirHashes_run_of_effects
  · intro op hop v hv
    rcases (effect?_deletes h hafter hop hv).2 with ⟨entry, d, hstaged, hstatus, hnode⟩
    exact absurd hnode (hlive entry d hstaged hstatus)
  · right
    apply lookup_dirHashes_run_of_effects
    · intro op hop v hv
      rcases List.mem_cons.mp hop with rfl | hop
      · cases hv
      rcases List.mem_cons.mp hop with rfl | hop
      · rcases effect?_putDirHash hv with ⟨rfl, rfl⟩
        rw [if_pos h.root]
      rcases List.mem_cons.mp hop with rfl | hop
      · cases hv
      · rcases effect?_opsBelow h hindex hmirror hop hv with ⟨hmem, rfl⟩ | ⟨hmem, rfl⟩
        · rw [if_pos hmem]
        · rw [if_neg hmem]
    · by_cases hmem : path ∈ dirEntries
      · left
        rw [if_pos hmem]
        by_cases hnil : path = []
        · subst hnil
          exact ⟨_, List.mem_cons_of_mem _ List.mem_cons_self, effect?_putDirHash_self⟩
        · exact ⟨_, List.mem_cons_of_mem _ (List.mem_cons_of_mem _ (List.mem_cons_of_mem _
            ((h.reached hmem (hkept hmem)).put hnil))), effect?_putDirHash_self⟩
      · rw [if_neg hmem]
        exact .inr hopen

end Lookup

variable (env s head dirHashes dirEntries node) in
/-- What a commit makes of the index that it builds upon. -/
structure IndexAfter (index : DirHashes) : Prop where
  removed : ∀ path entry d, Staged dirEntries path entry → entry.status = .removed →
    entry.node = .directory d → index.lookup path = none
  written : ∀ path ∈ dirEntries, Kept dirEntries path →
    index.lookup path = some (writtenDir env s head dirHashes dirEntries node path).hash
  other : ∀ path, path ∉ dirEntries → (∀ entry d, Staged dirEntries path entry →
    entry.status = .removed → entry.node ≠ .directory d) →
      index.lookup path = dirHashes.lookup path

theorem Kept.live (h : Kept dirEntries path) {entry : StagedMerkleTreeNode}
    (hstaged : Staged dirEntries path entry) : entry.status ≠ .removed :=
  h path (List.prefix_refl path) entry hstaged

theorem Kept.dropLast (h : Kept dirEntries path) : Kept dirEntries path.dropLast :=
  fun above habove => h above (habove.trans (List.dropLast_prefix path))

theorem indexAfter_writeTree (h : WholeStaging dirHashes dirEntries)
    (hindex : GoodIndex env.toHost s.db dirHashes) (hmirror : MirrorIndex s.db dirHashes)
    {before after : List RepoOp} {parentId : Option MerkleHash} (hbefore : Idle before)
    (hafter : after = [] ∨ after = cacheInvalidateDirHashDb node.hash (allStaged dirEntries))
    (hfresh : s.dirHashes node.hash = ∅) :
    IndexAfter env s head dirHashes dirEntries node
      ((s.run (before ++ writeTree env s head dirHashes dirEntries node parentId ++
        after)).dirHashes node.hash) := by
  constructor
  · intro path entry d hstaged hstatus hnode
    exact lookup_index_removed h parentId hafter hstaged hstatus hnode
  · intro path hmem hkept
    rw [lookup_index h parentId hafter hindex hmirror hbefore hfresh
      (fun entry d hstaged hstatus => absurd hstatus (hkept.live hstaged)) (fun _ => hkept),
      if_pos hmem]
  · intro path hmem hlive
    rw [lookup_index h parentId hafter hindex hmirror hbefore hfresh hlive
      (fun hpath => absurd hpath hmem), if_neg hmem]

/-- A stored directory of which nothing is staged is written as it is stored. -/
theorem writtenNode_of_stored (hindex : GoodIndex env.toHost s.db dirHashes)
    {entry : StagedMerkleTreeNode} {d : DirNode}
    (hpath : entry.path = path) (hnode : entry.node = .directory d) (hmem : path ∉ dirEntries)
    (hlookup : dirHashes.lookup path = some d.hash) :
    ∃ old : DirNode, old.hash = d.hash ∧ old.name = leafName path ∧
      writtenNode env s head dirHashes dirEntries node entry = some (.directory old) := by
  rcases (hindex path d.hash hlookup).exists_record with
    ⟨record, old, -, hr, hold, hhash, hname, -⟩
  obtain ⟨n, parentId, children⟩ := record
  obtain rfl : n = .directory old := hold
  refine ⟨old, hhash, hname, ?_⟩
  have hkey : entry.path ∉ splitIntoVNodes env s.db dirHashes dirEntries := by
    rwa [hpath, mem_splitIntoVNodes]
  simp only [writtenNode, hnode, if_neg hkey, hr]

variable {index : DirHashes} {db' : NodeStore}

/-- The index names a path only if nothing removes it. -/
theorem IndexAfter.kept (h : WholeStaging dirHashes dirEntries)
    (hmirror : MirrorIndex s.db dirHashes)
    (hafter : IndexAfter env s head dirHashes dirEntries node index)
    {hash : MerkleHash} (hlookup : index.lookup path = some hash) (hmem : path ∈ dirEntries) :
    Kept dirEntries path := by
  by_cases hnil : path = []
  · rw [hnil]
    exact kept_nil
  · rcases h.listed path hmem hnil with ⟨entry, d, hstaged, hnode⟩
    refine Known.kept h hmirror (.inl ⟨entry, hstaged⟩) fun other hother hstatus => ?_
    rw [h.unique path other entry hother hstaged] at hstatus
    rw [hafter.removed path entry d hstaged hstatus hnode] at hlookup
    cases hlookup

theorem IndexAfter.lookup_other (hafter : IndexAfter env s head dirHashes dirEntries node index)
    {hash : MerkleHash} (hlookup : index.lookup path = some hash) (hmem : path ∉ dirEntries) :
    dirHashes.lookup path = some hash := by
  rwa [hafter.other path hmem fun entry d hstaged hstatus hnode => ?_] at hlookup
  rw [hafter.removed path entry d hstaged hstatus hnode] at hlookup
  cases hlookup

/-- Nothing is staged under a path that the index takes over. -/
theorem IndexAfter.not_staged (h : WholeStaging dirHashes dirEntries)
    (hafter : IndexAfter env s head dirHashes dirEntries node index)
    {hash : MerkleHash} (hlookup : index.lookup path = some hash) (hmem : path ∉ dirEntries)
    (entry : StagedMerkleTreeNode) : ¬ Staged dirEntries path entry := by
  intro hstaged
  have hold := hafter.lookup_other hlookup hmem
  rcases h.kind path entry hstaged (AList.lookup_isSome.mp (by rw [hold]; rfl)) with ⟨d, hnode⟩
  by_cases hstatus : entry.status = .removed
  · rw [hafter.removed path entry d hstaged hstatus hnode] at hlookup
    cases hlookup
  · exact hmem (h.keyed path entry hstaged hstatus d hnode)

theorem not_staged_of_parent_not_mem (hparent : path.dropLast ∉ dirEntries)
    (entry : StagedMerkleTreeNode) : ¬ Staged dirEntries path entry := by
  rintro ⟨-, -, newChildren, hdir, -⟩
  exact hparent (AList.lookup_isSome.mp (by rw [hdir]; rfl))

theorem GoodDir.name_of_mem {directory : PathBuf} {db : NodeStore} {host : Host}
    {hash : MerkleHash} (hgood : GoodDir host db directory hash) {d : DirNode}
    (hd : .directory d ∈ listFilesAndFolders db hash) :
    (directory ++ d.name).dropLast = directory := by
  rcases hgood.exists_entry hd with ⟨-, -, ⟨n, cs⟩, -, -, -, rfl, hentry, -⟩
  rcases List.length_eq_one_iff.mp (of_decide_eq_true hentry) with ⟨name, hname⟩
  rw [hname, List.dropLast_concat]

section Listed

variable (h : WholeStaging dirHashes dirEntries)
  (hindex : GoodIndex env.toHost s.db dirHashes) (hmirror : MirrorIndex s.db dirHashes)
include h hindex hmirror

/-- A directory among the children of a written directory is named with its hash. -/
theorem IndexAfter.lookup_child (hafter : IndexAfter env s head dirHashes dirEntries node index)
    {directory : PathBuf} (hkept : Kept dirEntries directory)
    {newChildren : List StagedMerkleTreeNode}
    (hdir : dirEntries.lookup directory = some newChildren) {entry : StagedMerkleTreeNode} {d : DirNode}
    (hchild : (dirChildren s.db dirHashes directory newChildren).children.lookup path = some entry)
    (hwritten : writtenNode env s head dirHashes dirEntries node entry = some (.directory d)) :
    directory ++ d.name = path ∧ index.lookup path = some d.hash := by
  have hok := childOk_dirChildren hindex h.placed hdir hchild
  obtain rfl := hok.parent
  have hchildren := (h.lookup_dirChildren hdir).mp hchild
  cases hnode : entry.node with
  | file f => simp [writtenNode, hnode] at hwritten
  | vnode v => simp [writtenNode, hnode] at hwritten
  | commit c => simp [writtenNode, hnode] at hwritten
  | directory e =>
      by_cases hmem : path ∈ dirEntries
      · have hkey : entry.path ∈ splitIntoVNodes env s.db dirHashes dirEntries := by
          rwa [hok.path_eq, mem_splitIntoVNodes]
        simp only [writtenNode, hnode, if_pos hkey, Option.some.injEq,
          EMerkleTreeNode.directory.injEq] at hwritten
        obtain rfl := hwritten
        rw [hok.path_eq]
        refine ⟨dropLast_append_leafName path, hafter.written path hmem ?_⟩
        rcases h.listed path hmem hok.ne_nil with ⟨staged, -, hstaged, -⟩
        rcases hchildren with ⟨hentry, hstatus⟩ | ⟨hnone, -⟩
        · refine Known.kept h hmirror (.inl ⟨staged, hstaged⟩) fun other hother => ?_
          rwa [h.unique path other entry hother hentry]
        · exact absurd hstaged (hnone staged)
      · rcases hchildren with ⟨hentry, hstatus⟩ | ⟨hnone, hstored⟩
        · exact absurd (h.keyed path entry hentry hstatus e hnode) hmem
        · have hlookup := hmirror.lookup_stored hstored hok.path_eq hnode
          rcases @writtenNode_of_stored env s head dirHashes dirEntries node path hindex entry e
            hok.path_eq hnode hmem hlookup with ⟨old, hhash, hname, hold⟩
          obtain rfl := EMerkleTreeNode.directory.inj (Option.some.inj (hold.symm.trans hwritten))
          rw [hname, hhash, ← hlookup]
          exact ⟨dropLast_append_leafName path, hafter.other path hmem
            fun other d hother => absurd hother (hnone other)⟩

variable (hext : s.db.Extends db')
  (hnew : HasRecords db' (commitPlan env s head dirHashes dirEntries node).records)
include hext hnew

/-- The new index names the directories that a named directory lists. -/
theorem IndexAfter.mirror_child (hafter : IndexAfter env s head dirHashes dirEntries node index)
    {directory : PathBuf} {hash : MerkleHash} {d : DirNode}
    (hlookup : index.lookup directory = some hash)
    (hd : .directory d ∈ listFilesAndFolders db' hash) :
    index.lookup (directory ++ d.name) = some d.hash := by
  by_cases hmem : directory ∈ dirEntries
  · have hkept := hafter.kept h hmirror hlookup hmem
    obtain rfl := Option.some.inj ((hafter.written directory hmem hkept).symm.trans hlookup)
    rcases Option.isSome_iff_exists.mp (AList.lookup_isSome.mpr hmem) with ⟨newChildren, hdir⟩
    rcases (h.mem_listFilesAndFolders hindex hmem hkept hext hnew hdir).mp hd with
      ⟨path, entry, hchild, hwritten⟩
    rcases hafter.lookup_child h hindex hmirror hkept hdir hchild hwritten with ⟨hpath, hchild⟩
    rwa [hpath]
  · have hold := hafter.lookup_other hlookup hmem
    have hgood := hindex directory hash hold
    rw [listFilesAndFolders_mono hext hgood] at hd
    have hname := hgood.name_of_mem hd
    rw [hafter.other, hmirror.child directory hash d hold hd]
    · intro hbelow
      have hparent := h.parent_mem hbelow
      rw [hname] at hparent
      exact hmem hparent
    · intro entry e hstaged
      exact absurd hstaged (not_staged_of_parent_not_mem (by rwa [hname]) entry)

/-- A directory that the new index names is listed by its parent. -/
theorem IndexAfter.mirror_parent (hafter : IndexAfter env s head dirHashes dirEntries node index)
    {hash : MerkleHash} (hne : path ≠ []) (hlookup : index.lookup path = some hash) :
    ∃ above d, index.lookup path.dropLast = some above ∧
      .directory d ∈ listFilesAndFolders db' above ∧ path.dropLast ++ d.name = path := by
  by_cases hmem : path ∈ dirEntries
  · have hkept := hafter.kept h hmirror hlookup hmem
    rcases h.listed path hmem hne with ⟨entry, d, hstaged, hnode⟩
    have hparent := h.parent_mem hmem
    rcases hstaged.2.2 with ⟨newChildren, hdir, -⟩
    have hkey : path ∈ splitIntoVNodes env s.db dirHashes dirEntries := mem_splitIntoVNodes.mpr hmem
    have hwritten : writtenNode env s head dirHashes dirEntries node entry =
        some (.directory (writtenDir env s head dirHashes dirEntries node path)) := by
      simp only [writtenNode, hnode, hstaged.2.1, if_pos hkey]
    exact ⟨_, _, hafter.written _ hparent hkept.dropLast,
      (h.mem_listFilesAndFolders hindex hparent hkept.dropLast hext hnew hdir).mpr
        ⟨path, entry, (h.lookup_dirChildren hdir).mpr (.inl ⟨hstaged, hkept.live hstaged⟩),
          hwritten⟩, dropLast_append_leafName path⟩
  · have hold := hafter.lookup_other hlookup hmem
    have hnone := hafter.not_staged h hlookup hmem
    have hindexed : path ∈ dirHashes := AList.lookup_isSome.mp (by rw [hold]; rfl)
    rcases hmirror.parent path hash hne hold with ⟨above, d, habove, hd, hpath⟩
    have hlive : ∀ entry, Staged dirEntries path.dropLast entry → entry.status ≠ .removed := by
      intro entry hstaged hstatus
      rcases h.removed _ entry hstaged hstatus path hne rfl (.inr hindexed) with ⟨e, he, -⟩
      exact hnone e he
    by_cases hparent : path.dropLast ∈ dirEntries
    · have hkept : Kept dirEntries path.dropLast := by
        by_cases hnil : path.dropLast = []
        · rw [hnil]
          exact kept_nil
        · exact Known.kept h hmirror (h.known_of_mem hparent hnil) hlive
      rcases Option.isSome_iff_exists.mp (AList.lookup_isSome.mpr hparent) with ⟨newChildren, hdir⟩
      have hchildHash := hmirror.child _ above d habove hd
      rw [hpath] at hchildHash
      let entry : StagedMerkleTreeNode :=
        ⟨.unmodified, .directory { d with name := path.dropLast ++ d.name }⟩
      have hentry : entry.path = path := hpath
      rcases @writtenNode_of_stored env s head dirHashes dirEntries node path hindex entry _
        hentry rfl hmem hchildHash with ⟨old, -, hname, hwritten⟩
      refine ⟨_, old, hafter.written _ hparent hkept,
        (h.mem_listFilesAndFolders hindex hparent hkept hext hnew hdir).mpr
          ⟨path, entry, (h.lookup_dirChildren hdir).mpr (.inr ⟨hnone, ?_⟩), hwritten⟩, ?_⟩
      · exact (lookup_storedChildren (hindex _ _ habove) habove).mpr
          ⟨.directory d, hd, rfl, hentry⟩
      · rw [hname, dropLast_append_leafName]
    · refine ⟨above, d, ?_, ?_, hpath⟩
      · rw [hafter.other _ hparent fun entry e hstaged hstatus =>
          absurd hstatus (hlive entry hstaged), habove]
      · rwa [listFilesAndFolders_mono hext (hindex _ _ habove)]

/-- The index of the new commit follows its directories. -/
theorem IndexAfter.mirror (hafter : IndexAfter env s head dirHashes dirEntries node index) :
    MirrorIndex db' index :=
  ⟨fun _ _ _ hlookup hd => hafter.mirror_child h hindex hmirror hext hnew hlookup hd,
    fun _ _ hne hlookup => hafter.mirror_parent h hindex hmirror hext hnew hne hlookup⟩

end Listed

end Index

end CommitWriter

end Oxen
