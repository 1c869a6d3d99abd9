import Oxen.Verification.Commit.WrittenTree

/-! Repositories that have been written by commits only. -/

namespace Oxen

namespace CommitWriter

open MerkleTreeNode TreeWrites

/-! ## The tree of one commit -/

section Commit

variable (env : CommitEnv) (s : Repository) (head : Option CommitNode) (dirHashes : DirHashes)
  (dirEntries : DirEntries) (node : CommitNode)

/-- The directories that a commit finds in the index it builds upon. -/
def oldDirs (path : PathBuf) : Option DirNode :=
  head.bind fun _ => (dirHashes.lookup path).bind (dirNode? s.db)

/-- The files that a commit finds in the tree of HEAD. -/
def oldFiles (path : PathBuf) : Option FileNode :=
  head.bind fun head => CommitMerkleTree.getFileByPath env.toHost s.db (s.dirHashes head.hash) path

/-- The root directory that the commit writes. -/
def rootDir : DirNode :=
  computeDirNode env.toHost node.hash (splitIntoVNodes env s.db dirHashes dirEntries)
    (oldDirs s head dirHashes) (oldFiles env s head) []

/-- The virtual nodes of the root directory, with everything below them that is written. -/
def rootVNodes : List (TreePlan EMerkleTreeNode) :=
  plannedVNodes env.toHost s.db node.hash (splitIntoVNodes env s.db dirHashes dirEntries)
    (oldDirs s head dirHashes) (oldFiles env s head)
    (splitIntoVNodes env s.db dirHashes dirEntries).keys.length []

def rootPlan : TreePlan EMerkleTreeNode :=
  .write (.directory (rootDir env s head dirHashes dirEntries node))
    (rootVNodes env s head dirHashes dirEntries node)

/-- The tree that the commit writes, with what it takes over. -/
def commitPlan : TreePlan EMerkleTreeNode :=
  .write (.commit node) [rootPlan env s head dirHashes dirEntries node]

/-- Distinct nodes have distinct ids: no id lies below itself in what the commit writes, no id is
written for two records, and none is that of a record in the database with another node or other
children. A new directory has virtual nodes without uuids, so that the last part is broken where
the same one is committed twice with different children. -/
structure DistinctIds : Prop where
  layered : (commitPlan env s head dirHashes dirEntries node).Layered EMerkleTreeNode.hash
  consistent : Consistent EMerkleTreeNode.hash (commitPlan env s head dirHashes dirEntries node).records
  agrees : Agrees s.db (commitPlan env s head dirHashes dirEntries node).records

variable {env s head dirHashes dirEntries node}

theorem filterMap_cacheInvalidateDirHashDb (commitId : MerkleHash)
    (removed : List StagedMerkleTreeNode) :
    (cacheInvalidateDirHashDb commitId removed).filterMap RepoOp.write? = [] := by
  rw [cacheInvalidateDirHashDb, List.filterMap_filterMap, List.filterMap_eq_nil_iff]
  intro child _
  rw [Option.bind_eq_none_iff]
  intro op hop
  split at hop
  · obtain rfl := Option.some.inj hop
    rfl
  · cases hop

/-- The commit is opened before its root directory is written below it. -/
theorem filterMap_writeTree (parentId : Option MerkleHash) :
    (writeTree env s head dirHashes dirEntries node parentId).filterMap RepoOp.write? =
      .start (.commit node) :: [rootPlan env s head dirHashes dirEntries node].flatMap
        (TreePlan.writes EMerkleTreeNode.hash node.hash) := by
  have hputs : ((KeyedMap.toList dirHashes).map fun x =>
      RepoOp.putDirHash node.hash x.1 x.2).filterMap RepoOp.write? = [] := by
    rw [List.filterMap_map, List.filterMap_eq_nil_iff]
    intro x _
    rfl
  have hopen : (openCommit dirHashes node parentId).filterMap RepoOp.write? =
      [.start (.commit node)] := by
    rw [openCommit, List.filterMap_append]
    exact congrArg (· ++ [_]) hputs
  rw [writeTree, List.filterMap_append, hopen]
  simp only [writeCommitEntries, List.filterMap_cons, RepoOp.write?, List.filterMap_append,
    filterMap_rCreateDirNode, filterMap_cacheInvalidateDirHashDb, List.append_nil, rootPlan,
    List.flatMap_cons, List.flatMap_nil, TreePlan.writes_write]
  rfl

/-- What the operations of a commit leave in the node database. -/
theorem records_writeTree (hdistinct : DistinctIds env s head dirHashes dirEntries node)
    {ops : List RepoOp} {parentId : Option MerkleHash}
    (hops : ops.filterMap RepoOp.write? =
      (writeTree env s head dirHashes dirEntries node parentId).filterMap RepoOp.write?) :
    HasRecords (s.run ops).db (commitPlan env s head dirHashes dirEntries node).records ∧
      s.db.Extends (s.run ops).db := by
  have hwrote := TreePlan.wrote_root hdistinct.layered hdistinct.consistent s.db.records
  rw [filterMap_writeTree] at hops
  have hrun : (s.run ops).db.records = TreeWrites.run EMerkleTreeNode.hash s.db.records
      (.start (.commit node) :: [rootPlan env s head dirHashes dirEntries node].flatMap
        (TreePlan.writes EMerkleTreeNode.hash node.hash)) := by
    rw [records_run, hops]
  rcases hwrote with ⟨hwritten, hothers⟩
  have hnew : HasRecords (s.run ops).db (commitPlan env s head dirHashes dirEntries node).records := by
    intro r hr
    rw [hrun]
    exact hwritten r hr
  refine ⟨hnew, extends_of_records hdistinct.agrees hnew fun hash hno => ?_⟩
  rw [hrun]
  exact hothers hash hno

theorem wellSplit_of_lookup (hindex : GoodIndex env.toHost s.db dirHashes)
    (hplaced : PlacedEntries dirEntries) (directory : PathBuf) (vnodes : List EntryVNode)
    (removed : List StagedMerkleTreeNode)
    (h : (splitIntoVNodes env s.db dirHashes dirEntries).lookup directory =
      some (vnodes, removed)) :
    WellSplit env.toHost s.db (· ∈ splitIntoVNodes env s.db dirHashes dirEntries) directory
      vnodes := by
  rw [splitIntoVNodes, KeyedMap.lookup_mapValues] at h
  rcases Option.map_eq_some_iff.mp h with ⟨newChildren, hdir, hsplit⟩
  have hwell := wellSplit_splitDirectory hindex hplaced hdir
  have hwritten : (fun path => path ∈ splitIntoVNodes env s.db dirHashes dirEntries) =
      fun path => path ∈ dirEntries := by
    funext path
    exact propext KeyedMap.mem_mapValues
  rw [hsplit] at hwell
  rwa [hwritten]

/-- The plan of the whole commit refers to what is held and distributes it. -/
theorem commitPlan_good (hindex : GoodIndex env.toHost s.db dirHashes)
    (hplaced : PlacedEntries dirEntries) :
    Sound s.db (commitPlan env s head dirHashes dirEntries node) ∧
      WellPlaced env.toHost [] (plannedTree s.db (commitPlan env s head dirHashes dirEntries node)) ∧
      WellPlaced env.toHost [] (plannedTree s.db (rootPlan env s head dirHashes dirEntries node)) := by
  have hbelow : PlannedBelow env.toHost s.db (plannedVNodes env.toHost s.db node.hash
      (splitIntoVNodes env s.db dirHashes dirEntries) (oldDirs s head dirHashes)
      (oldFiles env s head) (splitIntoVNodes env s.db dirHashes dirEntries).keys.length) :=
    plannedBelow_plannedVNodes (wellSplit_of_lookup hindex hplaced) _
  have hroot := hbelow.wellPlaced [] (rootDir env s head dirHashes dirEntries node) rfl
  change WellPlaced env.toHost [] (plannedTree s.db (rootPlan env s head dirHashes dirEntries node))
    at hroot
  refine ⟨?_, ?_, hroot⟩
  · refine .write rfl fun c hc => ?_
    obtain rfl := List.mem_singleton.mp hc
    exact .write rfl (hbelow.sound [])
  · rw [commitPlan, plannedTree_write, wellPlaced_mk_iff]
    refine ⟨⟨?_, fun d hd => by cases hd⟩, fun c hc => ?_⟩
    · rw [List.map_singleton, rootPlan, plannedTree_write]
      rfl
    · obtain rfl := List.mem_singleton.mp hc
      exact hroot

/-! ## The index of one commit -/

/-- What an index has was there or has been put. -/
theorem lookup_dirHashes_run {ops : List RepoOp} {commitId : MerkleHash} {path : PathBuf}
    {hash : MerkleHash} (h : ((s.run ops).dirHashes commitId).lookup path = some hash) :
    (s.dirHashes commitId).lookup path = some hash ∨ .putDirHash commitId path hash ∈ ops := by
  induction ops generalizing s with
  | nil => exact .inl h
  | cons op ops ih =>
      rcases ih h with h | h
      · cases op with
        | putDirHash id p value =>
            by_cases hid : commitId = id
            · subst hid
              simp only [RepoOp.apply, Function.update_self] at h
              rcases KeyedMap.lookup_insert_eq_some.mp h with ⟨rfl, rfl⟩ | ⟨-, h⟩
              · exact .inr List.mem_cons_self
              · exact .inl h
            · simp only [RepoOp.apply, Function.update_of_ne hid] at h
              exact .inl h
        | deleteDirHash id p =>
            by_cases hid : commitId = id
            · subst hid
              simp only [RepoOp.apply, Function.update_self] at h
              exact .inl (KeyedMap.lookup_erase_eq_some.mp h).2
            · simp only [RepoOp.apply, Function.update_of_ne hid] at h
              exact .inl h
        | _ => exact .inl h
      · exact .inr (List.mem_cons_of_mem op h)

theorem GoodDir.mono {host : Host} {db db' : NodeStore} (hext : db.Extends db') {path : PathBuf}
    {hash : MerkleHash} (h : GoodDir host db path hash) : GoodDir host db' path hash := by
  rcases h with ⟨d, vnodes, hhash, hname, hheld, hplaced⟩
  exact ⟨d, vnodes, hhash, hname, hheld.mono hext, hplaced⟩

/-- A planned directory is a good one once its records are written. -/
theorem goodDir_of_planned {host : Host} {db db' : NodeStore} (hext : db.Extends db')
    {path : PathBuf} {d : DirNode} {children : List (TreePlan EMerkleTreeNode)}
    (hname : d.name = leafName path) (hsound : Sound db (.write (.directory d) children))
    (hplaced : WellPlaced host path.dropLast (plannedTree db (.write (.directory d) children)))
    (hnew : HasRecords db' (TreePlan.write (EMerkleTreeNode.directory d) children).records) :
    GoodDir host db' path d.hash := by
  have hheld := hsound.held hext hnew
  rw [plannedTree_write] at hheld hplaced
  exact ⟨d, _, rfl, hname, hheld, hplaced⟩

end Commit

section Puts

variable {host : Host} {db db' : NodeStore} {id : MerkleHash} {entries : VNodeEntries}
  {oldDir : PathBuf → Option DirNode} {oldFile : PathBuf → Option FileNode}

/-- The paths that are put below a directory have good directories. -/
theorem goodDir_of_put_rCreateDirNode (hext : db.Extends db')
    (hsplit : ∀ directory vnodes removed, entries.lookup directory = some (vnodes, removed) →
      WellSplit host db (· ∈ entries) directory vnodes)
    {fuel : ℕ} {directory : PathBuf} {dirDb commitId hash : MerkleHash} {path : PathBuf}
    (hnew : HasRecords db' ((plannedVNodes host db id entries oldDir oldFile fuel
      directory).flatMap TreePlan.records))
    (hput : .putDirHash commitId path hash ∈
      rCreateDirNode host db id entries oldDir oldFile fuel directory dirDb) :
    GoodDir host db' path hash := by
  induction fuel generalizing directory dirDb with
  | zero => cases hput
  | succ fuel ih =>
      rw [rCreateDirNode] at hput
      rw [plannedVNodes] at hnew
      cases hdir : entries.lookup directory with
      | none =>
          rw [hdir] at hput
          cases hput
      | some written =>
          obtain ⟨vnodes, removed⟩ := written
          rw [hdir] at hput hnew
          simp only [List.mem_flatMap, List.mem_cons, reduceCtorEq, false_or] at hput
          rcases hput with ⟨v, hv, entry, hentry, hput⟩
          have hok := (hsplit directory vnodes removed hdir).childOk entry
            (List.mem_flatMap.mpr ⟨v, hv, hentry⟩)
          cases hnode : entry.node with
          | file f => simp [hnode] at hput
          | vnode w => simp [hnode] at hput
          | commit c => simp [hnode] at hput
          | directory d =>
              simp only [hnode] at hput
              split at hput
              · rename_i hkey
                -- the plan of this directory is among those of its virtual node
                have hplan : plannedEntry host db id entries oldDir oldFile
                    (plannedVNodes host db id entries oldDir oldFile fuel) entry =
                      some (.write (.directory
                        (computeDirNode host id entries oldDir oldFile entry.path))
                        (plannedVNodes host db id entries oldDir oldFile fuel entry.path)) := by
                  simp only [plannedEntry, hnode, if_pos hkey]
                have hrecords : HasRecords db' (TreePlan.write (EMerkleTreeNode.directory
                    (computeDirNode host id entries oldDir oldFile entry.path))
                    (plannedVNodes host db id entries oldDir oldFile fuel entry.path)).records := by
                  intro r hr
                  refine hnew r (List.mem_flatMap.mpr ⟨_, List.mem_map_of_mem hv, ?_⟩)
                  rw [TreePlan.records_write]
                  refine List.mem_cons_of_mem _ (List.mem_flatMap.mpr ⟨_, ?_, hr⟩)
                  exact List.mem_filterMap.mpr ⟨entry, hentry, hplan⟩
                have hbelow : PlannedBelow host db
                    (plannedVNodes host db id entries oldDir oldFile fuel) :=
                  plannedBelow_plannedVNodes hsplit fuel
                simp only [List.mem_append, List.mem_cons, reduceCtorEq, false_or,
                  RepoOp.putDirHash.injEq, List.not_mem_nil, or_false] at hput
                rcases hput with hput | ⟨-, rfl, rfl⟩
                · refine ih (fun r hr => hrecords r ?_) hput
                  rw [TreePlan.records_write]
                  exact List.mem_cons_of_mem _ hr
                · exact goodDir_of_planned hext rfl (.write rfl (hbelow.sound entry.path))
                    (hbelow.wellPlaced entry.path _ rfl) hrecords
              · rename_i hkey
                have hgood := (hok.known d hnode).resolve_left hkey
                rcases hgood.exists_record with ⟨record, old, vnodes', hr, hold, hhash, -⟩
                obtain ⟨n, parentId, children⟩ := record
                obtain rfl : n = .directory old := hold
                rw [hr] at hput
                simp only [List.mem_cons, reduceCtorEq, RepoOp.putDirHash.injEq, false_or,
                  List.not_mem_nil, or_false] at hput
                obtain ⟨-, rfl, rfl⟩ := hput
                rw [hhash]
                exact hgood.mono hext

end Puts

section Run

variable {env : CommitEnv} {s : Repository} {head : Option CommitNode} {dirHashes : DirHashes}
  {dirEntries : DirEntries} {node : CommitNode}

/-- Operations that neither write nodes nor put paths into an index. -/
def Quiet (ops : List RepoOp) : Prop :=
  ∀ op ∈ ops, op.write? = none ∧ ∀ commitId path hash, op ≠ .putDirHash commitId path hash

theorem quiet_nil : Quiet [] :=
  fun op hop => by cases hop

theorem quiet_cacheInvalidateDirHashDb (commitId : MerkleHash)
    (removed : List StagedMerkleTreeNode) : Quiet (cacheInvalidateDirHashDb commitId removed) := by
  intro op hop
  rcases List.mem_filterMap.mp hop with ⟨child, -, hop⟩
  split at hop
  · obtain rfl := Option.some.inj hop
    exact ⟨rfl, fun _ _ _ h => by cases h⟩
  · cases hop

/-- The paths that a commit puts into its index have good directories. -/
theorem goodDir_of_put_writeTree (hindex : GoodIndex env.toHost s.db dirHashes)
    (hplaced : PlacedEntries dirEntries) {db' : NodeStore} (hext : s.db.Extends db')
    (hnew : HasRecords db' (commitPlan env s head dirHashes dirEntries node).records)
    {parentId : Option MerkleHash} {commitId hash : MerkleHash} {path : PathBuf}
    (hput : .putDirHash commitId path hash ∈
      writeTree env s head dirHashes dirEntries node parentId) :
    GoodDir env.toHost db' path hash := by
  have hroot : HasRecords db' (rootPlan env s head dirHashes dirEntries node).records := by
    intro r hr
    apply hnew
    rw [commitPlan, TreePlan.records_write]
    exact List.mem_cons_of_mem _ (List.mem_flatMap.mpr ⟨_, List.mem_singleton.mpr rfl, hr⟩)
  have hvnodes : HasRecords db' ((rootVNodes env s head dirHashes dirEntries node).flatMap
      TreePlan.records) := by
    intro r hr
    apply hroot
    rw [rootPlan, TreePlan.records_write]
    exact List.mem_cons_of_mem _ hr
  rcases @commitPlan_good env s head dirHashes dirEntries node hindex hplaced with ⟨hsound, -, hwell⟩
  rw [writeTree, List.mem_append] at hput
  rcases hput with hput | hput
  · -- a path of the index that the commit builds upon
    simp only [openCommit, List.mem_append, List.mem_map, List.mem_singleton, reduceCtorEq,
      or_false, RepoOp.putDirHash.injEq] at hput
    rcases hput with ⟨⟨p, h⟩, hmem, -, rfl, rfl⟩
    exact (hindex p h (KeyedMap.mem_toList.mp hmem)).mono hext
  · simp only [writeCommitEntries, List.mem_cons, List.mem_append, reduceCtorEq, false_or,
      RepoOp.putDirHash.injEq] at hput
    rcases hput with (⟨-, rfl, rfl⟩ | hput) | hput
    · have hrootSound : Sound s.db (rootPlan env s head dirHashes dirEntries node) := by
        cases hsound with
        | write _ hchildren => exact hchildren _ (List.mem_singleton.mpr rfl)
      exact goodDir_of_planned hext rfl hrootSound hwell hroot
    · exact goodDir_of_put_rCreateDirNode hext (wellSplit_of_lookup hindex hplaced) hvnodes hput
    · exact ((quiet_cacheInvalidateDirHashDb _ _ _ hput).2 _ _ _ rfl).elim

/-- A plan that writes one tree. -/
structure WritesTree (plan : Plan) (env : CommitEnv) (s : Repository) (head : Option CommitNode)
    (dirHashes : DirHashes) (dirEntries : DirEntries) (node : CommitNode) : Prop where
  ops : ∃ before parentId after, Quiet before ∧ Quiet after ∧
    plan.ops = before ++ writeTree env s head dirHashes dirEntries node parentId ++ after

/-- One call of the writer. -/
inductive CommitCall where
  | new
  | withParents (parentCommits : List String) (target : String)
  | onto (targetBranch : String)

def CommitCall.plan (env : CommitEnv) (s : Repository) (dirEntries : DirEntries) :
    CommitCall → Plan
  | new => commitDirEntriesNew env s dirEntries
  | withParents parentCommits target => commitDirEntriesWithParents env s parentCommits dirEntries target
  | onto targetBranch => commitDirEntries env s dirEntries targetBranch

/-- The commit whose index a call builds upon. -/
def CommitCall.base (s : Repository) : CommitCall → Except RevisionError (Option CommitNode)
  | new => Commits.headCommitMaybe s.db s.refs
  | withParents _ target => targetCommit s target
  | onto targetBranch => targetCommit s targetBranch

theorem quiet_createCommitData {parents : List String} {cleanup : List RepoOp}
    {newCommit : NewCommit} (h : createCommitData env s parents = .ok (cleanup, newCommit)) :
    Quiet cleanup := by
  rw [createCommitData] at h
  split at h
  · obtain ⟨rfl, -⟩ := Prod.mk.inj (Except.ok.inj h)
    exact quiet_nil
  · cases h
  · obtain ⟨rfl, -⟩ := Prod.mk.inj (Except.ok.inj h)
    intro op hop
    rcases List.mem_pair.mp hop with rfl | rfl
    · exact ⟨rfl, fun _ _ _ h => by cases h⟩
    · exact ⟨rfl, fun _ _ _ h => by cases h⟩

/-- A call that makes a commit writes one tree, built upon the index of a commit. -/
theorem CommitCall.writesTree (call : CommitCall)
    (h : (call.plan env s dirEntries).result = .ok node) :
    ∃ head onto, Commits.headCommitMaybe s.db s.refs = .ok head ∧ call.base s = .ok onto ∧
      WritesTree (call.plan env s dirEntries) env s head (indexOf s onto) dirEntries node := by
  cases call with
  | new =>
      simp only [CommitCall.plan, commitDirEntriesNew] at h ⊢
      split at h
      · cases h
      · rename_i head hhead
        split at h
        · cases h
        · rename_i cleanup newCommit hdata
          split at h
          · cases h
          · rename_i parentIds hparents
            obtain rfl := Except.ok.inj h
            exact ⟨head, head, hhead, hhead, ⟨cleanup, _, _, quiet_createCommitData hdata,
              quiet_cacheInvalidateDirHashDb _ _, rfl⟩⟩
  | withParents parentCommits target =>
      simp only [CommitCall.plan, commitDirEntriesWithParents] at h ⊢
      split at h
      · cases h
      · rename_i onto honto
        split at h
        · cases h
        · rename_i cleanup newCommit hdata
          split at h
          · cases h
          · rename_i head hhead
            obtain rfl := Except.ok.inj h
            exact ⟨head, onto, hhead, honto, ⟨cleanup, _, [], quiet_createCommitData hdata,
              quiet_nil, (List.append_nil _).symm⟩⟩
  | onto targetBranch =>
      simp only [CommitCall.plan, commitDirEntries] at h ⊢
      split at h
      · cases h
      · rename_i hne
        split at h
        · cases h
        · rename_i onto honto
          split at h
          · cases h
          · rename_i head hhead
            obtain rfl := Except.ok.inj h
            simp only [if_neg hne]
            exact ⟨head, onto, hhead, honto,
              ⟨[], _, _, quiet_nil, quiet_cacheInvalidateDirHashDb _ _, rfl⟩⟩

/-- A repository in which the commits were made by the writer, one after another. Refs,
staged entries and the files of a merge change in any way between two commits. -/
inductive WriterRun (host : Host) : List CommitNode → Repository → Prop where
  | start (s : Repository) (hdb : s.db = fun _ => none) (hindex : s.dirHashes = fun _ => ∅) :
      WriterRun host [] s
  | other {commits : List CommitNode} {s s' : Repository} (hrun : WriterRun host commits s)
      (hdb : s'.db = s.db) (hindex : s'.dirHashes = s.dirHashes) : WriterRun host commits s'
  | commit {commits : List CommitNode} {s : Repository} {dirEntries : DirEntries}
      {node : CommitNode} {head onto : Option CommitNode} (hrun : WriterRun host commits s)
      (env : CommitEnv) (henv : env.toHost = host) (call : CommitCall)
      (hplaced : PlacedEntries dirEntries) (hok : (call.plan env s dirEntries).result = .ok node)
      (hhead : Commits.headCommitMaybe s.db s.refs = .ok head) (honto : call.base s = .ok onto)
      (hdistinct : DistinctIds env s head (indexOf s onto) dirEntries node) :
      WriterRun host (node :: commits) (s.run (call.plan env s dirEntries).ops)

/-- Every index names good directories, and every commit has a well-placed tree. -/
structure Written (host : Host) (commits : List CommitNode) (s : Repository) : Prop where
  index : ∀ commitId, GoodIndex host s.db (s.dirHashes commitId)
  trees : ∀ c ∈ commits, ∃ cs, (mk (.commit c) cs).Held s.db ∧ WellPlaced host [] (mk (.commit c) cs)

theorem filterMap_write_of_quiet {ops : List RepoOp} (h : Quiet ops) :
    ops.filterMap RepoOp.write? = [] :=
  List.filterMap_eq_nil_iff.mpr fun op hop => (h op hop).1

theorem goodIndex_indexOf {host : Host} {db : NodeStore}
    (h : ∀ commitId, GoodIndex host db (s.dirHashes commitId)) (onto : Option CommitNode) :
    GoodIndex host db (indexOf s onto) := by
  cases onto with
  | none =>
      intro path hash hlookup
      cases hlookup
  | some c => exact h c.hash

/-- What the operations of a commit leave in the node database. -/
theorem WritesTree.records {plan : Plan}
    (hplan : WritesTree plan env s head dirHashes dirEntries node)
    (hdistinct : DistinctIds env s head dirHashes dirEntries node) :
    HasRecords (s.run plan.ops).db (commitPlan env s head dirHashes dirEntries node).records ∧
      s.db.Extends (s.run plan.ops).db := by
  rcases hplan.ops with ⟨before, parentId, after, hbefore, hafter, hops⟩
  have hwrites : plan.ops.filterMap RepoOp.write? =
      (writeTree env s head dirHashes dirEntries node parentId).filterMap RepoOp.write? := by
    rw [hops, List.filterMap_append, List.filterMap_append, filterMap_write_of_quiet hbefore,
      filterMap_write_of_quiet hafter, List.append_nil, List.nil_append]
  exact records_writeTree hdistinct hwrites

/-- The commit has the tree that was planned for it. -/
theorem WritesTree.held {plan : Plan}
    (hplan : WritesTree plan env s head dirHashes dirEntries node)
    (hindex : GoodIndex env.toHost s.db dirHashes) (hplaced : PlacedEntries dirEntries)
    (hdistinct : DistinctIds env s head dirHashes dirEntries node) :
    (plannedTree s.db (commitPlan env s head dirHashes dirEntries node)).Held
      (s.run plan.ops).db := by
  rcases hplan.records hdistinct with ⟨hnew, hext⟩
  exact (commitPlan_good hindex hplaced).1.held hext hnew

/-- One commit keeps what was written and adds its own tree. -/
theorem Written.commit {commits : List CommitNode} (h : Written env.toHost commits s)
    (hplaced : PlacedEntries dirEntries) {plan : Plan} {onto : Option CommitNode}
    (hplan : WritesTree plan env s head (indexOf s onto) dirEntries node)
    (hdistinct : DistinctIds env s head (indexOf s onto) dirEntries node) :
    Written env.toHost (node :: commits) (s.run plan.ops) := by
  have hindex := goodIndex_indexOf h.index onto
  rcases hplan.records hdistinct with ⟨hnew, hext⟩
  constructor
  · intro commitId path hash hlookup
    rcases lookup_dirHashes_run hlookup with hold | hput
    · exact (h.index commitId path hash hold).mono hext
    · rcases hplan.ops with ⟨before, parentId, after, hbefore, hafter, hops⟩
      rw [hops, List.mem_append, List.mem_append] at hput
      rcases hput with (hput | hput) | hput
      · exact ((hbefore _ hput).2 _ _ _ rfl).elim
      · exact goodDir_of_put_writeTree hindex hplaced hext hnew hput
      · exact ((hafter _ hput).2 _ _ _ rfl).elim
  · intro c hc
    rcases List.mem_cons.mp hc with rfl | hc
    · have hheld := hplan.held hindex hplaced hdistinct
      have hwell := (@commitPlan_good env s head (indexOf s onto) dirEntries c hindex hplaced).2.1
      rw [commitPlan, plannedTree_write] at hheld hwell
      exact ⟨_, hheld, hwell⟩
    · rcases h.trees c hc with ⟨cs, hheld, hwell⟩
      exact ⟨cs, hheld.mono hext, hwell⟩

/-- Whatever was committed, the trees and the indexes are well-placed. -/
theorem WriterRun.written {host : Host} {commits : List CommitNode}
    (h : WriterRun host commits s) : Written host commits s := by
  induction h with
  | start s hdb hindex =>
      refine ⟨fun commitId path hash hlookup => ?_, fun c hc => by cases hc⟩
      rw [hindex] at hlookup
      cases hlookup
  | other _ hdb hindex ih => exact ⟨by rw [hdb, hindex]; exact ih.index, by rw [hdb]; exact ih.trees⟩
  | commit _ env henv call hplaced hok hhead honto hdistinct ih =>
      subst henv
      rcases call.writesTree hok with ⟨head', onto', hhead', honto', hplan⟩
      obtain rfl := Except.ok.inj (hhead.symm.trans hhead')
      obtain rfl := Except.ok.inj (honto.symm.trans honto')
      exact ih.commit hplaced hplan hdistinct

end Run

end CommitWriter

end Oxen
