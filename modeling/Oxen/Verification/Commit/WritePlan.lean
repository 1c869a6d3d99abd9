import Oxen.Lib.TreeWrites
import Oxen.Model.CommitWriter
import Oxen.Verification.Tree.WellPlaced

/-! What a commit writes to the node database, as a plan of the tree it writes. -/

namespace Oxen

open TreeWrites

/-- The nodes and children of the database, without the parents. -/
def NodeStore.records (db : NodeStore) : Store MerkleHash EMerkleTreeNode :=
  fun hash => (db hash).map fun record => (record.node, record.children)

/-- What an operation writes to the node database. -/
def RepoOp.write? : RepoOp → Option (Write MerkleHash EMerkleTreeNode)
  | openReadWrite node _ => some (.start node)
  | addChild nodeId child => some (.append nodeId child)
  | _ => none

theorem records_run (s : Repository) (ops : List RepoOp) :
    (s.run ops).db.records =
      TreeWrites.run EMerkleTreeNode.hash s.db.records (ops.filterMap RepoOp.write?) := by
  have hstep : ∀ (s : Repository) (op : RepoOp), (op.apply s).db.records =
      TreeWrites.run EMerkleTreeNode.hash s.db.records op.write?.toList := by
    intro s op
    cases op with
    | openReadWrite node parentId =>
        funext h
        by_cases hh : h = node.hash <;>
          simp [RepoOp.apply, NodeStore.records, NodeStore.write, RepoOp.write?, TreeWrites.run,
            Write.apply, hh]
    | addChild nodeId child =>
        funext h
        by_cases hh : h = nodeId
        · subst hh
          simp only [RepoOp.apply, NodeStore.records, RepoOp.write?, TreeWrites.run, Write.apply,
            Function.update_self, Option.toList_some, List.foldl_cons, List.foldl_nil]
          cases s.db h <;> rfl
        · simp [RepoOp.apply, NodeStore.records, RepoOp.write?, TreeWrites.run, Write.apply, hh]
    | removeMergeHead => rfl
    | removeOrigHead => rfl
    | putDirHash commitId path hash => rfl
    | deleteDirHash commitId path => rfl
    | removeStagedDb => rfl
    | setHead name => rfl
    | setBranchCommitId name commitId => rfl
  induction ops generalizing s with
  | nil => rfl
  | cons op ops ih =>
      have hcons : (op :: ops).filterMap RepoOp.write? =
          op.write?.toList ++ ops.filterMap RepoOp.write? := by
        cases h : op.write? <;> simp [h]
      rw [hcons, TreeWrites.run_append, ← hstep]
      exact ih (op.apply s)

namespace CommitWriter

section

variable (host : Host) (db : NodeStore) (commitId : MerkleHash) (entries : VNodeEntries)
  (oldDir : PathBuf → Option DirNode) (oldFile : PathBuf → Option FileNode)

/-- A file as it is written. -/
def writtenFile (status : StagedEntryStatus) (fileNode : FileNode) : FileNode :=
  { fileNode with
    name := leafName fileNode.name
    lastCommitId := if status = .unmodified then fileNode.lastCommitId else commitId }

def plannedEntry (below : PathBuf → List (TreePlan EMerkleTreeNode)) (entry : StagedMerkleTreeNode) :
    Option (TreePlan EMerkleTreeNode) :=
  match entry.node with
  | .directory node =>
      if entry.path ∈ entries then
        some (.write
          (.directory (computeDirNode host commitId entries oldDir oldFile entry.path))
          (below entry.path))
      else
        match db node.hash with
        | some { node := .directory oldDirNode, .. } => some (.keep (.directory oldDirNode))
        | _ => none
  | .file fileNode => some (.keep (.file (writtenFile commitId entry.status fileNode)))
  | _ => none

/-- The virtual nodes of a directory as they are written. -/
def plannedVNodes : ℕ → PathBuf → List (TreePlan EMerkleTreeNode)
  | 0, _ => []
  | fuel + 1, path =>
      match entries.lookup path with
      | none => []
      | some (vnodes, _) => vnodes.map fun vnode =>
          .write (.vnode { hash := vnode.id, numEntries := vnode.entries.length })
            (vnode.entries.filterMap
              (plannedEntry host db commitId entries oldDir oldFile (plannedVNodes fuel)))

theorem flatMap_filterMap_writes {α : Type} (parent : MerkleHash)
    (ops : α → List RepoOp) (plan : α → Option (TreePlan EMerkleTreeNode)) (xs : List α)
    (h : ∀ x ∈ xs, (ops x).filterMap RepoOp.write? =
      (plan x).toList.flatMap (TreePlan.writes EMerkleTreeNode.hash parent)) :
    (xs.flatMap ops).filterMap RepoOp.write? =
      (xs.filterMap plan).flatMap (TreePlan.writes EMerkleTreeNode.hash parent) := by
  induction xs with
  | nil => rfl
  | cons x xs ih =>
      have hrest := ih fun y hy => h y (List.mem_cons_of_mem x hy)
      rw [List.flatMap_cons, List.filterMap_append, h x List.mem_cons_self, hrest]
      cases hx : plan x <;> simp [hx]

/-- The operations below a directory write its planned virtual nodes. -/
theorem filterMap_rCreateDirNode (fuel : ℕ) (path : PathBuf) (dirDb : MerkleHash) :
    (rCreateDirNode host db commitId entries oldDir oldFile fuel path dirDb).filterMap
        RepoOp.write? =
      (plannedVNodes host db commitId entries oldDir oldFile fuel path).flatMap
        (TreePlan.writes EMerkleTreeNode.hash dirDb) := by
  induction fuel generalizing path dirDb with
  | zero => rfl
  | succ fuel ih =>
      rw [rCreateDirNode, plannedVNodes]
      cases entries.lookup path with
      | none => rfl
      | some written =>
          obtain ⟨vnodes, removed⟩ := written
          simp only
          rw [List.filterMap_flatMap, List.flatMap_map]
          refine List.flatMap_congr fun vnode _ => ?_
          rw [TreePlan.writes_write]
          simp only [List.filterMap_cons, RepoOp.write?]
          congr 2
          refine flatMap_filterMap_writes vnode.id _ _ vnode.entries fun entry _ => ?_
          unfold plannedEntry
          cases entry.node with
          | directory node =>
              by_cases hkey : entry.path ∈ entries
              · simp only [if_pos hkey, Option.toList_some, List.flatMap_cons, List.flatMap_nil,
                  List.append_nil, TreePlan.writes_write, List.filterMap_cons, RepoOp.write?,
                  List.filterMap_append, ih, List.filterMap_nil, EMerkleTreeNode.hash_directory]
              · simp only [if_neg hkey]
                cases db node.hash with
                | none => rfl
                | some record =>
                    obtain ⟨n, parentId, children⟩ := record
                    cases n with
                    | directory d => simp [RepoOp.write?, TreePlan.writes]
                    | file f => rfl
                    | vnode v => rfl
                    | commit c => rfl
          | file f => simp [RepoOp.write?, TreePlan.writes, writtenFile]
          | vnode v => rfl
          | commit c => rfl

end

/-! ## Opened nodes -/

theorem mem_write_of_mem {op : RepoOp} {ops : List RepoOp} {w : Write MerkleHash EMerkleTreeNode}
    (hop : op ∈ ops) (h : op.write? = some w) : w ∈ ops.filterMap RepoOp.write? :=
  List.mem_filterMap.mpr ⟨op, hop, h⟩

theorem exists_open_of_mem_start {ops : List RepoOp} {node : EMerkleTreeNode}
    (h : .start node ∈ ops.filterMap RepoOp.write?) :
    ∃ parentId, .openReadWrite node parentId ∈ ops := by
  rcases List.mem_filterMap.mp h with ⟨op, hop, heq⟩
  cases op with
  | openReadWrite node' parentId =>
      obtain rfl := Write.start.inj (Option.some.inj heq)
      exact ⟨parentId, hop⟩
  | addChild nodeId child => cases heq
  | _ => cases heq

/-- Every node that gets children is written itself. -/
def OpensAll (ops : List RepoOp) : Prop :=
  ∀ nodeId child, .addChild nodeId child ∈ ops →
    ∃ node parentId, .openReadWrite node parentId ∈ ops ∧ node.hash = nodeId

theorem OpensAll.append {ops ops' : List RepoOp} (h : OpensAll ops) (h' : OpensAll ops') :
    OpensAll (ops ++ ops') := by
  intro nodeId child hmem
  rcases List.mem_append.mp hmem with hmem | hmem
  · rcases h nodeId child hmem with ⟨node, parentId, hopen, heq⟩
    exact ⟨node, parentId, List.mem_append_left _ hopen, heq⟩
  · rcases h' nodeId child hmem with ⟨node, parentId, hopen, heq⟩
    exact ⟨node, parentId, List.mem_append_right _ hopen, heq⟩

theorem opensAll_of_nil_children {ops : List RepoOp}
    (h : ∀ nodeId child, .addChild nodeId child ∉ ops) : OpensAll ops :=
  fun nodeId child hmem => absurd hmem (h nodeId child)

theorem opensAll_of_no_children {ops : List RepoOp} (h : ∀ op ∈ ops, op.write? = none) :
    OpensAll ops :=
  opensAll_of_nil_children fun nodeId child hmem => by cases h _ hmem

theorem opensAll_writeTree (env : CommitEnv) (s : Repository) (headCommit : Option CommitNode)
    (dirHashes : DirHashes) (dirEntries : DirEntries) (node : CommitNode)
    (parentId : Option MerkleHash) :
    OpensAll (writeTree env s headCommit dirHashes dirEntries node parentId) := by
  intro nodeId child hmem
  rw [writeTree, writeCommitEntries] at hmem ⊢
  generalize hroot : computeDirNode env.toHost node.hash _ _ _ [] = root at hmem ⊢
  have hcommit : .openReadWrite (.commit node) parentId ∈ openCommit dirHashes node parentId :=
    List.mem_append_right _ (List.mem_singleton_self _)
  rcases List.mem_append.mp hmem with hmem | hmem
  · rcases List.mem_append.mp hmem with hmem | hmem
    · rcases List.mem_map.mp hmem with ⟨x, -, heq⟩
      cases heq
    · cases List.mem_singleton.mp hmem
  · rcases List.mem_append.mp hmem with hmem | hmem
    · simp only [List.mem_cons, reduceCtorEq, false_or] at hmem
      rcases hmem with heq | hmem
      · obtain ⟨rfl, -⟩ := RepoOp.addChild.inj heq
        exact ⟨_, _, List.mem_append_left _ hcommit, rfl⟩
      · have hwrite := mem_write_of_mem hmem rfl
        rw [filterMap_rCreateDirNode, List.mem_flatMap] at hwrite
        rcases hwrite with ⟨plan, hplan, hwrite⟩
        rcases TreePlan.mem_starts_of_append _ hwrite with rfl | ⟨n, hn, hkey⟩
        · refine ⟨.directory root, some node.hash, ?_, rfl⟩
          simp
        · have hstart := List.mem_flatMap.mpr ⟨plan, hplan, hn⟩
          rw [← filterMap_rCreateDirNode] at hstart
          rcases exists_open_of_mem_start hstart with ⟨openParent, hopen⟩
          refine ⟨n, openParent, ?_, hkey⟩
          apply List.mem_append_right
          apply List.mem_append_left
          exact List.mem_cons_of_mem _ (List.mem_cons_of_mem _ (List.mem_cons_of_mem _ hopen))
    · rw [cacheInvalidateDirHashDb] at hmem
      rcases List.mem_filterMap.mp hmem with ⟨child', -, heq⟩
      split at heq
      · cases heq
      · cases heq

theorem write?_createCommitData {env : CommitEnv} {s : Repository} {parents : List String}
    {cleanup : List RepoOp} {newCommit : NewCommit}
    (h : createCommitData env s parents = .ok (cleanup, newCommit)) :
    ∀ op ∈ cleanup, op.write? = none := by
  rw [createCommitData] at h
  split at h
  · obtain ⟨rfl, -⟩ := Prod.mk.inj (Except.ok.inj h)
    simp
  · cases h
  · obtain ⟨rfl, -⟩ := Prod.mk.inj (Except.ok.inj h)
    simp [RepoOp.write?]

theorem opensAll_commitDirEntriesWithParents (env : CommitEnv) (s : Repository)
    (parents : List String) (dirEntries : DirEntries) (target : String) :
    OpensAll (commitDirEntriesWithParents env s parents dirEntries target).ops := by
  rw [commitDirEntriesWithParents]
  split
  · exact opensAll_of_no_children (by simp)
  split
  · exact opensAll_of_no_children (by simp)
  · next cleanup newCommit hdata =>
    have hcleanup := opensAll_of_no_children (write?_createCommitData hdata)
    dsimp only
    split
    · refine hcleanup.append (opensAll_of_nil_children ?_)
      intro nodeId child hmem
      rcases List.mem_append.mp hmem with hmem | hmem
      · rcases List.mem_map.mp hmem with ⟨x, -, heq⟩
        cases heq
      · cases List.mem_singleton.mp hmem
    · exact hcleanup.append (opensAll_writeTree _ _ _ _ _ _ _)

/-- A call with parents appends children only to nodes that it writes. -/
theorem opensAll_commitWithCfg (env : CommitEnv) (s : Repository) (given : List String) :
    OpensAll (commitWithCfg env s (some given)).ops := by
  simp only [commitWithCfg]
  split
  · exact opensAll_of_no_children (by simp)
  have hplan := opensAll_commitDirEntriesWithParents env s given (readStagedEntries s.staged)
    ((currentBranch s.refs).getD defaultBranchName)
  split
  · exact hplan
  · refine hplan.append (opensAll_of_no_children ?_)
    intro op hop
    rcases List.mem_cons.mp hop with rfl | hop
    · rfl
    · rw [updateRefs] at hop
      split at hop
      · simp only [List.mem_cons, List.not_mem_nil, or_false] at hop
        rcases hop with rfl | rfl | rfl <;> rfl
      · split at hop
        · rw [List.mem_singleton.mp hop]
          rfl
        · rw [List.mem_singleton.mp hop]
          rfl

end CommitWriter

end Oxen
