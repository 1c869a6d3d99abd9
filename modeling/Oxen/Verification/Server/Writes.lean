import Oxen.Model.Server
import Oxen.Verification.History.Count

/-! What the commit writer leaves alone: the refs, and the commits that are
stored already. -/

namespace Oxen

open Commits

variable {s : Repository} {ops : List RepoOp} {db : NodeStore}

/-! ## Refs -/

def RepoOp.keepsRefs : RepoOp → Bool
  | setHead _ => false
  | setBranchCommitId _ _ => false
  | _ => true

theorem RepoOp.refs_apply {op : RepoOp} (h : op.keepsRefs = true) : (op.apply s).refs = s.refs := by
  cases op with
  | setHead => simp [keepsRefs] at h
  | setBranchCommitId => simp [keepsRefs] at h
  | _ => rfl

theorem Repository.refs_run (h : ∀ op ∈ ops, op.keepsRefs = true) : (s.run ops).refs = s.refs := by
  induction ops generalizing s with
  | nil => rfl
  | cons op ops ih =>
      have hop := h op List.mem_cons_self
      have hrest := fun op' hop' => h op' (List.mem_cons_of_mem op hop')
      rw [Repository.run, List.foldl_cons, ← Repository.run, ih hrest, RepoOp.refs_apply hop]

/-! ## Writing a tree -/

/-- Whether an operation writes nodes, or the index of the given commit. -/
def RepoOp.writesTree (commitId : MerkleHash) : RepoOp → Bool
  | openReadWrite _ _ => true
  | addChild _ _ => true
  | putDirHash id _ _ => id = commitId
  | deleteDirHash id _ => id = commitId
  | _ => false

theorem RepoOp.keepsRefs_of_writesTree {op : RepoOp} {commitId : MerkleHash}
    (h : op.writesTree commitId = true) : op.keepsRefs = true := by
  cases op with
  | setHead => cases h
  | setBranchCommitId => cases h
  | _ => rfl

namespace CommitWriter

theorem writesTree_rCreateDirNode (host : Host) (db : NodeStore) (commitId : MerkleHash)
    (entries : VNodeEntries) (oldDir : PathBuf → Option DirNode)
    (oldFile : PathBuf → Option FileNode) (fuel : ℕ) (path : PathBuf) (dirDb : MerkleHash) :
    ∀ op ∈ rCreateDirNode host db commitId entries oldDir oldFile fuel path dirDb,
      op.writesTree commitId = true := by
  induction fuel generalizing path dirDb with
  | zero => simp [rCreateDirNode]
  | succ fuel ih =>
      intro op hop
      rw [rCreateDirNode] at hop
      split at hop
      · simp at hop
      · obtain ⟨vnode, -, hop⟩ := List.mem_flatMap.mp hop
        rcases List.mem_cons.mp hop with rfl | hop
        · rfl
        rcases List.mem_cons.mp hop with rfl | hop
        · rfl
        obtain ⟨entry, -, hop⟩ := List.mem_flatMap.mp hop
        split at hop
        · split at hop
          · simp only [List.mem_cons, List.mem_append, List.not_mem_nil, or_false] at hop
            rcases hop with (rfl | rfl | hop) | rfl
            · rfl
            · rfl
            · exact ih _ _ op hop
            · simp [RepoOp.writesTree]
          · split at hop
            · simp only [List.mem_cons, List.not_mem_nil, or_false] at hop
              rcases hop with rfl | rfl
              · rfl
              · simp [RepoOp.writesTree]
            · simp at hop
        · rw [List.mem_singleton.mp hop]
          rfl
        · simp at hop

theorem writesTree_cacheInvalidateDirHashDb (commitId : MerkleHash)
    (removed : List StagedMerkleTreeNode) :
    ∀ op ∈ cacheInvalidateDirHashDb commitId removed, op.writesTree commitId = true := by
  intro op hop
  obtain ⟨child, -, hchild⟩ := List.mem_filterMap.mp hop
  split at hchild
  · rw [← Option.some.inj hchild]
    simp [RepoOp.writesTree]
  · cases hchild

theorem writesTree_openCommit (dirHashes : DirHashes) (node : CommitNode)
    (parentId : Option MerkleHash) :
    ∀ op ∈ openCommit dirHashes node parentId, op.writesTree node.hash = true := by
  intro op hop
  rw [openCommit, List.mem_append, List.mem_map, List.mem_singleton] at hop
  rcases hop with ⟨entry, -, rfl⟩ | rfl
  · simp [RepoOp.writesTree]
  · rfl

theorem writesTree_writeTree (env : CommitEnv) (s : Repository) (head : Option CommitNode)
    (dirHashes : DirHashes) (dirEntries : DirEntries) (node : CommitNode)
    (parentId : Option MerkleHash) :
    ∀ op ∈ writeTree env s head dirHashes dirEntries node parentId,
      op.writesTree node.hash = true := by
  intro op hop
  rw [writeTree, List.mem_append] at hop
  rcases hop with hop | hop
  · exact writesTree_openCommit dirHashes node parentId op hop
  · simp only [writeCommitEntries, List.cons_append, List.mem_cons, List.mem_append] at hop
    rcases hop with rfl | rfl | rfl | hop | hop
    · rfl
    · simp [RepoOp.writesTree]
    · rfl
    · exact writesTree_rCreateDirNode _ _ _ _ _ _ _ _ _ op hop
    · exact writesTree_cacheInvalidateDirHashDb _ _ op hop

theorem keepsRefs_createCommitData {env : CommitEnv} {parentCommits : List String}
    {cleanup : List RepoOp} {newCommit : NewCommit}
    (h : createCommitData env s parentCommits = .ok (cleanup, newCommit)) :
    ∀ op ∈ cleanup, op.keepsRefs = true := by
  intro op hop
  rw [createCommitData] at h
  split at h
  · obtain ⟨rfl, -⟩ := Prod.mk.inj (Except.ok.inj h)
    simp at hop
  · cases h
  · obtain ⟨rfl, -⟩ := Prod.mk.inj (Except.ok.inj h)
    simp only [List.mem_cons, List.not_mem_nil, or_false] at hop
    rcases hop with rfl | rfl <;> rfl

/-- What the plans of the commit writer have in common. -/
structure WriterPlan (s : Repository) (plan : Plan) : Prop where
  keepsRefs : ∀ op ∈ plan.ops, op.keepsRefs = true
  opened : ∀ commit, plan.result = .ok commit →
    ∃ parentId, .openReadWrite (.commit commit) parentId ∈ plan.ops
  stored : ∀ commit, plan.result = .ok commit →
    ∀ parentId ∈ commit.parentIds, (getByHash s.db parentId).isSome

theorem mem_writeTree (env : CommitEnv) (s : Repository) (head : Option CommitNode)
    (dirHashes : DirHashes) (dirEntries : DirEntries) (node : CommitNode)
    (parentId : Option MerkleHash) :
    .openReadWrite (.commit node) parentId ∈
      writeTree env s head dirHashes dirEntries node parentId := by
  simp [writeTree, openCommit]

theorem isSome_of_targetCommit {target : String} {commit : CommitNode} (hk : s.db.Keyed)
    (h : targetCommit s target = .ok (some commit)) : (getByHash s.db commit.hash).isSome := by
  rw [targetCommit] at h
  split at h
  · have hstored := isStored_of_get hk h
    rw [IsStored] at hstored
    rw [hstored, Option.isSome_some]
  · cases h

theorem commitDirEntries_plan (env : CommitEnv) (dirEntries : DirEntries) (target : String)
    (hk : s.db.Keyed) : WriterPlan s (commitDirEntries env s dirEntries target) := by
  rw [commitDirEntries]
  split
  · exact ⟨by simp, by simp, by simp⟩
  split
  · exact ⟨by simp, by simp, by simp⟩
  · next onto honto =>
    dsimp only
    split
    · refine ⟨?_, by simp, by simp⟩
      exact fun op hop => RepoOp.keepsRefs_of_writesTree (writesTree_openCommit _ _ _ op hop)
    · refine ⟨?_, ?_, ?_⟩
      · intro op hop
        rcases List.mem_append.mp hop with hop | hop
        · exact RepoOp.keepsRefs_of_writesTree (writesTree_writeTree _ _ _ _ _ _ _ op hop)
        · exact RepoOp.keepsRefs_of_writesTree (writesTree_cacheInvalidateDirHashDb _ _ op hop)
      · intro commit hcommit
        rw [← Except.ok.inj hcommit]
        exact ⟨_, List.mem_append_left _ (mem_writeTree _ _ _ _ _ _ _)⟩
      · intro commit hcommit parentId hp
        rw [← Except.ok.inj hcommit] at hp
        cases onto with
        | none => simp [commitNode] at hp
        | some onto =>
            obtain rfl : parentId = onto.hash := by simpa [commitNode] using hp
            exact isSome_of_targetCommit hk honto

theorem commitDirEntriesWithParents_plan (env : CommitEnv) (parentCommits : List String)
    (dirEntries : DirEntries) (target : String) (hk : s.db.Keyed) :
    WriterPlan s (commitDirEntriesWithParents env s parentCommits dirEntries target) := by
  rw [commitDirEntriesWithParents]
  split
  · exact ⟨by simp, by simp, by simp⟩
  split
  · exact ⟨by simp, by simp, by simp⟩
  · next cleanup newCommit hdata =>
    have hcleanup := keepsRefs_createCommitData hdata
    dsimp only
    split
    · refine ⟨?_, by simp, by simp⟩
      intro op hop
      rcases List.mem_append.mp hop with hop | hop
      · exact hcleanup op hop
      · exact RepoOp.keepsRefs_of_writesTree (writesTree_openCommit _ _ _ op hop)
    · refine ⟨?_, ?_, ?_⟩
      · intro op hop
        rcases List.mem_append.mp hop with hop | hop
        · exact hcleanup op hop
        · exact RepoOp.keepsRefs_of_writesTree (writesTree_writeTree _ _ _ _ _ _ _ op hop)
      · intro commit hcommit
        rw [← Except.ok.inj hcommit]
        exact ⟨_, List.mem_append_right _ (mem_writeTree _ _ _ _ _ _ _)⟩
      · intro commit hcommit parentId hp
        rw [← Except.ok.inj hcommit] at hp
        obtain ⟨parent, hparent, rfl⟩ := List.mem_map.mp hp
        obtain ⟨id, -, hget⟩ := List.mem_filterMap.mp hparent
        rw [getById, Option.bind_eq_some_iff] at hget
        obtain ⟨hash, -, hget⟩ := hget
        rw [hk hash parent hget, hget, Option.isSome_some]

end CommitWriter

/-! ## Stored commits -/

/-- Every stored commit has the parents that its id stands for. -/
def Means (meaning : MerkleHash → Option (List MerkleHash)) (db : NodeStore) : Prop :=
  ∀ id commit, getByHash db id = some commit → meaning id = some commit.parentIds

/-- The commits of a store are in another one too, with the same parents. -/
def KeepsCommits (db db' : NodeStore) : Prop :=
  ∀ id commit, getByHash db id = some commit →
    ∃ commit', getByHash db' id = some commit' ∧ commit'.parentIds = commit.parentIds

theorem KeepsCommits.trans {db db' db'' : NodeStore} (h : KeepsCommits db db')
    (h' : KeepsCommits db' db'') : KeepsCommits db db'' := by
  intro id commit hget
  obtain ⟨commit', hget', hparents⟩ := h id commit hget
  obtain ⟨commit'', hget'', hparents'⟩ := h' id commit' hget'
  exact ⟨commit'', hget'', hparents'.trans hparents⟩

theorem getByHash_eq (db : NodeStore) (id : MerkleHash) :
    getByHash db id = (db id).bind (·.node.commit?) := by
  rcases hrecord : db id with _ | ⟨node, parentId, children⟩
  · simp [getByHash, hrecord]
  · cases node <;> simp [getByHash, hrecord, EMerkleTreeNode.commit?]

theorem getByHash_openReadWrite (node : EMerkleTreeNode) (parentId : Option MerkleHash)
    (id : MerkleHash) :
    getByHash (RepoOp.apply s (.openReadWrite node parentId)).db id =
      if id = node.hash then node.commit? else getByHash s.db id := by
  by_cases hid : id = node.hash
  · simp [getByHash_eq, RepoOp.apply, NodeStore.write, hid]
  · simp [getByHash_eq, RepoOp.apply, NodeStore.write, hid]

theorem getByHash_addChild (nodeId id : MerkleHash) (child : EMerkleTreeNode) :
    getByHash (RepoOp.apply s (.addChild nodeId child)).db id = getByHash s.db id := by
  by_cases hid : id = nodeId
  · subst hid
    cases hrecord : s.db id <;> simp [getByHash_eq, RepoOp.apply, hrecord]
  · simp [getByHash_eq, RepoOp.apply, hid]

/-- Whether an operation writes a node. -/
def RepoOp.opens : RepoOp → Option EMerkleTreeNode
  | openReadWrite node _ => some node
  | _ => none

theorem getByHash_apply (op : RepoOp) (hop : op.opens = none) (id : MerkleHash) :
    getByHash (op.apply s).db id = getByHash s.db id := by
  cases op with
  | openReadWrite => simp [RepoOp.opens] at hop
  | addChild nodeId child => exact getByHash_addChild nodeId id child
  | _ => rfl

theorem Keyed.apply (hk : s.db.Keyed) (op : RepoOp) : (op.apply s).db.Keyed := by
  intro id commit hget
  cases hop : op.opens with
  | none =>
      rw [getByHash_apply op hop] at hget
      exact hk id commit hget
  | some node =>
      cases op with
      | openReadWrite node parentId =>
          rw [getByHash_openReadWrite] at hget
          split at hget
          · next hid =>
            cases node with
            | commit c =>
                obtain rfl : c = commit := Option.some.inj hget
                exact hid.symm
            | _ => cases hget
          · exact hk id commit hget
      | _ => cases hop

variable {meaning : MerkleHash → Option (List MerkleHash)}

/-- One operation keeps the stored commits when ids are free of collisions. -/
theorem Means.apply (h : Means meaning s.db) {op : RepoOp}
    (hop : ∀ node, op.opens = some node → meaning node.hash = node.commit?.map (·.parentIds)) :
    Means meaning (op.apply s).db ∧ KeepsCommits s.db (op.apply s).db := by
  cases hopens : op.opens with
  | none =>
      have hsame := fun id => @getByHash_apply s op hopens id
      refine ⟨fun id commit hget => ?_, fun id commit hget => ⟨commit, ?_, rfl⟩⟩
      · rw [hsame] at hget
        exact h id commit hget
      · rw [hsame]
        exact hget
  | some node =>
      have hnode := hop node hopens
      cases op with
      | openReadWrite node' parentId =>
          obtain rfl : node' = node := Option.some.inj hopens
          refine ⟨fun id commit hget => ?_, fun id commit hget => ?_⟩
          · rw [getByHash_openReadWrite] at hget
            split at hget
            · next hid =>
              rw [hid, hnode, hget, Option.map_some]
            · exact h id commit hget
          · rw [getByHash_openReadWrite]
            split
            · next hid =>
              have hmeaning := h id commit hget
              rw [hid, hnode] at hmeaning
              obtain ⟨commit', hcommit, hparents⟩ := Option.map_eq_some_iff.mp hmeaning
              exact ⟨commit', hcommit, hparents⟩
            · exact ⟨commit, hget, rfl⟩
      | _ => cases hopens

theorem Means.run (h : Means meaning s.db)
    (hops : ∀ node parentId, .openReadWrite node parentId ∈ ops →
      meaning node.hash = node.commit?.map (·.parentIds)) :
    Means meaning (s.run ops).db ∧ KeepsCommits s.db (s.run ops).db := by
  induction ops generalizing s with
  | nil => exact ⟨h, fun id commit hget => ⟨commit, hget, rfl⟩⟩
  | cons op ops ih =>
      have hop : ∀ node, op.opens = some node →
          meaning node.hash = node.commit?.map (·.parentIds) := by
        intro node hopens
        cases op with
        | openReadWrite node' parentId =>
            obtain rfl : node' = node := Option.some.inj hopens
            exact hops node' parentId List.mem_cons_self
        | _ => cases hopens
      obtain ⟨hmeans, hkeeps⟩ := h.apply hop
      obtain ⟨hmeans', hkeeps'⟩ :=
        ih hmeans fun node parentId hmem => hops node parentId (List.mem_cons_of_mem op hmem)
      exact ⟨hmeans', hkeeps.trans hkeeps'⟩

theorem Keyed.run (hk : s.db.Keyed) (ops : List RepoOp) : (s.run ops).db.Keyed := by
  induction ops generalizing s with
  | nil => exact hk
  | cons op ops ih => exact ih (Keyed.apply hk op)

/-- A commit that is written is stored afterwards. -/
theorem exists_of_opened (hfree : CollisionFree s.db ops) {commit : CommitNode}
    {parentId : Option MerkleHash} (hopen : .openReadWrite (.commit commit) parentId ∈ ops) :
    ∃ commit', getByHash (s.run ops).db commit.hash = some commit' ∧
      commit'.parentIds = commit.parentIds := by
  obtain ⟨meaning, hmeans, hops⟩ := hfree
  obtain ⟨before, after, rfl⟩ := List.mem_iff_append.mp hopen
  have hbefore : Means meaning (s.run before).db :=
    (Means.run hmeans fun node parentId hmem => hops node parentId
      (List.mem_append_left _ hmem)).1
  have hopened := (@Means.apply _ _ hbefore (.openReadWrite (.commit commit) parentId) (by
    intro node hnode
    obtain rfl : EMerkleTreeNode.commit commit = node := Option.some.inj hnode
    exact hops _ _ hopen)).1
  have hafter := (Means.run hopened fun node parentId hmem => hops node parentId
    (List.mem_append_right _ (List.mem_cons_of_mem _ hmem))).2
  have hget : getByHash
      (RepoOp.apply (s.run before) (.openReadWrite (.commit commit) parentId)).db commit.hash =
        some commit := by
    rw [getByHash_openReadWrite, if_pos (EMerkleTreeNode.hash_commit commit).symm]
    rfl
  have hrun : s.run (before ++ .openReadWrite (.commit commit) parentId :: after) =
      (RepoOp.apply (s.run before) (.openReadWrite (.commit commit) parentId)).run after := by
    rw [Repository.run, List.foldl_append, List.foldl_cons]
    rfl
  rw [hrun]
  exact hafter commit.hash commit hget

theorem CollisionFree.keepsCommits (h : CollisionFree s.db ops) :
    KeepsCommits s.db (s.run ops).db := by
  obtain ⟨meaning, hmeans, hops⟩ := h
  exact (Means.run hmeans hops).2

/-! ## Ancestors -/

/-- Ancestors stay ancestors while commits are added. -/
theorem KeepsCommits.reaches {db db' : NodeStore} (h : KeepsCommits db db') (hk : db.Keyed)
    (hk' : db'.Keyed) {x y : MerkleHash} (hr : Exploration.Reaches (parentsOf db none) x y) :
    Exploration.Reaches (parentsOf db' none) x y := by
  apply Relation.ReflTransGen.mono _ _ _ hr
  intro id parentId hp
  obtain ⟨commit, hget, hmem, hsome⟩ := (mem_parentsOf_iff hk).mp hp
  obtain ⟨commit', hget', hparents⟩ := h id commit hget
  obtain ⟨parent, hparent⟩ := Option.isSome_iff_exists.mp hsome
  obtain ⟨parent', hparent', -⟩ := h parentId parent hparent
  refine (mem_parentsOf_iff hk').mpr ⟨commit', hget', hparents ▸ hmem, ?_⟩
  rw [hparent', Option.isSome_some]

end Oxen
