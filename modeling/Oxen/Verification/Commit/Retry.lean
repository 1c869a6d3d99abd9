import Oxen.Verification.Commit.Children
import Oxen.Verification.History.Pages
import Oxen.Verification.Server.Writes
import Oxen.Verification.Tree.FileMap

/-! Commits that fail on the way, and calls that try again. -/

namespace Oxen

open Commits CommitWriter

variable {env : CommitEnv} {s s' : Repository} {ops : List RepoOp} {commit : CommitNode}
  {commitId : MerkleHash} {parentIds : Option (List String)} {parents : List MerkleHash}

/-! ## What the operations of a commit leave alone -/

structure SameButTree (commitId : MerkleHash) (s s' : Repository) : Prop where
  refs : s'.refs = s.refs
  mergeHead : s'.mergeHead = s.mergeHead
  origHead : s'.origHead = s.origHead
  staged : s'.staged = s.staged
  dirHashes : ∀ id, id ≠ commitId → s'.dirHashes id = s.dirHashes id

theorem sameButTree_apply {op : RepoOp} (h : op.writesTree commitId = true) :
    SameButTree commitId s (op.apply s) := by
  cases op with
  | openReadWrite node parentId => exact ⟨rfl, rfl, rfl, rfl, fun _ _ => rfl⟩
  | addChild nodeId child => exact ⟨rfl, rfl, rfl, rfl, fun _ _ => rfl⟩
  | putDirHash id path hash =>
      obtain rfl : id = commitId := of_decide_eq_true h
      exact ⟨rfl, rfl, rfl, rfl, fun _ hne => Function.update_of_ne hne _ _⟩
  | deleteDirHash id path =>
      obtain rfl : id = commitId := of_decide_eq_true h
      exact ⟨rfl, rfl, rfl, rfl, fun _ hne => Function.update_of_ne hne _ _⟩
  | _ => cases h

theorem sameButTree_run (h : ∀ op ∈ ops, op.writesTree commitId = true) :
    SameButTree commitId s (s.run ops) := by
  induction ops generalizing s with
  | nil => exact ⟨rfl, rfl, rfl, rfl, fun _ _ => rfl⟩
  | cons op ops ih =>
      have hop := @sameButTree_apply s commitId op (h op List.mem_cons_self)
      have hrest := @ih (op.apply s) fun op' hop' => h op' (List.mem_cons_of_mem op hop')
      exact ⟨hrest.refs.trans hop.refs, hrest.mergeHead.trans hop.mergeHead,
        hrest.origHead.trans hop.origHead, hrest.staged.trans hop.staged,
        fun id hne => (hrest.dirHashes id hne).trans (hop.dirHashes id hne)⟩

/-- The node whose files an operation writes. -/
def RepoOp.writes : RepoOp → Option MerkleHash
  | openReadWrite node _ => some node.hash
  | addChild nodeId _ => some nodeId
  | _ => none

theorem RepoOp.writes_of_opens {op : RepoOp} {node : EMerkleTreeNode} (h : op.opens = some node) :
    op.writes = some node.hash := by
  cases op with
  | openReadWrite node' parentId =>
      obtain rfl : node' = node := Option.some.inj h
      rfl
  | _ => cases h

/-- A commit stays as it is while no node is opened under its id. -/
theorem getByHash_run {id : MerkleHash} (h : ∀ op ∈ ops, ∀ node, op.opens = some node → node.hash ≠ id) :
    getByHash (s.run ops).db id = getByHash s.db id := by
  induction ops generalizing s with
  | nil => rfl
  | cons op ops ih =>
      rw [Repository.run, List.foldl_cons, ← Repository.run,
        ih fun op' hop' => h op' (List.mem_cons_of_mem op hop')]
      cases hopens : op.opens with
      | none => exact getByHash_apply op hopens id
      | some node =>
          have hne := h op List.mem_cons_self node hopens
          cases op with
          | openReadWrite node' parentId =>
              obtain rfl : node' = node := Option.some.inj hopens
              rw [getByHash_openReadWrite, if_neg hne.symm]
          | _ => cases hopens

/-! ## The parents of a commit -/

/-- The branch that a call with parents builds upon. -/
def targetBranch (refs : Refs) : String :=
  (currentBranch refs).getD defaultBranchName

/-- The parent texts of a call: those of the merge in progress, if there is one. -/
inductive ParentTexts (s : Repository) (given : List String) : List String → Prop
  | given (hmerge : s.mergeHead = none) : ParentTexts s given given
  | merge {mergeCommitId headCommitId : String} (hmerge : s.mergeHead = some mergeCommitId)
      (horig : s.origHead = some headCommitId) : ParentTexts s given [mergeCommitId, headCommitId]

/-- The call gets as far as a commit with these parents. -/
def CallParents (s : Repository) (parents : List MerkleHash) : Option (List String) → Prop
  | none => ∃ head texts, headCommitMaybe s.db s.refs = .ok head ∧
      ParentTexts s (head.toList.map fun c => c.hash.display) texts ∧
      texts.mapM MerkleHash.parse = some parents
  | some parentIds => ∃ onto head texts, targetCommit s (targetBranch s.refs) = .ok onto ∧
      headCommitMaybe s.db s.refs = .ok head ∧ ParentTexts s parentIds texts ∧
      parents = (texts.filterMap (getById s.db)).map (·.hash)

theorem ParentTexts.unique {given texts texts' : List String} (h : ParentTexts s given texts)
    (h' : ParentTexts s given texts') : texts = texts' := by
  cases h with
  | given hmerge =>
      cases h' with
      | given _ => rfl
      | merge hmerge' _ => simp [hmerge] at hmerge'
  | merge hmerge horig =>
      cases h' with
      | given hmerge' => simp [hmerge'] at hmerge
      | merge hmerge' horig' =>
          rw [Option.some.inj (hmerge.symm.trans hmerge'), Option.some.inj (horig.symm.trans horig')]

/-- The files of a merge in progress are removed first. -/
def cleanupOps (s : Repository) : List RepoOp :=
  if s.mergeHead.isSome then [.removeMergeHead, .removeOrigHead] else []

theorem createCommitData_of_parentTexts {given texts : List String} (h : ParentTexts s given texts) :
    createCommitData env s given = .ok (cleanupOps s,
      { parentIds := texts, body := env.newCommit, timestamp := env.timestamp }) := by
  cases h with
  | given hmerge => simp [createCommitData, cleanupOps, hmerge]
  | merge hmerge horig => simp [createCommitData, cleanupOps, hmerge, horig]

theorem exists_parentTexts {given : List String} {data : List RepoOp × NewCommit}
    (h : createCommitData env s given = .ok data) : ∃ texts, ParentTexts s given texts := by
  cases hmerge : s.mergeHead with
  | none => exact ⟨given, .given hmerge⟩
  | some mergeCommitId =>
      cases horig : s.origHead with
      | none => simp [createCommitData, hmerge, horig] at h
      | some headCommitId => exact ⟨_, .merge hmerge horig⟩

/-- The parts of a commit's plan. -/
structure CommitPlan (s : Repository) (plan : Plan) (commit : CommitNode) (tree : List RepoOp) :
    Prop where
  result : plan.result = .ok commit
  ops : plan.ops = cleanupOps s ++ tree
  opened : ∃ parentId, .openReadWrite (.commit commit) parentId ∈ tree
  writesTree : ∀ op ∈ tree, op.writesTree commit.hash = true

theorem commitDirEntriesNew_callPlan (env : CommitEnv) (dirEntries : DirEntries)
    (h : CallParents s parents none) : ∃ commit tree,
      CommitPlan s (commitDirEntriesNew env s dirEntries) commit tree ∧
        commit.parentIds = parents := by
  obtain ⟨head, texts, hhead, htexts, hparents⟩ := h
  simp only [commitDirEntriesNew, hhead, createCommitData_of_parentTexts htexts, hparents]
  refine ⟨_, _, ⟨rfl, List.append_assoc .., ⟨_, List.mem_append_left _ (mem_writeTree ..)⟩,
    fun op hop => ?_⟩, rfl⟩
  rcases List.mem_append.mp hop with hop | hop
  · exact writesTree_writeTree _ _ _ _ _ _ _ op hop
  · exact writesTree_cacheInvalidateDirHashDb _ _ op hop

theorem callParents_of_commitDirEntriesNew {dirEntries : DirEntries}
    (h : (commitDirEntriesNew env s dirEntries).result = .ok commit) :
    ∃ parents, CallParents s parents none := by
  rw [commitDirEntriesNew] at h
  split at h
  · cases h
  · next head hhead =>
    split at h
    · cases h
    · next cleanup newCommit hdata =>
      obtain ⟨texts, htexts⟩ := exists_parentTexts hdata
      rw [createCommitData_of_parentTexts htexts] at hdata
      obtain ⟨rfl, rfl⟩ := Prod.mk.inj (Except.ok.inj hdata)
      dsimp only at h
      split at h
      · cases h
      · next ids hids => exact ⟨ids, head, texts, hhead, htexts, hids⟩

theorem commitDirEntriesWithParents_callPlan (env : CommitEnv) (dirEntries : DirEntries)
    {given : List String} (h : CallParents s parents (some given)) : ∃ commit tree,
      CommitPlan s (commitDirEntriesWithParents env s given dirEntries (targetBranch s.refs))
        commit tree ∧ commit.parentIds = parents := by
  obtain ⟨onto, head, texts, honto, hhead, htexts, rfl⟩ := h
  simp only [commitDirEntriesWithParents, honto, createCommitData_of_parentTexts htexts, hhead]
  exact ⟨_, _, ⟨rfl, rfl, ⟨_, mem_writeTree ..⟩, writesTree_writeTree _ _ _ _ _ _ _⟩, rfl⟩

theorem callParents_of_commitDirEntriesWithParents {dirEntries : DirEntries} {given : List String}
    (h : (commitDirEntriesWithParents env s given dirEntries (targetBranch s.refs)).result =
      .ok commit) : ∃ parents, CallParents s parents (some given) := by
  rw [commitDirEntriesWithParents] at h
  split at h
  · cases h
  · next onto honto =>
    split at h
    · cases h
    · next cleanup newCommit hdata =>
      obtain ⟨texts, htexts⟩ := exists_parentTexts hdata
      rw [createCommitData_of_parentTexts htexts] at hdata
      obtain ⟨rfl, rfl⟩ := Prod.mk.inj (Except.ok.inj hdata)
      dsimp only at h
      split at h
      · cases h
      · next head hhead => exact ⟨_, onto, head, texts, honto, hhead, htexts, rfl⟩

/-- A call that makes a commit removes the files of a merge in progress, writes the
tree, removes the staged entries and moves the branch, in this order. -/
structure CallPlan (s : Repository) (plan : Plan) (commit : CommitNode) (tree : List RepoOp) :
    Prop where
  result : plan.result = .ok commit
  ops : plan.ops =
    cleanupOps s ++ tree ++ .removeStagedDb :: updateRefs s.refs commit.hash.display
  opened : ∃ parentId, .openReadWrite (.commit commit) parentId ∈ tree
  writesTree : ∀ op ∈ tree, op.writesTree commit.hash = true

theorem commitWithCfg_plan (env : CommitEnv) (hstaged : readStagedEntries s.staged ≠ ∅)
    (h : CallParents s parents parentIds) : ∃ commit tree,
      CallPlan s (commitWithCfg env s parentIds) commit tree ∧ commit.parentIds = parents := by
  cases parentIds with
  | none =>
      obtain ⟨commit, tree, hplan, hparents⟩ := commitDirEntriesNew_callPlan env _ h
      refine ⟨commit, tree, ?_, hparents⟩
      unfold commitWithCfg
      dsimp only
      rw [if_neg hstaged, hplan.result]
      exact ⟨rfl, by rw [hplan.ops], hplan.opened, hplan.writesTree⟩
  | some given =>
      obtain ⟨commit, tree, hplan, hparents⟩ := commitDirEntriesWithParents_callPlan env _ h
      refine ⟨commit, tree, ?_, hparents⟩
      rw [targetBranch] at hplan
      unfold commitWithCfg
      dsimp only
      rw [if_neg hstaged, hplan.result]
      exact ⟨rfl, by rw [hplan.ops], hplan.opened, hplan.writesTree⟩

theorem callParents_of_commitWithCfg (h : (commitWithCfg env s parentIds).result = .ok commit) :
    readStagedEntries s.staged ≠ ∅ ∧ ∃ parents, CallParents s parents parentIds := by
  cases parentIds with
  | none =>
      simp only [commitWithCfg] at h
      split at h
      · cases h
      · next hstaged =>
        split at h
        · cases h
        · next hresult => exact ⟨hstaged, callParents_of_commitDirEntriesNew hresult⟩
  | some given =>
      simp only [commitWithCfg] at h
      split at h
      · cases h
      · next hstaged =>
        split at h
        · cases h
        · next hresult => exact ⟨hstaged, callParents_of_commitDirEntriesWithParents hresult⟩

/-! ## Reading the same commits -/

/-- The texts by which a call looks up commits. -/
def namedTexts (s : Repository) (parentIds : Option (List String)) : List String :=
  s.mergeHead.toList ++ s.origHead.toList ++ s.refs.headFile.toList ++
    s.refs.headFile.toList.filterMap s.refs.branches.lookup ++
    match parentIds with
    | none => []
    | some given =>
        targetBranch s.refs :: (s.refs.branches.lookup (targetBranch s.refs)).toList ++ given

/-- Another state in which a call finds the same commits. -/
structure ReadsSame (parentIds : Option (List String)) (s s' : Repository) : Prop where
  refs : s'.refs = s.refs
  commits : ∀ text ∈ namedTexts s parentIds, getById s'.db text = getById s.db text

theorem headCommitId_congr (h : ReadsSame parentIds s s') :
    s'.refs.headCommitId s'.db = s.refs.headCommitId s.db := by
  rw [h.refs, Refs.headCommitId, Refs.headCommitId]
  cases hhead : s.refs.headFile with
  | none => rfl
  | some head =>
      have hget := h.commits head (by simp [namedTexts, hhead])
      simp [hget]

/-- HEAD leads to a text that the call looks up. -/
theorem mem_namedTexts_of_headCommitId {commitId : String}
    (h : s.refs.headCommitId s.db = some commitId) : commitId ∈ namedTexts s parentIds := by
  rw [Refs.headCommitId] at h
  obtain ⟨head, hhead, h⟩ := Option.bind_eq_some_iff.mp h
  split at h
  · next hlookup =>
    obtain rfl := Option.some.inj h
    simp [namedTexts, hhead, hlookup]
  · split at h
    · obtain rfl := Option.some.inj h
      simp [namedTexts, hhead]
    · cases h

theorem headCommitMaybe_congr (h : ReadsSame parentIds s s') :
    headCommitMaybe s'.db s'.refs = headCommitMaybe s.db s.refs := by
  rw [headCommitMaybe, headCommitMaybe, headCommitId_congr h]
  cases hid : s.refs.headCommitId s.db with
  | none => rfl
  | some commitId =>
      have hget := h.commits commitId (mem_namedTexts_of_headCommitId hid)
      cases hparse : MerkleHash.parse commitId with
      | none => simp [hparse]
      | some hash => simpa [getById, hparse] using hget

theorem headCommit_congr (h : ReadsSame parentIds s s') :
    headCommit s'.db s'.refs = headCommit s.db s.refs := by
  rw [headCommit, headCommit, headCommitId_congr h]
  cases hid : s.refs.headCommitId s.db with
  | none => rfl
  | some commitId =>
      have hget := h.commits commitId (mem_namedTexts_of_headCommitId hid)
      cases hparse : MerkleHash.parse commitId with
      | none => simp [hparse]
      | some hash =>
          have hsame : getByHash s'.db hash = getByHash s.db hash := by
            simpa [getById, hparse] using hget
          simp [hparse, hsame]

theorem targetCommit_congr {given : List String} (h : ReadsSame (some given) s s') :
    targetCommit s' (targetBranch s'.refs) = targetCommit s (targetBranch s.refs) := by
  have hget := h.commits ((s.refs.branches.lookup (targetBranch s.refs)).getD (targetBranch s.refs))
    (by cases hlookup : s.refs.branches.lookup (targetBranch s.refs) <;> simp [namedTexts, hlookup])
  rw [targetCommit, targetCommit, Revisions.get, Revisions.get, headCommit_congr h, h.refs, hget]

/-- A call finds the parents that it would have found, if no merge is in progress. -/
theorem ReadsSame.callParents (h : ReadsSame parentIds s s')
    (hmerge : s'.mergeHead = s.mergeHead) (horig : s'.origHead = s.origHead)
    (hcall : CallParents s parents parentIds) : CallParents s' parents parentIds := by
  have htexts : ∀ given texts, ParentTexts s given texts → ParentTexts s' given texts := by
    intro given texts ht
    cases ht with
    | given hnone => exact .given (hmerge.trans hnone)
    | merge hsome hsome' => exact .merge (hmerge.trans hsome) (horig.trans hsome')
  cases parentIds with
  | none =>
      obtain ⟨head, texts, hhead, ht, hparse⟩ := hcall
      exact ⟨head, texts, (headCommitMaybe_congr h).trans hhead, htexts _ _ ht, hparse⟩
  | some given =>
      obtain ⟨onto, head, texts, honto, hhead, ht, rfl⟩ := hcall
      refine ⟨onto, head, texts, (targetCommit_congr h).trans honto,
        (headCommitMaybe_congr h).trans hhead, htexts _ _ ht, ?_⟩
      have hsame : texts.filterMap (getById s'.db) = texts.filterMap (getById s.db) := by
        apply List.filterMap_congr
        intro text htext
        apply h.commits
        cases ht with
        | given _ => simp [namedTexts, htext]
        | merge hsome hsome' =>
            simp only [List.mem_cons, List.not_mem_nil, or_false] at htext
            rcases htext with rfl | rfl
            · simp [namedTexts, hsome]
            · simp [namedTexts, hsome']
      rw [hsame]

/-! ## The changes of a commit -/

/-- The index that a call builds upon. -/
def builtOnIndex (s : Repository) : Option (List String) → DirHashes
  | none => indexOf s (headCommitMaybe s.db s.refs).toOption.join
  | some _ => indexOf s (targetCommit s (targetBranch s.refs)).toOption.join

/-- The children that a staged directory gets, and the entries that it loses. -/
def changedChildren (s : Repository) (parentIds : Option (List String)) (directory : PathBuf) :
    Option DirChildren :=
  ((readStagedEntries s.staged).lookup directory).map
    (dirChildren s.db (builtOnIndex s parentIds) directory)

/-- Two calls change the same files. -/
def SameChanges (s s' : Repository) (parentIds : Option (List String)) : Prop :=
  ∀ directory path,
    (changedChildren s' parentIds directory).bind (·.children.lookup path) =
      (changedChildren s parentIds directory).bind (·.children.lookup path) ∧
    (changedChildren s' parentIds directory).bind (·.removed.lookup path) =
      (changedChildren s parentIds directory).bind (·.removed.lookup path)

/-! ## What a call reads of the store -/

/-- The node, its virtual nodes and the directories in those. -/
inductive DepthOne (db : NodeStore) (top : MerkleHash) : MerkleHash → Prop
  | self : DepthOne db top top
  | vnode {n : EMerkleTreeNode} (hn : n ∈ db.readChildrenFromHash top) : DepthOne db top n.hash
  | directory {n : EMerkleTreeNode} {d : DirNode} (hn : n ∈ db.readChildrenFromHash top)
      (hd : .directory d ∈ db.readChildrenFromHash n.hash) : DepthOne db top d.hash

/-- The node and everything below it. -/
inductive Whole (db : NodeStore) (top : MerkleHash) : MerkleHash → Prop
  | self : Whole db top top
  | child {id : MerkleHash} {n : EMerkleTreeNode} (hid : Whole db top id)
      (hn : n ∈ db.readChildrenFromHash id) (hchildren : n.hasChildren = true) : Whole db top n.hash

/-- The directories that a call loads to depth 1: the staged ones of the tree that it builds
upon, and those in them that it takes over. -/
inductive LoadsDir (s : Repository) (parentIds : Option (List String)) : MerkleHash → Prop
  | staged {directory : PathBuf} {hash : MerkleHash}
      (hstaged : directory ∈ readStagedEntries s.staged)
      (hlookup : (builtOnIndex s parentIds).lookup directory = some hash) :
      LoadsDir s parentIds hash
  | takenOver {directory path : PathBuf} {children : DirChildren} {child : StagedMerkleTreeNode}
      {d : DirNode} (hchildren : changedChildren s parentIds directory = some children)
      (hchild : children.children.lookup path = some child) (hd : child.node = .directory d)
      (hstaged : path ∉ readStagedEntries s.staged) : LoadsDir s parentIds d.hash

/-- The commits whose trees a call loads: the parents that it was given, or those of the
merge in progress. -/
def LoadsTree (s : Repository) (parentIds : Option (List String)) (id : MerkleHash) : Prop :=
  ∃ given texts, parentIds = some given ∧ ParentTexts s given texts ∧
    id ∈ (texts.filterMap (getById s.db)).map (·.hash)

/-- A file that ends early: the one of a node, or the one of its children. -/
inductive Damage where
  | none
  | node (hash : MerkleHash)
  | children (hash : MerkleHash)

def RepoOp.damage : RepoOp → Residue → Damage
  | openReadWrite node _, .cutNode => .node node.hash
  | addChild nodeId _, .cutNode => .node nodeId
  | addChild nodeId _, .cutChildren => .children nodeId
  | _, _ => .none

/-- A call fails where it loads a node whose file ends early, or, as it reads from the store
what is below a node that it loads, children from a file that does. -/
inductive Damage.Stops (s : Repository) (db : NodeStore) (parentIds : Option (List String)) :
    Damage → Prop
  | node {hash : MerkleHash} (hload : LoadsDir s parentIds hash) : Stops s db parentIds (.node hash)
  | children {top hash : MerkleHash} (hload : LoadsDir s parentIds top)
      (hread : DepthOne db top hash) : Stops s db parentIds (.children hash)
  | parent {top hash : MerkleHash} (hload : LoadsTree s parentIds top)
      (hread : Whole db top hash) : Stops s db parentIds (.children hash)

theorem LoadsDir.congr {id : MerkleHash} (h : LoadsDir s parentIds id)
    (hstaged : s'.staged = s.staged) (hindex : builtOnIndex s' parentIds = builtOnIndex s parentIds)
    (hchanges : SameChanges s s' parentIds) : LoadsDir s' parentIds id := by
  cases h with
  | staged hmem hlookup => exact .staged (by rwa [hstaged]) (by rwa [hindex])
  | @takenOver directory path children child d hchildren hchild hd hnot =>
      have hbind : (changedChildren s parentIds directory).bind (·.children.lookup path) =
          some child := by
        rw [hchildren]
        exact hchild
      rw [← (hchanges directory path).1] at hbind
      obtain ⟨children', hchildren', hchild'⟩ := Option.bind_eq_some_iff.mp hbind
      exact .takenOver hchildren' hchild' hd (by rwa [hstaged])

theorem loadsTree_iff {id : MerkleHash} (hcall : CallParents s parents parentIds) :
    LoadsTree s parentIds id ↔ parentIds.isSome ∧ id ∈ parents := by
  cases parentIds with
  | none => simp [LoadsTree]
  | some given =>
      obtain ⟨onto, head, texts, -, -, htexts, rfl⟩ := hcall
      constructor
      · rintro ⟨given', texts', heq, htexts', hid⟩
        obtain rfl := Option.some.inj heq
        rw [htexts'.unique htexts] at hid
        exact ⟨rfl, hid⟩
      · rintro ⟨-, hid⟩
        exact ⟨given, texts, rfl, htexts, hid⟩

/-- Calls with the same parents and the same changes stop at the same files. -/
theorem stops_iff {db : NodeStore} {damage : Damage} (hcall : CallParents s parents parentIds)
    (hcall' : CallParents s' parents parentIds) (hstaged : s'.staged = s.staged)
    (hindex : builtOnIndex s' parentIds = builtOnIndex s parentIds)
    (hchanges : SameChanges s s' parentIds) :
    damage.Stops s' db parentIds ↔ damage.Stops s db parentIds := by
  have hdirs : ∀ id, LoadsDir s' parentIds id ↔ LoadsDir s parentIds id := by
    intro id
    have hback : SameChanges s' s parentIds := fun directory path =>
      ⟨(hchanges directory path).1.symm, (hchanges directory path).2.symm⟩
    exact ⟨fun h => h.congr hstaged.symm hindex.symm hback,
      fun h => h.congr hstaged hindex hchanges⟩
  have htrees : ∀ id, LoadsTree s' parentIds id ↔ LoadsTree s parentIds id := fun id => by
    rw [loadsTree_iff hcall, loadsTree_iff hcall']
  constructor
  · intro h
    cases h with
    | node hload => exact .node ((hdirs _).mp hload)
    | children hload hread => exact .children ((hdirs _).mp hload) hread
    | parent hload hread => exact .parent ((htrees _).mp hload) hread
  · intro h
    cases h with
    | node hload => exact .node ((hdirs _).mpr hload)
    | children hload hread => exact .children ((hdirs _).mpr hload) hread
    | parent hload hread => exact .parent ((htrees _).mpr hload) hread

/-! ## The state at a failure -/

/-- What a failure before the staged entries are removed leaves alone. -/
structure AtFailure (s s' : Repository) (commitId : MerkleHash) (ops : List RepoOp) (k : ℕ) : Prop where
  refs : s'.refs = s.refs
  staged : s'.staged = s.staged
  dirHashes : ∀ id, id ≠ commitId → s'.dirHashes id = s.dirHashes id
  commits : ∀ id, (∀ op ∈ ops, op.writes ≠ some id) → getByHash s'.db id = getByHash s.db id
  noMerge : s.mergeHead = none ∨ k = 0 → s'.mergeHead = s.mergeHead ∧ s'.origHead = s.origHead
  merge : s.mergeHead.isSome → k ≠ 0 → s'.mergeHead = none

theorem Repository.run_append (ops ops' : List RepoOp) :
    s.run (ops ++ ops') = (s.run ops).run ops' :=
  List.foldl_append ..

theorem atFailure_cleanup (s : Repository) (k : ℕ) (commitId : MerkleHash) (ops : List RepoOp) :
    AtFailure s (s.run ((cleanupOps s).take k)) commitId ops k := by
  cases hmerge : s.mergeHead with
  | none =>
      rw [cleanupOps, if_neg (by simp [hmerge]), List.take_nil]
      exact ⟨rfl, rfl, fun _ _ => rfl, fun _ _ => rfl, fun _ => ⟨rfl, rfl⟩, by simp [hmerge]⟩
  | some mergeCommitId =>
      rw [cleanupOps, if_pos (by simp [hmerge])]
      match k with
      | 0 => exact ⟨rfl, rfl, fun _ _ => rfl, fun _ _ => rfl, fun _ => ⟨rfl, rfl⟩, by simp⟩
      | 1 => exact ⟨rfl, rfl, fun _ _ => rfl, fun _ _ => rfl, by simp [hmerge], fun _ _ => rfl⟩
      | k + 2 =>
          rw [List.take_of_length_le (by simp)]
          exact ⟨rfl, rfl, fun _ _ => rfl, fun _ _ => rfl, by simp [hmerge], fun _ _ => rfl⟩

theorem CallPlan.atFailure {plan : Plan} {tree : List RepoOp} (h : CallPlan s plan commit tree)
    {k : ℕ} (hstaged : .removeStagedDb ∉ plan.ops.take k) :
    AtFailure s (s.run (plan.ops.take k)) commit.hash plan.ops k := by
  have hk : k ≤ (cleanupOps s ++ tree).length := by
    by_contra hlt
    apply hstaged
    rw [h.ops, List.take_append, List.mem_append]
    right
    obtain ⟨n, hn⟩ := Nat.exists_eq_add_of_lt (Nat.lt_of_not_le hlt)
    rw [hn, show (cleanupOps s ++ tree).length + n + 1 - (cleanupOps s ++ tree).length = n + 1 by
      omega, List.take_succ_cons]
    exact List.mem_cons_self
  have htake : plan.ops.take k =
      (cleanupOps s).take k ++ tree.take (k - (cleanupOps s).length) := by
    rw [h.ops, List.take_append_of_le_length hk, List.take_append]
  rw [htake, Repository.run_append]
  have hcleanup := atFailure_cleanup s k commit.hash plan.ops
  have hwrites : ∀ op ∈ tree.take (k - (cleanupOps s).length), op.writesTree commit.hash = true :=
    fun op hop => h.writesTree op (List.mem_of_mem_take hop)
  have htree := @sameButTree_run (s.run ((cleanupOps s).take k)) _ _ hwrites
  constructor
  · exact htree.refs.trans hcleanup.refs
  · exact htree.staged.trans hcleanup.staged
  · exact fun id hne => (htree.dirHashes id hne).trans (hcleanup.dirHashes id hne)
  · intro id hid
    refine (getByHash_run fun op hop node hopens heq => hid op ?_ ?_).trans (hcleanup.commits id hid)
    · rw [h.ops]
      exact List.mem_append_left _ (List.mem_append_right _ (List.mem_of_mem_take hop))
    · rw [RepoOp.writes_of_opens hopens, heq]
  · intro hno
    obtain ⟨hmerge, horig⟩ := hcleanup.noMerge hno
    exact ⟨htree.mergeHead.trans hmerge, htree.origHead.trans horig⟩
  · exact fun hsome hpos => htree.mergeHead.trans (hcleanup.merge hsome hpos)

/-- Once the staged entries are removed, none come back. -/
theorem staged_run_of_mem (h : .removeStagedDb ∈ ops) : (s.run ops).staged = ∅ := by
  have hkeeps : ∀ (ops : List RepoOp) (s : Repository), s.staged = ∅ → (s.run ops).staged = ∅ := by
    intro ops
    induction ops with
    | nil => exact fun _ hs => hs
    | cons op ops ih =>
        intro s hs
        apply ih
        cases op with
        | removeStagedDb => rfl
        | _ => exact hs
  obtain ⟨before, after, rfl⟩ := List.mem_iff_append.mp h
  rw [Repository.run_append]
  exact hkeeps after _ rfl

/-! ## Calling again -/

theorem callParents_of_ok (h : (commitWithCfg env s parentIds).result = .ok commit) :
    readStagedEntries s.staged ≠ ∅ ∧ CallParents s commit.parentIds parentIds ∧
      ∃ tree, CallPlan s (commitWithCfg env s parentIds) commit tree := by
  obtain ⟨hstaged, parents, hcall⟩ := callParents_of_commitWithCfg h
  obtain ⟨commit', tree, hplan, hparents⟩ := commitWithCfg_plan env hstaged hcall
  obtain rfl : commit' = commit := Except.ok.inj (hplan.result.symm.trans h)
  exact ⟨hstaged, hparents ▸ hcall, tree, hplan⟩

/-- The state in which the operation number `k` of a call has failed. -/
def failedState (env : CommitEnv) (s : Repository) (parentIds : Option (List String)) (k : ℕ)
    (left : Residue) : Repository :=
  ((commitWithCfg env s parentIds).carryOut s k left).1

/-- What the operation number `k` of a call damages when it fails. -/
def damageAt (env : CommitEnv) (s : Repository) (parentIds : Option (List String)) (k : ℕ)
    (left : Residue) : Damage :=
  match (commitWithCfg env s parentIds).ops[k]? with
  | some op => op.damage left
  | none => .none

/-- After a failure the staged entries are still there, and calling again makes a
commit with the same parents and the same changes. -/
structure Retryable (env : CommitEnv) (s : Repository) (parentIds : Option (List String))
    (commit : CommitNode) (k : ℕ) (left : Residue) : Prop where
  failed : ∃ e, ((commitWithCfg env s parentIds).carryOut s k left).2 = .error e
  staged : (failedState env s parentIds k left).staged = s.staged
  reads : ¬ (damageAt env s parentIds k left).Stops (failedState env s parentIds k left)
    (failedState env s parentIds k left).db parentIds
  commits : ∀ env' : CommitEnv, ∃ commit',
    (commitWithCfg env' (failedState env s parentIds k left) parentIds).result = .ok commit' ∧
      commit'.parentIds = commit.parentIds
  changes : SameChanges s (failedState env s parentIds k left) parentIds

/-- The given parents are the ones of the merge in progress. -/
def NamesMerge (s : Repository) (parentIds : Option (List String)) : Prop :=
  ∃ given mergeCommitId headCommitId, parentIds = some given ∧ s.mergeHead = some mergeCommitId ∧
    s.origHead = some headCommitId ∧
    (given.filterMap (getById s.db)).map (·.hash) =
      ([mergeCommitId, headCommitId].filterMap (getById s.db)).map (·.hash)

/-- The failure comes no later than the removal of the staged entries, which loses none of them;
not after the removal of the files of a merge; not while the commit has written over stored
children that it takes over; and no file that ends early is one that the call itself had to
load. -/
structure FailsSafely (env : CommitEnv) (s : Repository) (parentIds : Option (List String))
    (k : ℕ) (left : Residue) : Prop where
  staged : .removeStagedDb ∉ (commitWithCfg env s parentIds).ops.take k
  kept : ∀ lost, left = .unstaged lost →
    (commitWithCfg env s parentIds).ops[k]? = some .removeStagedDb → ∀ path ∈ lost, path ∉ s.staged
  merge : s.mergeHead = none ∨ k = 0 ∨ NamesMerge s parentIds
  whole : ∀ directory newChildren, (readStagedEntries s.staged).lookup directory = some newChildren →
    ∀ path, ¬ StagedIn directory newChildren path →
      (storedChildren (failedState env s parentIds k left).db (builtOnIndex s parentIds)
        directory).lookup path =
        (storedChildren s.db (builtOnIndex s parentIds) directory).lookup path
  readable : ¬ (damageAt env s parentIds k left).Stops s (failedState env s parentIds k left).db
    parentIds

/-- No text by which the call looks up commits is the id of a node that it writes. -/
def WritesNewIds (env : CommitEnv) (s : Repository) (parentIds : Option (List String)) : Prop :=
  ∀ op ∈ (commitWithCfg env s parentIds).ops, ∀ id, op.writes = some id →
    ∀ text ∈ namedTexts s parentIds, MerkleHash.parse text ≠ some id

theorem failedState_eq {k : ℕ} {op : RepoOp} (left : Residue)
    (hk : (commitWithCfg env s parentIds).ops[k]? = some op) :
    failedState env s parentIds k left =
      op.leave (s.run ((commitWithCfg env s parentIds).ops.take k)) left := by
  rw [failedState, Plan.carryOut, hk]

theorem getByHash_leave {op : RepoOp} {id : MerkleHash} (left : Residue) (h : op.writes ≠ some id) :
    getByHash (op.leave s left).db id = getByHash s.db id := by
  have hupdate : ∀ hash, some hash ≠ some id →
      getByHash (Function.update s.db hash none) id = getByHash s.db id := by
    intro hash hne
    have hid : id ≠ hash := fun heq => hne (congrArg some heq.symm)
    rw [getByHash, getByHash, Function.update_of_ne hid]
  cases left with
  | cutNode =>
      cases op with
      | openReadWrite node parentId => exact hupdate node.hash h
      | addChild nodeId child => exact hupdate nodeId h
      | _ => rfl
  | _ => cases op <;> rfl

/-- A failing operation touches the files of one node or the staged entries. -/
theorem sameRest_leave (s : Repository) (op : RepoOp) (left : Residue) :
    (op.leave s left).refs = s.refs ∧ (op.leave s left).mergeHead = s.mergeHead ∧
      (op.leave s left).origHead = s.origHead ∧ (op.leave s left).dirHashes = s.dirHashes := by
  cases op with
  | openReadWrite node parentId => cases left <;> exact ⟨rfl, rfl, rfl, rfl⟩
  | addChild nodeId child => cases left <;> exact ⟨rfl, rfl, rfl, rfl⟩
  | removeStagedDb => cases left <;> exact ⟨rfl, rfl, rfl, rfl⟩
  | _ => exact ⟨rfl, rfl, rfl, rfl⟩

theorem foldl_erase_of_notMem {staged : StagedDb} {lost : List PathBuf}
    (h : ∀ path ∈ lost, path ∉ staged) :
    lost.foldl (fun db path => db.erase path) staged = staged := by
  induction lost with
  | nil => rfl
  | cons path lost ih =>
      have herase : staged.erase path = staged :=
        AList.ext (List.kerase_of_notMem_keys (h path List.mem_cons_self))
      rw [List.foldl_cons, herase]
      exact ih fun p hp => h p (List.mem_cons_of_mem path hp)

theorem notMem_foldl_erase {staged : StagedDb} {lost : List PathBuf} {path : PathBuf}
    (h : path ∈ lost ∨ path ∉ staged) :
    path ∉ lost.foldl (fun db path => db.erase path) staged := by
  induction lost generalizing staged with
  | nil => exact h.resolve_left List.not_mem_nil
  | cons p lost ih =>
      apply ih
      rcases h with hmem | hnot
      · rcases List.mem_cons.mp hmem with rfl | hmem
        · exact .inr fun hin => (AList.mem_erase.mp hin).1 rfl
        · exact .inl hmem
      · exact .inr fun hin => hnot (AList.mem_erase.mp hin).2

/-- No staged entry is lost exactly when the removal got as far as none of them. -/
theorem staged_leave_iff {op : RepoOp} {left : Residue} : (op.leave s left).staged = s.staged ↔
    ∀ lost, left = .unstaged lost → op = .removeStagedDb → ∀ path ∈ lost, path ∉ s.staged := by
  constructor
  · rintro heq lost rfl rfl path hpath
    rw [← heq]
    exact notMem_foldl_erase (.inl hpath)
  · intro hkept
    cases op with
    | openReadWrite node parentId => cases left <;> rfl
    | addChild nodeId child => cases left <;> rfl
    | removeStagedDb =>
        cases left with
        | unstaged lost => exact foldl_erase_of_notMem (hkept lost rfl rfl)
        | _ => rfl
    | _ => rfl

theorem staged_leave_empty (op : RepoOp) (left : Residue) (h : s.staged = ∅) :
    (op.leave s left).staged = ∅ := by
  rw [← h]
  apply staged_leave_iff.mpr
  rw [h]
  exact fun lost _ _ path _ => AList.notMem_empty path

/-- A failure that loses no staged entry leaves alone what the operations before it do. -/
theorem AtFailure.leave {s' : Repository} {op : RepoOp} {k : ℕ} {left : Residue}
    (h : AtFailure s s' commitId ops k) (hop : op ∈ ops)
    (hkept : (op.leave s' left).staged = s'.staged) :
    AtFailure s (op.leave s' left) commitId ops k := by
  obtain ⟨hrefs, hmergeHead, horigHead, hdirHashes⟩ := sameRest_leave s' op left
  refine ⟨hrefs.trans h.refs, hkept.trans h.staged, fun id hne => ?_, fun id hid => ?_,
    fun hno => ?_, fun hsome hpos => hmergeHead.trans (h.merge hsome hpos)⟩
  · rw [hdirHashes]
    exact h.dirHashes id hne
  · exact (getByHash_leave left (hid op hop)).trans (h.commits id hid)
  · obtain ⟨hmerge, horig⟩ := h.noMerge hno
    exact ⟨hmergeHead.trans hmerge, horigHead.trans horig⟩

theorem readsSame_failedState (hnew : WritesNewIds env s parentIds) {s' : Repository} {k : ℕ}
    (hfail : AtFailure s s' commit.hash (commitWithCfg env s parentIds).ops k) :
    ReadsSame parentIds s s' := by
  refine ⟨hfail.refs, fun text htext => ?_⟩
  rw [getById, getById]
  cases hparse : MerkleHash.parse text with
  | none => rfl
  | some id =>
      apply hfail.commits
      intro op hop hwrites
      exact hnew op hop id hwrites text htext hparse

theorem exists_text_of_headCommitMaybe (hk : s.db.Keyed) {head : CommitNode}
    (h : headCommitMaybe s.db s.refs = .ok (some head)) :
    ∃ text ∈ namedTexts s parentIds, MerkleHash.parse text = some head.hash := by
  rw [headCommitMaybe] at h
  split at h
  · cases h
  · next commitId hid =>
    split at h
    · cases h
    · next hash hparse =>
      rw [← hk hash head (Except.ok.inj h)] at hparse
      exact ⟨commitId, mem_namedTexts_of_headCommitId hid, hparse⟩

theorem exists_text_of_headCommit (hk : s.db.Keyed) {head : CommitNode}
    (h : headCommit s.db s.refs = .ok head) :
    ∃ text ∈ namedTexts s parentIds, MerkleHash.parse text = some head.hash := by
  rw [headCommit] at h
  split at h
  · cases h
  · next commitId hid =>
    split at h
    · cases h
    · next hash hparse =>
      split at h
      · cases h
      · next c hget =>
        obtain rfl := Except.ok.inj h
        rw [← hk hash c hget] at hparse
        exact ⟨commitId, mem_namedTexts_of_headCommitId hid, hparse⟩

theorem exists_text_of_targetCommit (hk : s.db.Keyed) {given : List String} {onto : CommitNode}
    (h : targetCommit s (targetBranch s.refs) = .ok (some onto)) :
    ∃ text ∈ namedTexts s (some given), MerkleHash.parse text = some onto.hash := by
  rw [targetCommit] at h
  split at h
  · rw [Revisions.get] at h
    split at h
    · cases hhead : headCommit s.db s.refs with
      | error e => simp [hhead, Except.map] at h
      | ok head =>
          obtain rfl : head = onto := by simpa [hhead, Except.map] using h
          exact exists_text_of_headCommit hk hhead
    · obtain ⟨hash, hparse, hget⟩ := Option.bind_eq_some_iff.mp (Except.ok.inj h)
      rw [← hk hash onto hget] at hparse
      refine ⟨_, ?_, hparse⟩
      cases hlookup : s.refs.branches.lookup (targetBranch s.refs) with
      | none => simp [namedTexts]
      | some text => simp [namedTexts, hlookup]
  · cases h

theorem CallPlan.ne_of_named {tree : List RepoOp} (hnew : WritesNewIds env s parentIds)
    (hplan : CallPlan s (commitWithCfg env s parentIds) commit tree) {id : MerkleHash}
    (h : ∃ text ∈ namedTexts s parentIds, MerkleHash.parse text = some id) : id ≠ commit.hash := by
  rintro rfl
  obtain ⟨text, htext, hparse⟩ := h
  obtain ⟨parentId, hopen⟩ := hplan.opened
  refine hnew (.openReadWrite (.commit commit) parentId) ?_ commit.hash rfl text htext hparse
  rw [hplan.ops]
  exact List.mem_append_left _ (List.mem_append_right _ hopen)

theorem builtOnIndex_failedState (hk : s.db.Keyed) (hnew : WritesNewIds env s parentIds)
    {tree : List RepoOp} (hplan : CallPlan s (commitWithCfg env s parentIds) commit tree)
    {s' : Repository} {k : ℕ}
    (hfail : AtFailure s s' commit.hash (commitWithCfg env s parentIds).ops k) :
    builtOnIndex s' parentIds = builtOnIndex s parentIds := by
  have hreads := readsSame_failedState hnew hfail
  cases parentIds with
  | none =>
      rw [builtOnIndex, builtOnIndex, headCommitMaybe_congr hreads]
      rcases hhead : headCommitMaybe s.db s.refs with e | (_ | head)
      · rfl
      · rfl
      · exact hfail.dirHashes head.hash
          (hplan.ne_of_named hnew (exists_text_of_headCommitMaybe hk hhead))
  | some given =>
      rw [builtOnIndex, builtOnIndex, targetCommit_congr hreads]
      rcases honto : targetCommit s (targetBranch s.refs) with e | (_ | onto)
      · rfl
      · rfl
      · exact hfail.dirHashes onto.hash
          (hplan.ne_of_named hnew (exists_text_of_targetCommit hk honto))

/-- Apart from what was written over, the same files are changed. -/
theorem sameChanges_iff {s' : Repository} (hstaged : s'.staged = s.staged)
    (hindex : builtOnIndex s' parentIds = builtOnIndex s parentIds) :
    SameChanges s s' parentIds ↔
      ∀ directory newChildren,
        (readStagedEntries s.staged).lookup directory = some newChildren →
        ∀ path, ¬ StagedIn directory newChildren path →
          (storedChildren s'.db (builtOnIndex s parentIds) directory).lookup path =
            (storedChildren s.db (builtOnIndex s parentIds) directory).lookup path := by
  constructor
  · intro h directory newChildren hlookup path hnot
    have hchildren := (h directory path).1
    simp only [changedChildren, hstaged, hindex, hlookup, Option.map_some, Option.bind_some,
      dirChildren, lookup_foldl_of_not_stagedIn hnot] at hchildren
    exact hchildren
  · intro h directory path
    cases hlookup : (readStagedEntries s.staged).lookup directory with
    | none => simp [changedChildren, hstaged, hlookup]
    | some newChildren =>
        simp only [changedChildren, hstaged, hindex, hlookup, Option.map_some, Option.bind_some,
          dirChildren]
        constructor
        · apply lookup_foldl_congr
          by_cases hin : StagedIn directory newChildren path
          · exact .inl hin
          · exact .inr (h directory newChildren hlookup path hin)
        · apply congrArg (AList.lookup path)
          apply removed_foldl_congr
          rfl

theorem ParentTexts.eq_given {given texts : List String} (hmerge : s.mergeHead = none)
    (h : ParentTexts s given texts) : texts = given := by
  cases h with
  | given _ => rfl
  | merge hsome _ => simp [hmerge] at hsome

theorem ParentTexts.eq_merge {given texts : List String} {mergeCommitId : String}
    (hmerge : s.mergeHead = some mergeCommitId) (h : ParentTexts s given texts) :
    ∃ headCommitId, s.origHead = some headCommitId ∧ texts = [mergeCommitId, headCommitId] := by
  cases h with
  | given hnone => simp [hmerge] at hnone
  | merge hsome horig =>
      obtain rfl := Option.some.inj (hmerge.symm.trans hsome)
      exact ⟨_, horig, rfl⟩

/-- Without a merge in progress a commit onto HEAD has at most one parent. -/
theorem length_parents_le_one (hmerge : s.mergeHead = none) (h : CallParents s parents none) :
    parents.length ≤ 1 := by
  obtain ⟨head, texts, -, htexts, hparse⟩ := h
  obtain rfl := htexts.eq_given hmerge
  cases head with
  | none =>
      obtain rfl : [] = parents := by simpa using hparse
      exact Nat.zero_le 1
  | some head =>
      obtain rfl : [head.hash] = parents := by simpa [MerkleHash.parse_display] using hparse
      exact le_rfl

/-- A merge in progress gives two parents. -/
theorem length_parents_of_merge {mergeCommitId : String} (hmerge : s.mergeHead = some mergeCommitId)
    (h : CallParents s parents none) : parents.length = 2 := by
  obtain ⟨head, texts, -, htexts, hparse⟩ := h
  obtain ⟨headCommitId, horig, rfl⟩ := htexts.eq_merge hmerge
  simp only [List.mapM_cons, List.mapM_nil, Option.bind_eq_bind, Option.bind_eq_some_iff,
    Option.pure_def, Option.some.injEq] at hparse
  obtain ⟨x, -, xs, ⟨y, -, ys, rfl, rfl⟩, rfl⟩ := hparse
  rfl

theorem parents_of_given {given : List String} (hmerge : s.mergeHead = none)
    (h : CallParents s parents (some given)) :
    parents = (given.filterMap (getById s.db)).map (·.hash) := by
  obtain ⟨onto, head, texts, -, -, htexts, rfl⟩ := h
  rw [htexts.eq_given hmerge]

theorem parents_of_merge {given : List String} {mergeCommitId : String}
    (hmerge : s.mergeHead = some mergeCommitId) (h : CallParents s parents (some given)) :
    ∃ headCommitId, s.origHead = some headCommitId ∧
      parents = ([mergeCommitId, headCommitId].filterMap (getById s.db)).map (·.hash) := by
  obtain ⟨onto, head, texts, -, -, htexts, rfl⟩ := h
  obtain ⟨headCommitId, horig, rfl⟩ := htexts.eq_merge hmerge
  exact ⟨headCommitId, horig, rfl⟩

/-- The given commits are still there at the failure. -/
theorem given_failedState {given : List String} {s' : Repository}
    (hreads : ReadsSame (some given) s s') :
    given.filterMap (getById s'.db) = given.filterMap (getById s.db) :=
  List.filterMap_congr fun text htext => hreads.commits text (by simp [namedTexts, htext])

theorem callParents_failedState {s' : Repository} {k : ℕ}
    (hcall : CallParents s parents parentIds) (hfail : AtFailure s s' commitId ops k)
    (hreads : ReadsSame parentIds s s')
    (hmerge : s.mergeHead = none ∨ k = 0 ∨ NamesMerge s parentIds) :
    CallParents s' parents parentIds := by
  by_cases hsafe : s.mergeHead = none ∨ k = 0
  · obtain ⟨hsame, hsame'⟩ := hfail.noMerge hsafe
    exact hreads.callParents hsame hsame' hcall
  · rw [← or_assoc] at hmerge
    obtain ⟨given, mergeCommitId, headCommitId, rfl, hsome, horig, hnames⟩ :=
      hmerge.resolve_left hsafe
    rw [not_or] at hsafe
    obtain ⟨headCommitId', horig', hparents⟩ := parents_of_merge hsome hcall
    obtain rfl := Option.some.inj (horig.symm.trans horig')
    obtain ⟨onto, head, texts, honto, hhead, -, -⟩ := hcall
    refine ⟨onto, head, given, (targetCommit_congr hreads).trans honto,
      (headCommitMaybe_congr hreads).trans hhead, .given (hfail.merge ?_ hsafe.2), ?_⟩
    · rw [hsome, Option.isSome_some]
    · rw [given_failedState hreads, hnames]
      exact hparents

/-- A call after the failure finds the same parents only if it does not miss the merge. -/
theorem merge_of_callParents_failedState {s' : Repository} {k : ℕ}
    (hcall : CallParents s parents parentIds) (hfail : AtFailure s s' commitId ops k)
    (hreads : ReadsSame parentIds s s') (hagain : CallParents s' parents parentIds) :
    s.mergeHead = none ∨ k = 0 ∨ NamesMerge s parentIds := by
  by_contra hunsafe
  simp only [not_or] at hunsafe
  obtain ⟨hmerge, hpos, hnames⟩ := hunsafe
  obtain ⟨mergeCommitId, hmerge⟩ := Option.ne_none_iff_exists'.mp hmerge
  have hmerge' := hfail.merge (by simp [hmerge]) hpos
  cases parentIds with
  | none =>
      have htwo := length_parents_of_merge hmerge hcall
      have hone := length_parents_le_one hmerge' hagain
      omega
  | some given =>
      obtain ⟨headCommitId, horig, hparents⟩ := parents_of_merge hmerge hcall
      have hparents' := parents_of_given hmerge' hagain
      rw [given_failedState hreads, hparents] at hparents'
      exact hnames ⟨given, mergeCommitId, headCommitId, rfl, hmerge, horig, hparents'.symm⟩

theorem CallPlan.atFailure_failedState {tree : List RepoOp} {k : ℕ} {left : Residue}
    (hplan : CallPlan s (commitWithCfg env s parentIds) commit tree)
    (hfails : k < (commitWithCfg env s parentIds).ops.length)
    (hbefore : .removeStagedDb ∉ (commitWithCfg env s parentIds).ops.take k)
    (hkept : (failedState env s parentIds k left).staged = s.staged) :
    AtFailure s (failedState env s parentIds k left) commit.hash
      (commitWithCfg env s parentIds).ops k := by
  have hop := List.getElem?_eq_getElem hfails
  have hfail := hplan.atFailure hbefore
  rw [failedState_eq left hop] at hkept ⊢
  exact hfail.leave (List.mem_of_getElem? hop) (hkept.trans hfail.staged.symm)

/-- The staged entries survive a failure before their removal, and one of the removal that has
not got as far as any of them. -/
theorem CallPlan.staged_failedState_iff {tree : List RepoOp} {k : ℕ} {left : Residue}
    (hplan : CallPlan s (commitWithCfg env s parentIds) commit tree)
    (hfails : k < (commitWithCfg env s parentIds).ops.length)
    (hbefore : .removeStagedDb ∉ (commitWithCfg env s parentIds).ops.take k) :
    (failedState env s parentIds k left).staged = s.staged ↔
      ∀ lost, left = .unstaged lost →
        (commitWithCfg env s parentIds).ops[k]? = some .removeStagedDb →
          ∀ path ∈ lost, path ∉ s.staged := by
  have hop := List.getElem?_eq_getElem hfails
  have hstaged := (hplan.atFailure hbefore).staged
  have hiff := @staged_leave_iff (s.run ((commitWithCfg env s parentIds).ops.take k))
    (commitWithCfg env s parentIds).ops[k] left
  rw [failedState_eq left hop, hop]
  rw [hstaged] at hiff
  simpa only [Option.some.injEq] using hiff

/-- Calling again after a failure makes the same commit if and only if the failure
was safe. -/
theorem retryable_iff (hk : s.db.Keyed) (h : (commitWithCfg env s parentIds).result = .ok commit)
    (hnew : WritesNewIds env s parentIds) {k : ℕ}
    (hfails : k < (commitWithCfg env s parentIds).ops.length) (left : Residue) :
    Retryable env s parentIds commit k left ↔ FailsSafely env s parentIds k left := by
  obtain ⟨hstaged, hcall, tree, hplan⟩ := callParents_of_ok h
  constructor
  · intro hretry
    have hbefore : .removeStagedDb ∉ (commitWithCfg env s parentIds).ops.take k := by
      intro hmem
      have hempty := staged_run_of_mem (s := s) hmem
      have hleft := staged_leave_empty ((commitWithCfg env s parentIds).ops[k]) left hempty
      rw [← failedState_eq left (List.getElem?_eq_getElem hfails), hretry.staged] at hleft
      exact hstaged (by rw [hleft]; rfl)
    have hfail := hplan.atFailure_failedState hfails hbefore hretry.staged
    have hreads := readsSame_failedState hnew hfail
    have hindex := builtOnIndex_failedState hk hnew hplan hfail
    obtain ⟨commit', hagain, heq⟩ := hretry.commits env
    have hcall' := (callParents_of_ok hagain).2.1
    rw [heq] at hcall'
    refine ⟨hbefore, (hplan.staged_failedState_iff hfails hbefore).mp hretry.staged, ?_, ?_, ?_⟩
    · exact merge_of_callParents_failedState hcall hfail hreads hcall'
    · exact (sameChanges_iff hfail.staged hindex).mp hretry.changes
    · exact (stops_iff hcall hcall' hfail.staged hindex hretry.changes).not.mp hretry.reads
  · intro hsafe
    have hkept := (hplan.staged_failedState_iff hfails hsafe.staged).mpr hsafe.kept
    have hfail := hplan.atFailure_failedState hfails hsafe.staged hkept
    have hreads := readsSame_failedState hnew hfail
    have hindex := builtOnIndex_failedState hk hnew hplan hfail
    have hchanges := (sameChanges_iff hfail.staged hindex).mpr hsafe.whole
    have hagain : CallParents (failedState env s parentIds k left) commit.parentIds parentIds :=
      callParents_failedState hcall hfail hreads hsafe.merge
    refine ⟨⟨_, by rw [Plan.carryOut, List.getElem?_eq_getElem hfails]⟩, hfail.staged, ?_, ?_,
      hchanges⟩
    · exact (stops_iff hcall hagain hfail.staged hindex hchanges).not.mpr hsafe.readable
    · intro env'
      rw [← hfail.staged] at hstaged
      obtain ⟨commit', tree', hplan', hparents⟩ := commitWithCfg_plan env' hstaged hagain
      exact ⟨commit', hplan'.result, hparents⟩

/-! ## A merge whose commit fails -/

namespace RetryExample

open HistoryExample

def smallEnv : CommitEnv where
  toLocalRepository := Example.repo
  numVNodes n := (n + 9999) / 10000
  numVNodes_zero := rfl
  numVNodes_pos n hn := by omega
  uuid _ _ := [7]
  timestamp := 5000000000

/-- A merge of commit 3 into a branch at commit 2, with one staged file. -/
def merging : Repository where
  db := branched
  refs := { headFile := some "main", branches := AList.insert "main" "2" ∅ }
  mergeHead := some "3"
  origHead := some "2"
  staged := AList.insert ["a"] ⟨.added, .file (Example.fileNode "a" [1] 1)⟩ ∅

def mergeCommit : CommitNode :=
  CommitWriter.commitNode smallEnv
    (computeCommitId smallEnv.toHost
      { parentIds := ["3", "2"], body := smallEnv.newCommit, timestamp := smallEnv.timestamp }) [3, 2]

theorem merging_ok : (commitWithCfg smallEnv merging none).result = .ok mergeCommit := by
  decide

theorem merging_writesNewIds : WritesNewIds smallEnv merging none := by
  have hnew : ∀ op ∈ (commitWithCfg smallEnv merging none).ops, ∀ text ∈ namedTexts merging none,
      op.writes.isSome → MerkleHash.parse text ≠ op.writes := by decide +kernel
  intro op hop id hwrites text htext
  have hne := hnew op hop text htext
  rw [hwrites] at hne
  exact hne rfl

theorem merging_fails : 2 < (commitWithCfg smallEnv merging none).ops.length := by
  decide

/-- The next call finds no merge. -/
theorem not_retryable_merging : ¬ Retryable smallEnv merging none mergeCommit 2 .nothing := by
  intro h
  obtain ⟨commit', hagain, hparents⟩ := h.commits smallEnv
  have hone : (commitWithCfg smallEnv (failedState smallEnv merging none 2 .nothing)
      none).result.map (·.parentIds) = .ok [2] := by decide
  rw [hagain] at hone
  have htwo : commit'.parentIds = [2] := Except.ok.inj hone
  rw [hparents] at htwo
  exact absurd htwo (by decide)

end RetryExample

theorem retryable_iff_example :
    Retryable RetryExample.smallEnv RetryExample.merging none RetryExample.mergeCommit 2 .cutNode ↔
      FailsSafely RetryExample.smallEnv RetryExample.merging none 2 .cutNode :=
  retryable_iff HistoryExample.branched_keyed RetryExample.merging_ok
    RetryExample.merging_writesNewIds RetryExample.merging_fails .cutNode

/-- When the first node can not be written, the files of the merge are gone: the
next call makes a commit with one parent. -/
theorem not_retryable :
    ¬ ∀ (env : CommitEnv) (s : Repository) (parentIds : Option (List String)) (commit : CommitNode)
      (k : ℕ) (left : Residue), s.db.Keyed → (commitWithCfg env s parentIds).result = .ok commit →
        WritesNewIds env s parentIds → k < (commitWithCfg env s parentIds).ops.length →
          Retryable env s parentIds commit k left := by
  intro h
  exact RetryExample.not_retryable_merging (h _ _ _ _ _ _ HistoryExample.branched_keyed
    RetryExample.merging_ok RetryExample.merging_writesNewIds RetryExample.merging_fails)

end Oxen
