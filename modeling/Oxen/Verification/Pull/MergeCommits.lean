import Oxen.Verification.Commit.Retry
import Oxen.Verification.Commit.WritePlan
import Oxen.Verification.Pull.Histories

/-! The merge commit of a pull. It adds itself to the commits, and gets the histories
of its parents. -/

namespace Oxen

open Commits CommitWriter ClientMerge Exploration Fuel

variable {env : CommitEnv} {s : Repository} {ops : List RepoOp} {commit : CommitNode}
  {base merge : CommitNode} {client : Client} {x y : MerkleHash} {commitId : String}

/-! ## New ids -/

/-- The nodes that are written have ids that no commit, no parent and no branch has. -/
structure NewIds (s : Repository) (ops : List RepoOp) : Prop where
  collisionFree : CollisionFree s.db ops
  fresh : ∀ node parentId, .openReadWrite node parentId ∈ ops → ∀ id commit,
    getByHash s.db id = some commit → node.hash ≠ id ∧ node.hash ∉ commit.parentIds
  unnamed : ∀ node parentId, .openReadWrite node parentId ∈ ops → ∀ name id,
    s.refs.branches.lookup name = some id → MerkleHash.parse id ≠ some node.hash

theorem mem_of_opens {op : RepoOp} {node : EMerkleTreeNode} (hop : op ∈ ops)
    (h : op.opens = some node) : ∃ parentId, .openReadWrite node parentId ∈ ops := by
  cases op with
  | openReadWrite node' parentId =>
      obtain rfl : node' = node := Option.some.inj h
      exact ⟨parentId, hop⟩
  | _ => cases h

/-- A store in which only the written ids have changed. -/
structure Adds (s : Repository) (ops : List RepoOp) (db : NodeStore) : Prop where
  keyed : db.Keyed
  same : ∀ id, (∀ node parentId, .openReadWrite node parentId ∈ ops → node.hash ≠ id) →
    getByHash db id = getByHash s.db id

theorem adds_run (hk : s.db.Keyed) (ops : List RepoOp) : Adds s ops (s.run ops).db where
  keyed := Keyed.run hk ops
  same id h := by
    apply getByHash_run
    intro op hop node hopens
    rcases mem_of_opens hop hopens with ⟨parentId, hmem⟩
    exact h node parentId hmem

theorem Adds.mono {ops' : List RepoOp} {db : NodeStore} (h : Adds s ops db) (hsub : ops ⊆ ops') :
    Adds s ops' db where
  keyed := h.keyed
  same id hid := h.same id fun node parentId hmem => hid node parentId (hsub hmem)

theorem keyed_update_none {db : NodeStore} (hk : db.Keyed) (hash : MerkleHash) :
    NodeStore.Keyed (Function.update db hash none) := by
  intro id commit hget
  by_cases hid : id = hash
  · rw [getByHash, hid, Function.update_self] at hget
    cases hget
  · rw [getByHash, Function.update_of_ne hid] at hget
    exact hk id commit hget

/-- A failing operation leaves the commits of before alone. -/
theorem Adds.leave {s' : Repository} {op : RepoOp} (h : Adds s ops s'.db) (hopens : OpensAll ops)
    (hop : op ∈ ops) (left : Residue) : Adds s ops (op.leave s' left).db := by
  refine ⟨?_, fun id hid => ?_⟩
  · cases op with
    | openReadWrite node parentId =>
        cases left with
        | cutNode => exact keyed_update_none h.keyed _
        | _ => exact h.keyed
    | addChild nodeId child =>
        cases left with
        | cutNode => exact keyed_update_none h.keyed _
        | _ => exact h.keyed
    | removeStagedDb => cases left <;> exact h.keyed
    | _ => exact h.keyed
  · refine (getByHash_leave left ?_).trans (h.same id hid)
    cases op with
    | openReadWrite node parentId => exact fun heq => hid node parentId hop (Option.some.inj heq)
    | addChild nodeId child =>
        rcases hopens nodeId child hop with ⟨node, parentId, hopen, rfl⟩
        exact fun heq => hid node parentId hopen (Option.some.inj heq)
    | _ => exact nofun

section

variable {db : NodeStore} (h : NewIds s ops) (hadds : Adds s ops db)

include h hadds

theorem NewIds.getByHash_stored {id : MerkleHash} (hget : getByHash s.db id = some commit) :
    getByHash db id = some commit := by
  rw [hadds.same, hget]
  exact fun node parentId hmem => (h.fresh node parentId hmem id commit hget).1

theorem NewIds.keepsCommits : KeepsCommits s.db db :=
  fun _ _ hget => ⟨_, h.getByHash_stored hadds hget, rfl⟩

theorem NewIds.parentsOf_eq (hk : s.db.Keyed) {id : MerkleHash} (hid : (getByHash s.db id).isSome) :
    y ∈ parentsOf db none id ↔ y ∈ parentsOf s.db none id := by
  rcases Option.isSome_iff_exists.mp hid with ⟨commit, hget⟩
  have hparent : ∀ parentId ∈ commit.parentIds,
      getByHash db parentId = getByHash s.db parentId := by
    intro parentId hp
    apply hadds.same
    rintro node parent hmem rfl
    exact (h.fresh node parent hmem id commit hget).2 hp
  rw [mem_parentsOf_iff hadds.keyed, mem_parentsOf_iff hk, h.getByHash_stored hadds hget, hget]
  constructor
  · rintro ⟨commit', hcommit, hy, hsome⟩
    obtain rfl := Option.some.inj hcommit
    exact ⟨commit, rfl, hy, by rwa [← hparent y hy]⟩
  · rintro ⟨commit', hcommit, hy, hsome⟩
    obtain rfl := Option.some.inj hcommit
    exact ⟨commit, rfl, hy, by rwa [hparent y hy]⟩

/-- Stored commits keep their histories. -/
theorem NewIds.reaches_iff (hk : s.db.Keyed) (hx : (getByHash s.db x).isSome) :
    Exploration.Reaches (parentsOf db none) x y ↔ Exploration.Reaches (parentsOf s.db none) x y := by
  constructor
  · intro hr
    induction hr with
    | refl => exact .refl
    | @tail y z _ hz ih =>
        have hy : (getByHash s.db y).isSome := by
          rcases Relation.ReflTransGen.cases_tail ih with rfl | ⟨w, _, hw⟩
          · exact hx
          · rcases isSome_of_parents hk hw with ⟨c, hc, -⟩
            rw [hc, Option.isSome_some]
        exact ih.tail ((h.parentsOf_eq hadds hk hy).mp hz)
  · exact (h.keepsCommits hadds).reaches hk hadds.keyed

theorem NewIds.historyOf_branch (hk : s.db.Keyed) {name : String}
    (hlookup : s.refs.branches.lookup name = some commitId) :
    x ∈ HistoryOf db commitId ↔ x ∈ HistoryOf s.db commitId := by
  have hget : getById db commitId = getById s.db commitId := by
    rw [getById, getById]
    cases hparse : MerkleHash.parse commitId with
    | none => rfl
    | some hash =>
        rw [Option.bind_some, Option.bind_some, hadds.same]
        rintro node parentId hmem rfl
        exact h.unnamed node parentId hmem name commitId hlookup hparse
  constructor
  · rintro ⟨commit, hcommit, hr⟩
    rw [hget] at hcommit
    have hstored := isStored_of_getById hk hcommit
    exact ⟨commit, hcommit, (h.reaches_iff hadds hk (Option.isSome_of_eq_some hstored)).mp hr⟩
  · rintro ⟨commit, hcommit, hr⟩
    have hstored := isStored_of_getById hk hcommit
    exact ⟨commit, hget.trans hcommit,
      (h.reaches_iff hadds hk (Option.isSome_of_eq_some hstored)).mpr hr⟩

end

/-- A commit that is written has the histories of its parents. -/
theorem NewIds.historyOf_commit (h : NewIds s ops) (hk : s.db.Keyed)
    {parentId : Option MerkleHash} {texts : List String}
    (hopen : .openReadWrite (.commit commit) parentId ∈ ops)
    (hparents : commit.parentIds = (texts.filterMap (getById s.db)).map (·.hash))
    (hx : (getByHash s.db x).isSome) :
    x ∈ HistoryOf (s.run ops).db commit.hash.display ↔
      ∃ text ∈ texts, x ∈ HistoryOf s.db text := by
  rcases exists_of_opened h.collisionFree hopen with ⟨commit', hget, hparents'⟩
  have hk' := Keyed.run hk ops
  have hhash := hk' commit.hash commit' hget
  constructor
  · rintro ⟨c, hc, hr⟩
    rw [getById_display, hget] at hc
    obtain rfl := Option.some.inj hc
    rw [hhash] at hr
    rcases Relation.ReflTransGen.cases_head hr with rfl | ⟨y, hy, hr⟩
    · -- the new commit is not among those from before
      rcases Option.isSome_iff_exists.mp hx with ⟨c, hc⟩
      exact absurd rfl (h.fresh _ _ hopen commit.hash c hc).1
    · rcases (mem_parentsOf_iff hk').mp hy with ⟨c, hc, hmem, -⟩
      rw [hget] at hc
      obtain rfl := Option.some.inj hc
      rw [hparents', hparents] at hmem
      rcases List.mem_map.mp hmem with ⟨parent, hparent, rfl⟩
      rcases List.mem_filterMap.mp hparent with ⟨text, htext, hstored⟩
      have hsome := Option.isSome_of_eq_some (isStored_of_getById hk hstored)
      exact ⟨text, htext, parent, hstored, (h.reaches_iff (adds_run hk ops) hk hsome).mp hr⟩
  · rintro ⟨text, htext, parent, hparent, hr⟩
    have hstored := isStored_of_getById hk hparent
    refine ⟨commit', by rw [getById_display, hget], ?_⟩
    rw [hhash]
    have hstep : parent.hash ∈ parentsOf (s.run ops).db none commit.hash := by
      refine (mem_parentsOf_iff hk').mpr ⟨commit', hget, ?_, ?_⟩
      · rw [hparents', hparents]
        exact List.mem_map.mpr ⟨parent, List.mem_filterMap.mpr ⟨text, htext, hparent⟩, rfl⟩
      · rw [h.getByHash_stored (adds_run hk ops) hstored, Option.isSome_some]
    exact Relation.ReflTransGen.head hstep
      ((h.reaches_iff (adds_run hk ops) hk (Option.isSome_of_eq_some hstored)).mpr hr)

/-! ## Merges -/

/-- The search for a common ancestor of two commits has a result. -/
abbrev FindsAncestor (iter : List MerkleHash → List MerkleHash) (s : Repository)
    (base merge : CommitNode) (result : Except AncestorError (Option MerkleHash)) : Prop :=
  Returns (fun fuel =>
    Merge.lowestCommonAncestorFromCommits iter s.db s.refs fuel base merge) result

/-- What a merge of two commits makes of HEAD's branch: the history that it gets, and
whether the merge also succeeds. -/
inductive Merges (env : CommitEnv) (client : Client) (s : Repository) (base merge : CommitNode) :
    Set MerkleHash → Bool → Prop
  | fastForward {staged : StagedDb} (hne : base.hash ≠ merge.hash)
      (hlca : FindsAncestor client.iter s base merge (.ok (some base.hash)))
      (hmarker : client.marker.all (· = merge.hash.display)) (hfiles : client.files = .merged staged) :
      Merges env client s base merge (HistoryOf s.db merge.hash.display) client.clearsMarker
  | threeWay {lca : Option MerkleHash} {staged : StagedDb} {texts : List String}
      {parents : List MerkleHash} (hne : base.hash ≠ merge.hash)
      (hlca : FindsAncestor client.iter s base merge (.ok lca))
      (hlca' : lca ≠ some base.hash)
      (hmarker : client.marker.all (· = merge.hash.display)) (hfiles : client.files = .merged staged)
      (hstaged : readStagedEntries staged ≠ ∅)
      (hparents : CallParents { s with staged } parents
        (some [base.hash.display, merge.hash.display]))
      (htexts : ParentTexts s [base.hash.display, merge.hash.display] texts)
      (hdone : (createMergeCommit env s base merge staged).ops.length ≤ client.failing) :
      Merges env client s base merge {id | ∃ text ∈ texts, id ∈ HistoryOf s.db text} true

theorem Merges.unique {history history' : Set MerkleHash} {done done' : Bool}
    (h : Merges env client s base merge history done)
    (h' : Merges env client s base merge history' done') : history = history' ∧ done = done' := by
  cases h with
  | fastForward hne hlca hmarker hfiles =>
      cases h' with
      | fastForward _ _ _ _ => exact ⟨rfl, rfl⟩
      | threeWay _ hlca' hne' _ _ _ _ _ _ =>
          exact absurd (Except.ok.inj (hlca'.unique hlca)) hne'
  | threeWay _ hlca hne _ _ _ _ htexts _ =>
      cases h' with
      | fastForward _ hlca' _ _ => exact absurd (Except.ok.inj (hlca.unique hlca')) hne
      | threeWay _ _ _ _ _ _ _ htexts' _ => exact ⟨by rw [htexts.unique htexts'], rfl⟩

/-- The state after a merge: nothing moved, or HEAD's branch got a new commit. -/
inductive MergeEffect (env : CommitEnv) (client : Client) (s : Repository) (base merge : CommitNode)
    (headBranch : String) : Repository → Except FetchError (Option MerkleHash) → Prop
  | kept {repo : Repository} {result : Except FetchError (Option MerkleHash)}
      (hrefs : repo.refs = s.refs) (hkeeps : KeepsCommits s.db repo.db) (hkeyed : repo.db.Keyed)
      (hhistory : ∀ id commitId, (getByHash s.db id).isSome →
        ∀ name, s.refs.branches.lookup name = some commitId →
          (id ∈ HistoryOf repo.db commitId ↔ id ∈ HistoryOf s.db commitId))
      (hresult : ∀ id, result ≠ .ok (some id))
      (hnot : ∀ history done, ¬ Merges env client s base merge history done) :
      MergeEffect env client s base merge headBranch repo result
  | moved {repo : Repository} {result : Except FetchError (Option MerkleHash)}
      {history : Set MerkleHash} {done : Bool} {id : MerkleHash}
      (hmerges : Merges env client s base merge history done)
      (hrefs : repo.refs =
        { s.refs with branches := s.refs.branches.insert headBranch id.display })
      (hkeeps : KeepsCommits s.db repo.db) (hkeyed : repo.db.Keyed)
      (hbranches : ∀ x commitId, (getByHash s.db x).isSome →
        ∀ name, s.refs.branches.lookup name = some commitId →
          (x ∈ HistoryOf repo.db commitId ↔ x ∈ HistoryOf s.db commitId))
      (hhistory : ∀ x, (getByHash s.db x).isSome →
        (x ∈ HistoryOf repo.db id.display ↔ x ∈ history))
      (hstored : (getById repo.db id.display).isSome)
      (hdone : done = true → result = .ok (some id))
      (hfailed : done = false → ∃ e, result = .error e) :
      MergeEffect env client s base merge headBranch repo result

theorem fastForwardMerge_effect {headBranch : String} (hk : s.db.Keyed)
    (hfile : s.refs.headFile = some headBranch) (hbranch : headBranch ∈ s.refs.branches)
    (hne : base.hash ≠ merge.hash) (hmerge : IsStored s.db merge)
    (hlca : FindsAncestor client.iter s base merge (.ok (some base.hash)))
    (hmarker : client.marker.all (· = merge.hash.display)) :
    MergeEffect env client s base merge headBranch (ClientMerge.fastForwardMerge s base merge client).1
      (ClientMerge.fastForwardMerge s base merge client).2 := by
  have hnot : (∀ staged, client.files ≠ .merged staged) →
      ∀ history done, ¬ Merges env client s base merge history done := by
    rintro hfiles history done (⟨_, _, _, hmerged⟩ | ⟨_, _, _, _, hmerged⟩)
    · exact hfiles _ hmerged
    · exact hfiles _ hmerged
  rw [ClientMerge.fastForwardMerge, if_neg hne]
  cases hfiles : client.files with
  | failed =>
      exact .kept rfl .refl hk (fun _ _ _ _ _ => Iff.rfl) (by simp) (hnot (by simp [hfiles]))
  | conflicts =>
      exact .kept rfl .refl hk (fun _ _ _ _ _ => Iff.rfl) (by simp) (hnot (by simp [hfiles]))
  | merged staged =>
      refine .moved (.fastForward hne hlca hmarker hfiles) ?_ .refl hk (fun _ _ _ _ _ => Iff.rfl)
        (fun _ _ => Iff.rfl) ?_ ?_ ?_
      · simp only [setHeadCommitId, hfile, if_pos hbranch]
      · rw [IsStored] at hmerge
        rw [getById_display, hmerge, Option.isSome_some]
      · intro hdone
        simp [hdone]
      · intro hdone
        simp [hdone]

theorem NewIds.kept {staged : StagedDb} {headBranch : String} {repo : Repository}
    {result : Except FetchError (Option MerkleHash)} (h : NewIds { s with staged } ops)
    (hadds : Adds { s with staged } ops repo.db) (hk : s.db.Keyed) (hrefs : repo.refs = s.refs)
    (hresult : ∀ id, result ≠ .ok (some id))
    (hnot : ∀ history done, ¬ Merges env client s base merge history done) :
    MergeEffect env client s base merge headBranch repo result := by
  refine .kept hrefs (h.keepsCommits hadds) hadds.keyed ?_ hresult hnot
  intro id commitId _ name hlookup
  exact h.historyOf_branch hadds hk hlookup

/-- An operation that fails before the refs are set leaves a part of its effect. -/
theorem NewIds.kept_of_failing {staged : StagedDb} {headBranch : String} {op : RepoOp} {n : ℕ}
    (h : NewIds { s with staged } ops) (hopens : OpensAll ops) (hop : ops[n]? = some op)
    (hk : s.db.Keyed) (hrefs : ∀ op ∈ ops.take n, op.keepsRefs = true)
    (hnot : ∀ history done, ¬ Merges env client s base merge history done) (left : Residue)
    (e : FetchError) :
    MergeEffect env client s base merge headBranch
      (op.leave (({ s with staged } : Repository).run (ops.take n)) left) (.error e) := by
  have hadds := (adds_run (s := { s with staged }) hk (ops.take n)).mono (List.take_subset _ _)
  refine h.kept (hadds.leave hopens (List.mem_of_getElem? hop) left) hk ?_
    (fun id hok => by cases hok) hnot
  rw [(sameRest_leave _ _ _).1, Repository.refs_run hrefs]

/-- Only a commit that is made moves refs. -/
theorem keepsRefs_commitWithCfg {given : List String} (hk : s.db.Keyed)
    (h : ∀ commit, (commitWithCfg env s (some given)).result ≠ .ok commit) :
    ∀ op ∈ (commitWithCfg env s (some given)).ops, op.keepsRefs = true := by
  intro op hop
  simp only [commitWithCfg] at h hop
  split at hop
  · simp at hop
  · next hstaged =>
    rw [if_neg hstaged] at h
    have hplan := commitDirEntriesWithParents_plan env given (readStagedEntries s.staged)
      ((currentBranch s.refs).getD defaultBranchName) hk
    split at hop
    · exact hplan.keepsRefs op hop
    · next commit hresult =>
      rw [hresult] at h
      exact absurd rfl (h commit)

theorem ops_callPlan {tree : List RepoOp} {plan : Plan} {headBranch : String}
    (h : CallPlan s plan commit tree) (hfile : s.refs.headFile = some headBranch)
    (hbranch : headBranch ∈ s.refs.branches) :
    plan.ops = (cleanupOps s ++ tree ++ [.removeStagedDb]) ++
      [.setBranchCommitId headBranch commit.hash.display] := by
  rw [h.ops, updateRefs, hfile]
  simp only [if_pos hbranch, List.append_assoc, List.cons_append, List.nil_append]

theorem keepsRefs_callPlan {tree : List RepoOp} {plan : Plan} (h : CallPlan s plan commit tree) :
    ∀ op ∈ cleanupOps s ++ tree ++ [.removeStagedDb], op.keepsRefs = true := by
  intro op hop
  rcases List.mem_append.mp hop with hop | hop
  · rcases List.mem_append.mp hop with hop | hop
    · rw [cleanupOps] at hop
      split at hop
      · simp only [List.mem_cons, List.not_mem_nil, or_false] at hop
        rcases hop with rfl | rfl <;> rfl
      · simp at hop
    · exact RepoOp.keepsRefs_of_writesTree (h.writesTree op hop)
  · rw [List.mem_singleton.mp hop]
    rfl

/-- A commit that fails leaves the refs alone: they come last. -/
theorem keepsRefs_take {tree : List RepoOp} {plan : Plan} {headBranch : String} {n : ℕ}
    (h : CallPlan s plan commit tree) (hfile : s.refs.headFile = some headBranch)
    (hbranch : headBranch ∈ s.refs.branches) (hn : n < plan.ops.length) :
    ∀ op ∈ plan.ops.take n, op.keepsRefs = true := by
  have hops := ops_callPlan h hfile hbranch
  intro op hop
  rw [hops, List.take_append_of_le_length] at hop
  · exact keepsRefs_callPlan h op (List.mem_of_mem_take hop)
  · rw [hops, List.length_append, List.length_singleton] at hn
    omega

theorem refs_run_callPlan {tree : List RepoOp} {plan : Plan} {headBranch : String}
    (h : CallPlan s plan commit tree) (hfile : s.refs.headFile = some headBranch)
    (hbranch : headBranch ∈ s.refs.branches) :
    (s.run plan.ops).refs =
      { s.refs with branches := s.refs.branches.insert headBranch commit.hash.display } := by
  rw [ops_callPlan h hfile hbranch, Repository.run_append]
  change (RepoOp.apply (s.run (cleanupOps s ++ tree ++ [.removeStagedDb]))
    (.setBranchCommitId headBranch commit.hash.display)).refs = _
  rw [RepoOp.apply]
  simp only
  rw [Repository.refs_run (keepsRefs_callPlan h)]

theorem threeWayMerge_effect {headBranch : String} {lca : Option MerkleHash} (hk : s.db.Keyed)
    (hfile : s.refs.headFile = some headBranch) (hbranch : headBranch ∈ s.refs.branches)
    (hne : base.hash ≠ merge.hash)
    (hlca : FindsAncestor client.iter s base merge (.ok lca))
    (hlca' : lca ≠ some base.hash) (hmarker : client.marker.all (· = merge.hash.display))
    (hnew : ∀ staged, client.files = .merged staged →
      NewIds { s with staged } (createMergeCommit env s base merge staged).ops) :
    MergeEffect env client s base merge headBranch (threeWayMerge env s base merge client).1
      (threeWayMerge env s base merge client).2 := by
  have hnot : (∀ staged, client.files ≠ .merged staged) →
      ∀ history done, ¬ Merges env client s base merge history done := by
    rintro hfiles history done (⟨_, _, _, hmerged⟩ | ⟨_, _, _, _, hmerged⟩)
    · exact hfiles _ hmerged
    · exact hfiles _ hmerged
  rw [threeWayMerge]
  cases hfiles : client.files with
  | failed =>
      exact .kept rfl .refl hk (fun _ _ _ _ _ => Iff.rfl) (by simp) (hnot (by simp [hfiles]))
  | conflicts =>
      exact .kept rfl .refl hk (fun _ _ _ _ _ => Iff.rfl) (by simp) (hnot (by simp [hfiles]))
  | merged staged =>
      dsimp only
      have hids := hnew staged hfiles
      have hopens : OpensAll (createMergeCommit env s base merge staged).ops :=
        opensAll_commitWithCfg _ _ _
      generalize hplan : createMergeCommit env s base merge staged = plan at hids hopens
      have hdone : ∀ history done, Merges env client s base merge history done →
          (∃ commit, plan.result = .ok commit) ∧ plan.ops.length ≤ client.failing := by
        intro history done hmerges
        cases hmerges with
        | fastForward _ hlca'' _ _ => exact absurd (Except.ok.inj (hlca.unique hlca'')) hlca'
        | threeWay _ _ _ _ hfiles' hstaged hparents _ hlength =>
            rw [hfiles] at hfiles'
            obtain rfl := FilesOutcome.merged.inj hfiles'
            rw [hplan] at hlength
            rcases commitWithCfg_plan _ hstaged hparents with ⟨commit, tree, hcall, -⟩
            rw [createMergeCommit] at hplan
            rw [hplan] at hcall
            exact ⟨⟨commit, hcall.result⟩, hlength⟩
      by_cases hresult : ∃ commit, plan.result = .ok commit
      · rcases hresult with ⟨commit, hresult⟩
        have hok := hplan ▸ hresult
        rw [createMergeCommit] at hok
        rcases callParents_of_ok hok with ⟨hstaged, hparents, tree, hcall⟩
        rw [← createMergeCommit, hplan] at hcall
        by_cases hfailing : client.failing < plan.ops.length
        · have hop := List.getElem?_eq_getElem hfailing
          rw [Plan.carryOut, hop]
          have hrefs := keepsRefs_take hcall hfile hbranch hfailing
          refine hids.kept_of_failing hopens hop hk hrefs ?_ client.left _
          intro history done hmerges
          have hlength := (hdone history done hmerges).2
          omega
        · have hnone : plan.ops[client.failing]? = none := List.getElem?_eq_none (by omega)
          rw [Plan.carryOut, hnone, hresult]
          rcases hparents with ⟨onto, headCommit, texts, honto, hhead, htexts, heq⟩
          have htexts' : ParentTexts s [base.hash.display, merge.hash.display] texts := by
            cases htexts with
            | given hmerge => exact .given hmerge
            | merge hmerge horig => exact .merge hmerge horig
          rcases hcall.opened with ⟨parentId, hopen⟩
          have hopen' : .openReadWrite (.commit commit) parentId ∈ plan.ops := by
            rw [hcall.ops]
            exact List.mem_append_left _ (List.mem_append_right _ hopen)
          have hmerges : Merges env client s base merge
              {id | ∃ text ∈ texts, id ∈ HistoryOf s.db text} true := by
            refine .threeWay hne hlca hlca' hmarker hfiles hstaged
              ⟨onto, headCommit, texts, honto, hhead, htexts, heq⟩ htexts' ?_
            rw [hplan]
            omega
          have hkeyed := @Keyed.run { s with staged } hk plan.ops
          refine .moved hmerges (refs_run_callPlan hcall hfile hbranch)
            hids.collisionFree.keepsCommits hkeyed ?_ ?_ ?_ ?_ ?_
          · exact fun x commitId _ name hlookup =>
              hids.historyOf_branch (adds_run (s := { s with staged }) hk plan.ops) hk hlookup
          · exact fun x hx => hids.historyOf_commit hk hopen' heq hx
          · rcases exists_of_opened hids.collisionFree hopen' with ⟨commit', hget, -⟩
            rw [getById_display, hget, Option.isSome_some]
          · exact fun _ => rfl
          · simp
      · have herror : ∀ commit, plan.result ≠ .ok commit := fun commit h => hresult ⟨commit, h⟩
        have hrefs : ∀ op ∈ plan.ops, op.keepsRefs = true := by
          rw [← hplan, createMergeCommit] at herror ⊢
          exact keepsRefs_commitWithCfg hk herror
        have hkept : ∀ history done, ¬ Merges env client s base merge history done :=
          fun history done hmerges => hresult (hdone history done hmerges).1
        cases hplanResult : plan.result with
        | ok commit => exact absurd hplanResult (herror commit)
        | error e =>
            rw [Plan.carryOut, hplanResult]
            cases hop : plan.ops[client.failing]? with
            | some op =>
                have htaken : ∀ op ∈ plan.ops.take client.failing, op.keepsRefs = true :=
                  fun op hop => hrefs op (List.mem_of_mem_take hop)
                exact hids.kept_of_failing hopens hop hk htaken hkept client.left _
            | none =>
                refine hids.kept (adds_run (s := { s with staged }) hk plan.ops) hk ?_
                  (fun id hok => by cases hok) hkept
                rw [Repository.refs_run hrefs]

end Oxen
