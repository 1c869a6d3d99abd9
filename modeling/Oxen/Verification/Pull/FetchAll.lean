import Oxen.Verification.Pull.Histories

/-! The branches that a fetch sets. With a HEAD commit these are the local branches
that the remote has at this commit, and those that are created. -/

namespace Oxen

open Commits Fetch KeyedMap

variable {s : Repository} {remoteMode : Bool} {opts : FetchOpts} {answer : FetchAnswer}
  {head head' : CommitNode} {name commitId : String}

/-! ## The fetch of one branch -/

/-- The nodes after a fetch, however it ends. -/
def FetchAnswer.store (answer : FetchAnswer) (head : Option CommitNode) (opts : FetchOpts)
    (db : NodeStore) : NodeStore :=
  match answer.commitId with
  | .ok (some commitId) =>
      if skipsTrees head opts commitId then db else TreeNodes.unpackNodes db answer.archive
  | _ => db

theorem skipsTrees_of_isUpToDate {head : Option CommitNode}
    (h : isUpToDate head opts commitId = true) : skipsTrees head opts commitId = true := by
  simp only [isUpToDate, skipsTrees, Bool.and_eq_true] at h ⊢
  exact ⟨h.1.1, h.2⟩

theorem refs_updateBranch (s : Repository) (name commitId : String) :
    (Fetch.updateBranch s name commitId).1.db = s.db ∧
      (Fetch.updateBranch s name commitId).1.refs =
        match Branches.update s.db s.refs name commitId with
        | .ok refs => refs
        | .error _ => s.refs := by
  rw [Fetch.updateBranch]
  cases Branches.update s.db s.refs name commitId <;> exact ⟨rfl, rfl⟩

theorem db_fetchCommit {head : Option CommitNode} :
    (fetchCommit remoteMode s head opts commitId answer).1.db =
      if skipsTrees head opts commitId then s.db
      else TreeNodes.unpackNodes s.db answer.archive := by
  have hsynced : (if skipsTrees head opts commitId then s else syncTrees s answer).db =
      if skipsTrees head opts commitId then s.db
      else TreeNodes.unpackNodes s.db answer.archive := by
    split <;> rfl
  rw [← hsynced, fetchCommit]
  split
  · rfl
  split
  · rfl
  · split
    · exact (refs_updateBranch _ _ _).1
    · rfl

theorem refs_fetchCommit {head : Option CommitNode} (hopts : opts.shouldUpdateBranchHead = false) :
    (fetchCommit remoteMode s head opts commitId answer).1.refs = s.refs := by
  have hsynced : (if skipsTrees head opts commitId then s else syncTrees s answer).refs =
      s.refs := by
    split <;> rfl
  rw [fetchCommit]
  split
  · exact hsynced
  split
  · exact hsynced
  · rw [hopts]
    exact hsynced

theorem db_fetchRemoteBranch {head : Option CommitNode}
    (hhead : headCommitMaybe s.db s.refs = .ok head) :
    (fetchRemoteBranch remoteMode s opts answer).1.db = answer.store head opts s.db := by
  rw [fetchRemoteBranch, FetchAnswer.store]
  rcases answer.commitId with e | _ | commitId
  · rfl
  · rfl
  · simp only [hhead]
    split
    · next hup => rw [if_pos (skipsTrees_of_isUpToDate hup)]; rfl
    · exact db_fetchCommit

/-- A fetch that is not to set its branch does so when the remote has it at HEAD's
commit. -/
theorem refs_fetchRemoteBranch {head : Option CommitNode}
    (hhead : headCommitMaybe s.db s.refs = .ok head) (hopts : opts.shouldUpdateBranchHead = false) :
    (fetchRemoteBranch remoteMode s opts answer).1.refs =
      match answer.commitId with
      | .ok (some commitId) =>
          if isUpToDate head opts commitId then
            { s.refs with branches := s.refs.branches.insert opts.branch commitId }
          else s.refs
      | _ => s.refs := by
  rw [fetchRemoteBranch]
  rcases answer.commitId with e | _ | commitId
  · rfl
  · rfl
  · simp only [hhead]
    split
    · rfl
    · exact refs_fetchCommit hopts

theorem store_keeps {head : Option CommitNode} {db : NodeStore} (hk : db.Keyed) :
    KeepsCommits db (answer.store head opts db) ∧ (answer.store head opts db).Keyed := by
  rw [FetchAnswer.store]
  split
  · split
    · exact ⟨.refl, hk⟩
    · exact unpackNodes_keeps hk answer.keyed
  · exact ⟨.refl, hk⟩

/-! ## The fetch of all branches -/

/-- The commit that a fetch with the default options sets its branch to. A branch that
is not at HEAD's commit is only created, once its commit is there. -/
def FetchAnswer.sets (answer : FetchAnswer) (remoteMode : Bool) (head : CommitNode)
    (db : NodeStore) (name : String) (create : Bool) : Option String :=
  match answer.commitId with
  | .ok (some commitId) =>
      if isHead (some head) commitId then some commitId
      else if create ∧ answer.treesSynced ∧
          (pullEntries remoteMode db {} commitId answer).isOk ∧
          (getById db commitId).isSome ∧ Branches.isInvalidBranchName name = false then some commitId
      else none
  | _ => none

/-- The branches that a fetch of all branches sets, in this order. -/
def fetchWrites (remoteMode : Bool) (head : CommitNode) (answer : String → FetchAnswer) :
    NodeStore → List (Branch × Bool) → List (String × String)
  | _, [] => []
  | db, (branch, create) :: rest =>
      let fetched := (answer branch.name).store (some head) {} db
      ((answer branch.name).sets remoteMode head fetched branch.name create).toList.map
          (branch.name, ·) ++
        fetchWrites remoteMode head answer fetched rest

theorem refs_update_of_notMem {db : NodeStore} {refs : Refs} (h : name ∉ refs.branches) :
    (match Branches.update db refs name commitId with
      | .ok refs => refs
      | .error _ => refs) =
      if (getById db commitId).isSome ∧ Branches.isInvalidBranchName name = false then
        { refs with branches := refs.branches.insert name commitId }
      else refs := by
  rw [Branches.update, Branches.checkCreate, if_neg h, if_neg h]
  cases hget : getById db commitId with
  | none => rfl
  | some commit =>
      cases hname : Branches.isInvalidBranchName name <;> rfl

/-- What a fetch that may create its branch does to the branches. -/
theorem refs_fetchRemoteBranch_create (hhead : headCommitMaybe s.db s.refs = .ok (some head))
    (hname : name ∉ s.refs.branches) :
    (fetchRemoteBranch remoteMode s { branch := name, shouldUpdateBranchHead := true }
        answer).1.refs =
      match answer.sets remoteMode head (answer.store (some head) {} s.db) name true with
      | some commitId => { s.refs with branches := s.refs.branches.insert name commitId }
      | none => s.refs := by
  rw [fetchRemoteBranch, FetchAnswer.sets, FetchAnswer.store]
  rcases answer.commitId with e | _ | commitId
  · rfl
  · rfl
  · have hup : isUpToDate (some head) { branch := name, shouldUpdateBranchHead := true } commitId =
        isHead (some head) commitId := by
      simp [isUpToDate]
    have hskip : skipsTrees (some head) { branch := name, shouldUpdateBranchHead := true } commitId =
        isHead (some head) commitId := by
      simp [skipsTrees]
    have hskip' : skipsTrees (some head) {} commitId = isHead (some head) commitId := by
      simp [skipsTrees]
    have hentries : ∀ db, pullEntries remoteMode db
        { branch := name, shouldUpdateBranchHead := true } commitId answer =
          pullEntries remoteMode db {} commitId answer := fun _ => rfl
    simp only [hhead, hup, hskip']
    cases hishead : isHead (some head) commitId with
    | true => rfl
    | false =>
        have hsynced : (syncTrees s answer).db = TreeNodes.unpackNodes s.db answer.archive := rfl
        simp only [Bool.false_eq_true, if_false, fetchCommit, hskip, hishead, Bool.not_false,
          Bool.true_and, hentries, hsynced, true_and]
        cases answer.treesSynced with
        | false => simp [syncTrees]
        | true =>
            cases pullEntries remoteMode (TreeNodes.unpackNodes s.db answer.archive) {} commitId
                answer with
            | error e => simp [syncTrees, Except.isOk, Except.toBool]
            | ok u =>
                simp only [Bool.not_true, Bool.false_eq_true, if_false, Except.isOk, Except.toBool,
                  if_true, true_and]
                rw [(refs_updateBranch _ _ _).2]
                have hupdate := @refs_update_of_notMem name commitId
                  (TreeNodes.unpackNodes s.db answer.archive) s.refs hname
                refine Eq.trans hupdate ?_
                split <;> rfl

/-- The state of a fetch of all branches that started at HEAD's commit. -/
structure Fetching (s : Repository) (head : CommitNode) (writes : List (String × String))
    (repo : Repository) : Prop where
  keyed : repo.db.Keyed
  keeps : KeepsCommits s.db repo.db
  headFile : repo.refs.headFile = s.refs.headFile
  branches : repo.refs.branches = insertAll s.refs.branches writes
  atHead : ∀ write ∈ writes, write.1 ∈ s.refs.branches → write.2 = head.hash.display

theorem headCommitMaybe_eq_some_iff {db : NodeStore} {refs : Refs} :
    headCommitMaybe db refs = .ok (some head) ↔
      ∃ commitId, refs.headCommitId db = some commitId ∧ getById db commitId = some head := by
  rw [headCommitMaybe]
  cases refs.headCommitId db with
  | none => simp
  | some commitId =>
      cases hparse : MerkleHash.parse commitId <;> simp [getById, hparse]

/-- HEAD stays at its commit while its branch is set to nothing else. -/
theorem Fetching.headCommit {writes : List (String × String)} {repo : Repository}
    (h : Fetching s head writes repo) (hk : s.db.Keyed) (hs : OnBranch s)
    (hhead : headCommitMaybe s.db s.refs = .ok (some head)) :
    ∃ head', headCommitMaybe repo.db repo.refs = .ok (some head') ∧ head'.hash = head.hash := by
  rcases headCommitMaybe_eq_some_iff.mp hhead with ⟨commitId, hid, hget⟩
  rw [headCommitId_of_named hs.named, Option.bind_eq_some_iff] at hid
  rcases hid with ⟨name, hfile, hlookup⟩
  have hhash : ∀ hash : MerkleHash, getByHash s.db hash = some head → ∃ head',
      getByHash repo.db hash = some head' ∧ head'.hash = head.hash := by
    intro hash hcommit
    rcases h.keeps hash head hcommit with ⟨head', hget', -⟩
    exact ⟨head', hget', (h.keyed hash head' hget').trans (hk hash head hcommit).symm⟩
  have hmem : name ∈ s.refs.branches := AList.lookup_isSome.mp (Option.isSome_of_eq_some hlookup)
  have hnew : ∃ commitId' head', repo.refs.branches.lookup name = some commitId' ∧
      getById repo.db commitId' = some head' ∧ head'.hash = head.hash := by
    rw [getById, Option.bind_eq_some_iff] at hget
    rcases hget with ⟨hash, hparse, hget⟩
    rw [h.branches, lookup_insertAll]
    cases hwrite : (insertAll ∅ writes).lookup name with
    | none =>
        rcases hhash hash hget with ⟨head', hget', heq⟩
        refine ⟨commitId, head', hlookup, ?_, heq⟩
        rw [getById, hparse, Option.bind_some, hget']
    | some written =>
        rcases mem_of_lookup_insertAll hwrite with hnone | hwritten
        · simp at hnone
        · have hdisplay : written = head.hash.display := h.atHead (name, written) hwritten hmem
          have hself : getByHash s.db head.hash = some head := by rw [hk hash head hget, hget]
          rcases hhash head.hash hself with ⟨head', hget', heq⟩
          refine ⟨written, head', rfl, ?_, heq⟩
          rw [hdisplay, getById_display, hget']
  rcases hnew with ⟨commitId', head', hlookup', hget', heq⟩
  refine ⟨head', headCommitMaybe_eq_some_iff.mpr ⟨commitId', ?_, hget'⟩, heq⟩
  rw [Refs.headCommitId, h.headFile, hfile, Option.bind_some, hlookup']

theorem isHead_congr (h : head'.hash = head.hash) :
    isHead (some head') commitId = isHead (some head) commitId := by
  simp [isHead, h]

theorem FetchAnswer.store_congr (h : head'.hash = head.hash) (db : NodeStore) :
    answer.store (some head') opts db = answer.store (some head) opts db := by
  simp [FetchAnswer.store, skipsTrees, isHead_congr h]

theorem FetchAnswer.sets_congr (h : head'.hash = head.hash) (db : NodeStore) (create : Bool) :
    answer.sets remoteMode head' db name create = answer.sets remoteMode head db name create := by
  simp [FetchAnswer.sets, isHead_congr h]

/-- What the fetch of one branch writes. -/
theorem refs_fetchNext {create : Bool} (hhead : headCommitMaybe s.db s.refs = .ok (some head))
    (hcreate : create = true → name ∉ s.refs.branches) :
    (fetchRemoteBranch remoteMode s { branch := name, shouldUpdateBranchHead := create }
        answer).1.refs =
      match answer.sets remoteMode head (answer.store (some head) {} s.db) name create with
      | some commitId => { s.refs with branches := s.refs.branches.insert name commitId }
      | none => s.refs := by
  cases create with
  | true => exact refs_fetchRemoteBranch_create hhead (hcreate rfl)
  | false =>
      rw [refs_fetchRemoteBranch hhead rfl, FetchAnswer.sets]
      rcases answer.commitId with e | _ | commitId
      · rfl
      · rfl
      · cases hishead : isHead (some head) commitId <;> simp [isUpToDate, hishead]

theorem Fetching.step {writes : List (String × String)} {repo : Repository} {branch : Branch}
    {create : Bool} {answers : String → FetchAnswer} {results : List (Except FetchError Branch)}
    (h : Fetching s head writes repo) (hk : s.db.Keyed) (hs : OnBranch s)
    (hhead : headCommitMaybe s.db s.refs = .ok (some head))
    (hlocal : create = false → branch.name ∈ s.refs.branches)
    (hcreate : create = true →
      branch.name ∉ s.refs.branches ∧ branch.name ∉ writes.map Prod.fst) :
    let fetched := (answers branch.name).store (some head) {} repo.db
    (fetchNext remoteMode {} answers (repo, results) (branch, create)).1.db = fetched ∧
      Fetching s head
        (writes ++ ((answers branch.name).sets remoteMode head fetched branch.name create).toList.map
          (branch.name, ·))
        (fetchNext remoteMode {} answers (repo, results) (branch, create)).1 := by
  rcases h.headCommit hk hs hhead with ⟨head', hhead', hhash⟩
  have hnew : create = true → branch.name ∉ repo.refs.branches := by
    intro hc
    rw [h.branches, mem_insertAll]
    rintro (hmem | hmem)
    · exact (hcreate hc).1 hmem
    · exact (hcreate hc).2 hmem
  have hdb := @db_fetchRemoteBranch repo remoteMode
    { branch := branch.name, shouldUpdateBranchHead := create } (answers branch.name) _ hhead'
  have hrefs := @refs_fetchNext repo remoteMode (answers branch.name) head' branch.name create
    hhead' hnew
  rw [FetchAnswer.store_congr hhash, FetchAnswer.sets_congr hhash] at hrefs
  have hdb' : (fetchNext remoteMode {} answers (repo, results) (branch, create)).1.db =
      (answers branch.name).store (some head) {} repo.db := by
    rw [FetchAnswer.store_congr hhash] at hdb
    exact hdb
  refine ⟨hdb', ?_⟩
  have hstore := @store_keeps {} (answers branch.name) (some head) repo.db h.keyed
  have hkept : ∀ fetched : Repository, fetched.db = (answers branch.name).store (some head) {} repo.db →
      KeepsCommits s.db fetched.db ∧ fetched.db.Keyed := by
    intro fetched hfetched
    rw [hfetched]
    exact ⟨h.keeps.trans hstore.1, hstore.2⟩
  change (fetchNext remoteMode {} answers (repo, results) (branch, create)).1.refs = _ at hrefs
  rcases hkept _ hdb' with ⟨hkeeps, hkeyed⟩
  cases hsets : (answers branch.name).sets remoteMode head
      ((answers branch.name).store (some head) {} repo.db) branch.name create with
  | none =>
      rw [hsets] at hrefs
      refine ⟨hkeyed, hkeeps, ?_, ?_, ?_⟩
      · rw [hrefs]; exact h.headFile
      · rw [hrefs]; simpa using h.branches
      · simpa using h.atHead
  | some commitId =>
      rw [hsets] at hrefs
      refine ⟨hkeyed, hkeeps, ?_, ?_, ?_⟩
      · rw [hrefs]; exact h.headFile
      · rw [hrefs, insertAll_append]
        simp [insertAll, h.branches]
      · intro write hmem hwrite
        rcases List.mem_append.mp hmem with hmem | hmem
        · exact h.atHead write hmem hwrite
        · obtain rfl : write = (branch.name, commitId) := by simpa using hmem
          -- a branch that is not created is set to HEAD's commit only
          have hfalse : create = false := by
            cases create with
            | false => rfl
            | true => exact absurd hwrite (hcreate rfl).1
          rw [hfalse, FetchAnswer.sets] at hsets
          split at hsets
          · split at hsets
            · next hishead =>
              rw [← Option.some.inj hsets]
              simp only [isHead, Option.any_some, decide_eq_true_eq] at hishead
              exact hishead.symm
            · simp at hsets
          · cases hsets

def fetchStore (head : CommitNode) (answers : String → FetchAnswer) (db : NodeStore)
    (nexts : List (Branch × Bool)) : NodeStore :=
  nexts.foldl (fun db next => (answers next.1.name).store (some head) {} db) db

theorem Fetching.run {writes : List (String × String)} {repo : Repository}
    {answers : String → FetchAnswer} {results : List (Except FetchError Branch)}
    {nexts : List (Branch × Bool)} (h : Fetching s head writes repo) (hk : s.db.Keyed)
    (hs : OnBranch s) (hhead : headCommitMaybe s.db s.refs = .ok (some head))
    (hlocal : ∀ next ∈ nexts, next.2 = false → next.1.name ∈ s.refs.branches)
    (hcreate : ∀ next ∈ nexts, next.2 = true →
      next.1.name ∉ s.refs.branches ∧ next.1.name ∉ writes.map Prod.fst)
    (hnodup : (nexts.map fun next => next.1.name).Nodup) :
    (nexts.foldl (fetchNext remoteMode {} answers) (repo, results)).1.db =
        fetchStore head answers repo.db nexts ∧
      Fetching s head (writes ++ fetchWrites remoteMode head answers repo.db nexts)
        (nexts.foldl (fetchNext remoteMode {} answers) (repo, results)).1 := by
  induction nexts generalizing writes repo results with
  | nil => exact ⟨rfl, by simpa [fetchWrites] using h⟩
  | cons next nexts ih =>
      rcases next with ⟨branch, create⟩
      rw [List.map_cons, List.nodup_cons] at hnodup
      have hnext := @Fetching.step s remoteMode head writes repo branch create answers results h hk hs
        hhead (hlocal _ List.mem_cons_self) (hcreate _ List.mem_cons_self)
      rcases hnext with ⟨hdb, hstep⟩
      have hrest : ∀ next ∈ nexts, next.2 = true → next.1.name ∉ s.refs.branches ∧
          next.1.name ∉ (writes ++ ((answers branch.name).sets remoteMode head
            ((answers branch.name).store (some head) {} repo.db) branch.name create).toList.map
              (branch.name, ·)).map Prod.fst := by
        intro next hnext htrue
        rcases hcreate next (List.mem_cons_of_mem _ hnext) htrue with ⟨hnew, hwrites⟩
        refine ⟨hnew, ?_⟩
        rw [List.map_append, List.mem_append, not_or]
        refine ⟨hwrites, ?_⟩
        intro hmem
        have hname : next.1.name = branch.name := by
          simp only [List.map_map, List.mem_map, Function.comp_apply] at hmem
          rcases hmem with ⟨_, _, hname⟩
          exact hname.symm
        exact hnodup.1 (hname ▸ List.mem_map_of_mem hnext)
      rcases ih hstep (fun next hnext => hlocal next (List.mem_cons_of_mem _ hnext)) hrest
        hnodup.2 with ⟨hdb', hrun⟩
      rw [hdb] at hdb' hrun
      refine ⟨hdb', ?_⟩
      rw [fetchWrites, ← List.append_assoc]
      exact hrun

theorem fetchRemoteBranch_keeps (hk : s.db.Keyed) :
    KeepsCommits s.db (fetchRemoteBranch remoteMode s opts answer).1.db ∧
      (fetchRemoteBranch remoteMode s opts answer).1.db.Keyed := by
  cases hhead : headCommitMaybe s.db s.refs with
  | ok head =>
      rw [db_fetchRemoteBranch hhead]
      exact store_keeps hk
  | error e =>
      have hsame : (fetchRemoteBranch remoteMode s opts answer).1 = s := by
        rw [fetchRemoteBranch]
        rcases answer.commitId with e | _ | commitId
        · rfl
        · rfl
        · simp only [hhead]
      rw [hsame]
      exact ⟨.refl, hk⟩

/-- A fetch sets no branch but its own. -/
theorem refs_fetchRemoteBranch_own :
    (fetchRemoteBranch remoteMode s opts answer).1.refs = s.refs ∨
      ∃ commitId, (fetchRemoteBranch remoteMode s opts answer).1.refs =
        { s.refs with branches := s.refs.branches.insert opts.branch commitId } := by
  have hupdate : ∀ repo commitId, repo.refs = s.refs →
      (Fetch.updateBranch repo opts.branch commitId).1.refs = s.refs ∨
        ∃ commitId', (Fetch.updateBranch repo opts.branch commitId).1.refs =
          { s.refs with branches := s.refs.branches.insert opts.branch commitId' } := by
    intro repo commitId hrepo
    rw [(refs_updateBranch repo opts.branch commitId).2]
    split
    · next refs hrefs =>
      rw [Branches.update_ok hrefs, hrepo]
      exact .inr ⟨commitId, rfl⟩
    · exact .inl hrepo
  rw [fetchRemoteBranch]
  rcases answer.commitId with e | _ | commitId
  · exact .inl rfl
  · exact .inl rfl
  · dsimp only
    split
    · exact .inl rfl
    split
    · exact .inr ⟨commitId, rfl⟩
    · next head _ _ =>
      have hsynced : (if skipsTrees head opts commitId then s else syncTrees s answer).refs =
          s.refs := by
        split <;> rfl
      rw [fetchCommit]
      split
      · exact .inl hsynced
      split
      · exact .inl hsynced
      split
      · exact hupdate _ _ hsynced
      · exact .inl hsynced

/-! ## Without a HEAD commit -/

/-- The state of a fetch that left every local branch where it was. -/
structure Quiet (s repo : Repository) : Prop where
  keyed : repo.db.Keyed
  keeps : KeepsCommits s.db repo.db
  headFile : repo.refs.headFile = s.refs.headFile
  lookup : ∀ name ∈ s.refs.branches, repo.refs.branches.lookup name = s.refs.branches.lookup name

theorem Quiet.refl (hk : s.db.Keyed) : Quiet s s :=
  ⟨hk, .refl, rfl, fun _ _ => rfl⟩

theorem Quiet.subset {repo : Repository} (h : Quiet s repo) (hk : s.db.Keyed) (hs : OnBranch s) :
    LocalCommits s ⊆ LocalCommits repo := by
  intro id hid
  rcases (mem_localCommits_iff hs.named).mp hid with ⟨name, commitId, hlookup, hx⟩
  have hmem : name ∈ s.refs.branches := AList.lookup_isSome.mp (Option.isSome_of_eq_some hlookup)
  exact .inl ⟨name, commitId, (h.lookup name hmem).trans hlookup, historyOf_mono h.keeps hk h.keyed hx⟩

theorem headCommitMaybe_of_unborn {db : NodeStore} (hs : OnBranch s)
    (hhead : ∀ head, headCommitMaybe s.db s.refs ≠ .ok (some head)) :
    headCommitMaybe db s.refs = .ok none := by
  have hnone : s.refs.headFile.bind (fun name => s.refs.branches.lookup name) = none := by
    rw [Option.bind_eq_none_iff]
    intro name hfile
    rw [Option.eq_none_iff_forall_ne_some]
    intro commitId hlookup
    rcases Option.isSome_iff_exists.mp (hs.stored name commitId hfile hlookup) with ⟨head, hget⟩
    apply hhead head
    refine headCommitMaybe_eq_some_iff.mpr ⟨commitId, ?_, hget⟩
    rw [headCommitId_of_named hs.named, hfile, Option.bind_some, hlookup]
  have hnamed := @headCommitId_of_named { s with db } hs.named
  rw [headCommitMaybe, show s.refs.headCommitId db = none from hnamed.trans hnone]

theorem Quiet.existing {repo : Repository} {answers : String → FetchAnswer}
    {results : List (Except FetchError Branch)} {branches : List Branch} (h : Quiet s repo)
    (hrefs : repo.refs = s.refs) (hs : OnBranch s)
    (hhead : ∀ head, headCommitMaybe s.db s.refs ≠ .ok (some head)) :
    Quiet s ((branches.map (·, false)).foldl (fetchNext remoteMode {} answers) (repo, results)).1 := by
  induction branches generalizing repo results with
  | nil => exact h
  | cons branch branches ih =>
      have hnone : headCommitMaybe repo.db repo.refs = .ok none := by
        rw [hrefs]
        exact headCommitMaybe_of_unborn hs hhead
      have hsame := @refs_fetchRemoteBranch repo remoteMode
        { branch := branch.name, shouldUpdateBranchHead := false } (answers branch.name) none hnone rfl
      have hrefs' : (fetchNext remoteMode {} answers (repo, results) (branch, false)).1.refs =
          s.refs := by
        rw [← hrefs]
        refine Eq.trans hsame ?_
        split
        · simp [isUpToDate, isHead]
        · rfl
      have hkept := @fetchRemoteBranch_keeps repo remoteMode
        { branch := branch.name, shouldUpdateBranchHead := false } (answers branch.name) h.keyed
      apply ih _ hrefs'
      refine ⟨hkept.2, h.keeps.trans hkept.1, ?_, ?_⟩
      · rw [hrefs']
      · intro name _
        rw [hrefs']

theorem Quiet.created {repo : Repository} {answers : String → FetchAnswer}
    {results : List (Except FetchError Branch)} {branches : List Branch} (h : Quiet s repo)
    (hnew : ∀ branch ∈ branches, branch.name ∉ s.refs.branches) :
    Quiet s ((branches.map (·, true)).foldl (fetchNext remoteMode {} answers) (repo, results)).1 := by
  induction branches generalizing repo results with
  | nil => exact h
  | cons branch branches ih =>
      have hkept := @fetchRemoteBranch_keeps repo remoteMode
        { branch := branch.name, shouldUpdateBranchHead := true } (answers branch.name) h.keyed
      have hother : ∀ name ∈ s.refs.branches, name ≠ branch.name := by
        rintro name hname rfl
        exact hnew branch List.mem_cons_self hname
      have hown := @refs_fetchRemoteBranch_own repo remoteMode
        { branch := branch.name, shouldUpdateBranchHead := true } (answers branch.name)
      apply ih
      · rcases hown with hrefs | ⟨commitId, hrefs⟩
        · refine ⟨hkept.2, h.keeps.trans hkept.1, ?_, ?_⟩
          · exact (congrArg Refs.headFile hrefs).trans h.headFile
          · intro name hname
            exact (congrArg (·.branches.lookup name) hrefs).trans (h.lookup name hname)
        · refine ⟨hkept.2, h.keeps.trans hkept.1, ?_, ?_⟩
          · exact (congrArg Refs.headFile hrefs).trans h.headFile
          · intro name hname
            refine (congrArg (·.branches.lookup name) hrefs).trans ?_
            exact (AList.lookup_insert_ne (hother name hname)).trans (h.lookup name hname)
      · exact fun branch' hmem => hnew branch' (List.mem_cons_of_mem _ hmem)

/-! ## Covered branches -/

/-- With a HEAD commit, the branches that the fetch sets to it are covered: their
commits are in its history, or in the history of a branch that stays or is created. -/
def FetchCovered (remoteMode : Bool) (remote : RemoteAnswers) (s : Repository) : Prop :=
  ∀ head remoteBranches, headCommitMaybe s.db s.refs = .ok (some head) →
    remote.branches = .ok remoteBranches →
      let nexts := branchesToProcess s.refs remoteBranches
      let db := fetchStore head remote.answer s.db nexts
      CoversWrites s db ((fetchWrites remoteMode head remote.answer s.db nexts).map
        fun write => (write.1, HistoryOf db write.2))

theorem fetchWrites_carriesOut {remote : RemoteAnswers} {remoteBranches : List Branch}
    (hk : s.db.Keyed) (hs : OnBranch s) (hhead : headCommitMaybe s.db s.refs = .ok (some head))
    (hremote : remote.branches = .ok remoteBranches) :
    let nexts := branchesToProcess s.refs remoteBranches
    let db := fetchStore head remote.answer s.db nexts
    CarriesOut s db ((fetchWrites remoteMode head remote.answer s.db nexts).map
      fun write => (write.1, HistoryOf db write.2)) (fetchAll remoteMode s {} remote).1 := by
  intro nexts db
  have hnexts : ∀ next ∈ nexts, (next.2 = false → next.1.name ∈ s.refs.branches) ∧
      (next.2 = true → next.1.name ∉ s.refs.branches) := by
    intro next hmem
    rcases List.mem_append.mp hmem with hmem | hmem
    · rcases List.mem_map.mp hmem with ⟨branch, hbranch, rfl⟩
      exact ⟨fun _ => by simpa using (List.mem_filter.mp hbranch).2, by simp⟩
    · rcases List.mem_map.mp hmem with ⟨branch, hbranch, rfl⟩
      exact ⟨by simp, fun _ => by simpa using (List.mem_filter.mp hbranch).2⟩
  have hnodup : (nexts.map fun next => next.1.name).Nodup := by
    have hperm : (nexts.map Prod.fst).Perm remoteBranches := by
      simp only [nexts, branchesToProcess, List.map_append, List.map_map, Function.comp_def,
        List.map_id']
      have hfilter := List.filter_append_perm (fun branch : Branch => branch.name ∈ s.refs.branches)
        remoteBranches
      simpa using hfilter
    have hmap := hperm.map (·.name)
    rw [List.map_map] at hmap
    exact hmap.nodup_iff.mpr (remote.nodup remoteBranches hremote)
  have hstart : Fetching s head [] s := ⟨hk, .refl, rfl, rfl, by simp⟩
  have hrun := @Fetching.run s remoteMode head [] s remote.answer [] nexts hstart hk hs hhead
    (fun next hmem => (hnexts next hmem).1) (fun next hmem htrue => ⟨(hnexts next hmem).2 htrue, by simp⟩)
    hnodup
  have hall : (fetchAll remoteMode s {} remote).1 =
      (nexts.foldl (fetchNext remoteMode {} remote.answer) (s, [])).1 := by
    rw [fetchAll, hremote]
  rw [← hall] at hrun
  rcases hrun with ⟨hdb, hrun⟩
  have hnamed : ∀ name, (fetchAll remoteMode s {} remote).1.refs.headFile = some name →
      name ∈ (fetchAll remoteMode s {} remote).1.refs.branches ∨ MerkleHash.parse name = none := by
    intro name hfile
    rw [hrun.headFile] at hfile
    rcases hs.named name hfile with hmem | hparse
    · rw [hrun.branches]
      exact .inl (mem_insertAll.mpr (.inl hmem))
    · exact .inr hparse
  have hkeyed := hrun.keyed
  have hkeeps := hrun.keeps
  have hdb' : (fetchAll remoteMode s {} remote).1.db = db := hdb
  have hcarries := @CarriesOut.of_insertAll s (fetchAll remoteMode s {} remote).1 db
    ((fetchWrites remoteMode head remote.answer s.db nexts).map
      fun write => (write.1, write.2, HistoryOf db write.2))
    hkeyed (hdb' ▸ hkeyed) (hdb' ▸ hkeeps) hkeeps hnamed ?_ ?_ ?_
  · rw [histories, List.map_map] at hcarries
    exact hcarries
  · rw [hrun.branches, commitIds, List.map_map]
    simp [Function.comp_def]
  · intro id _ name commitId _ _
    rw [hdb']
  · intro id _ write hwrite
    rcases List.mem_map.mp hwrite with ⟨write, -, rfl⟩
    rw [hdb']

theorem fetchAll_iff (remote : RemoteAnswers) (hk : s.db.Keyed) (hs : OnBranch s) :
    LocalCommits s ⊆ LocalCommits (fetchAll remoteMode s {} remote).1 ↔
      FetchCovered remoteMode remote s := by
  cases hremote : remote.branches with
  | error e =>
      rw [fetchAll, hremote]
      refine iff_of_true subset_rfl ?_
      intro head remoteBranches _ hbranches
      rw [hremote] at hbranches
      cases hbranches
  | ok remoteBranches =>
      by_cases hhead : ∃ head, headCommitMaybe s.db s.refs = .ok (some head)
      · rcases hhead with ⟨head, hhead⟩
        rw [(fetchWrites_carriesOut hk hs hhead hremote).subset_iff hk hs]
        constructor
        · intro hcovers head' remoteBranches' hhead' hremote'
          rw [hhead] at hhead'
          rw [hremote] at hremote'
          obtain rfl := Option.some.inj (Except.ok.inj hhead')
          obtain rfl := Except.ok.inj hremote'
          exact hcovers
        · exact fun hcovered => hcovered head remoteBranches hhead hremote
      · rw [not_exists] at hhead
        refine iff_of_true ?_ ?_
        · have hexisting := @Quiet.existing s remoteMode s remote.answer []
            (remoteBranches.filter (·.name ∈ s.refs.branches)) (.refl hk) rfl hs hhead
          refine Quiet.subset ?_ hk hs
          rw [fetchAll, hremote]
          dsimp only
          rw [branchesToProcess, List.foldl_append]
          apply Quiet.created hexisting
          exact fun branch hmem => by simpa using (List.mem_filter.mp hmem).2
        · exact fun head _ hhead' => absurd hhead' (hhead head)

end Oxen
