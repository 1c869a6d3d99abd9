import Oxen.Verification.Server.Pushes
import Oxen.Verification.Transfer.Uploads

/-! Runs of pushes with failing uploads: when a push that returns leaves the remote with the
whole history of the commit that it pushed. -/

namespace Oxen

open Attribution Commits Exploration Fuel TreeNodes

variable {db : NodeStore} {s remote remote' : SyncedRepository} {fuel : ℕ} {opts : PushOpts}
  {commit : CommitNode} {latest : Option CommitNode} {commits : List CommitNode}
  {result : Except PushCommitsError Unit} {order : List MerkleHash}

/-! ## Complete histories -/

def SyncedRepository.HistoryComplete (remote : SyncedRepository) (db : NodeStore)
    (id : MerkleHash) : Prop :=
  ∀ id', Reaches (parentsOf db none) id id' → remote.Complete db id'

/-- The remote has the history of every branch whose head the client stores. -/
def SyncedRepository.HeadsComplete (remote : SyncedRepository) (db : NodeStore) : Prop :=
  ∀ name text head, remote.repo.refs.branches.lookup name = some text →
    getById db text = some head → remote.HistoryComplete db head.hash

structure SyncedRepository.Inv (remote : SyncedRepository) (db : NodeStore) : Prop where
  synced : remote.SyncedComplete db
  heads : remote.HeadsComplete db

theorem UploadEffect.headsComplete {uploads : Uploads} {ids : Set MerkleHash}
    (h : UploadEffect db uploads ids order remote remote') (hheads : remote.HeadsComplete db) :
    remote'.HeadsComplete db := by
  intro name text head hlookup hget id hid x hx
  rw [h.refs] at hlookup
  exact h.keeps x (hheads name text head hlookup hget id hid x hx)

/-! ## Setting the branch -/

/-- The branch is set only after a push of commits that succeeded. -/
theorem thenSetBranch_cases {setBranch : Repository → Except ServerError Refs}
    {pushed : Except PushCommitsError Unit × SyncedRepository}
    (h : thenSetBranch setBranch pushed = (result, remote')) :
    (remote' = pushed.2 ∧ result ≠ .ok ()) ∨
      pushed.1 = .ok () ∧ ∃ refs, setBranch pushed.2.repo = .ok refs ∧
        remote' = { pushed.2 with repo := { pushed.2.repo with refs } } := by
  obtain ⟨r, uploaded⟩ := pushed
  cases r with
  | error e =>
      obtain ⟨rfl, rfl⟩ := Prod.mk.inj h
      exact .inl ⟨rfl, by simp⟩
  | ok u =>
      rw [thenSetBranch] at h
      split at h
      · obtain ⟨rfl, rfl⟩ := Prod.mk.inj h
        exact .inl ⟨rfl, by simp⟩
      · next refs hrefs =>
        obtain ⟨-, rfl⟩ := Prod.mk.inj h
        exact .inr ⟨rfl, refs, hrefs, rfl⟩

theorem createFromCommit_ok {branch : String} {s : Repository} {refs : Refs}
    (h : createFromCommit branch commit s = .ok refs) :
    refs = s.refs.setBranch branch commit.hash := by
  rw [createFromCommit] at h
  cases hcheck : Branches.checkCreate s.db s.refs branch commit.hash.display with
  | error e =>
      rw [hcheck] at h
      cases h
  | ok u =>
      rw [hcheck] at h
      exact (Except.ok.inj h).symm

theorem updateBranch_ok {branch : String} {s : Repository} {refs : Refs}
    (h : updateBranch branch commit s = .ok refs) :
    refs = s.refs.setBranch branch commit.hash :=
  Branches.update_ok h

theorem SyncedRepository.HeadsComplete.setBranch {branch : String} (hheads : remote.HeadsComplete db)
    (hstored : getByHash db commit.hash = some commit)
    (hcomplete : remote.HistoryComplete db commit.hash) :
    SyncedRepository.HeadsComplete
      { remote with repo := { remote.repo with
          refs := remote.repo.refs.setBranch branch commit.hash } } db := by
  intro name text head hlookup hget id hid x hx
  have hhas : remote.Has x := by
    by_cases hname : name = branch
    · subst hname
      rw [Refs.setBranch, AList.lookup_insert] at hlookup
      rw [← Option.some.inj hlookup, getById_display, hstored] at hget
      obtain rfl := Option.some.inj hget
      exact hcomplete id hid x hx
    · rw [Refs.setBranch, AList.lookup_insert_ne hname] at hlookup
      exact hheads name text head hlookup hget id hid x hx
  cases x <;> exact hhas

/-! ## One push -/

/-- The commit at the head of the local branch. -/
def PushOpts.LocalHead (opts : PushOpts) (s : SyncedRepository) (commit : CommitNode) : Prop :=
  ∃ text, s.repo.refs.branches.lookup opts.branch = some text ∧
    getById s.repo.db text = some commit

/-- What a push leaves behind: a remote that is as complete as before, and with the history
of the pushed commit if the push returned. -/
structure PushOutcome (db : NodeStore) (commit : CommitNode)
    (result : Except PushCommitsError Unit) (remote' : SyncedRepository) : Prop where
  inv : remote'.Inv db
  complete : result = .ok () → remote'.HistoryComplete db commit.hash

theorem PushOutcome.of_inv (hinv : remote.Inv db) (hresult : result ≠ .ok ()) :
    PushOutcome db commit result remote :=
  ⟨hinv, fun hok => absurd hok hresult⟩

/-- The local repository is complete, and no file of it has the hash of a node. -/
structure SyncedRepository.Whole (s : SyncedRepository) : Prop where
  keyed : s.repo.db.Keyed
  trees : HasTrees s.repo.db s.repo.dirHashes
  apart : FilesApart s.repo.db

theorem SyncedRepository.Whole.exists_fuel (h : s.Whole)
    (hstored : ∀ c ∈ commits, IsStored s.repo.db c) :
    ∃ bound, ∀ fuel, bound ≤ fuel → ∀ c ∈ commits, Loads s.repo.db s.repo.dirHashes fuel c :=
  Oxen.exists_fuel fun c hc => h.trees c.hash c (hstored c hc)

/-- A push that uploads commits, of which all that the remote does not have are among the
given ones. -/
theorem pushOutcome_of_pushCommits (hs : s.Whole) (hinv : remote.Inv s.repo.db)
    (hcommit : IsStored s.repo.db commit) (hstored : ∀ c ∈ commits, IsStored s.repo.db c)
    (hloads : ∀ c ∈ commits, Loads s.repo.db s.repo.dirHashes fuel c)
    (hlatest : ∀ c ∈ latest, Loads s.repo.db s.repo.dirHashes fuel c ∧
      remote.HistoryComplete s.repo.db c.hash)
    (hcover : ∀ id, Reaches (parentsOf s.repo.db none) commit.hash id →
      id ∈ commits.map (·.hash) ∨ remote.Complete s.repo.db id)
    (hwhole : opts.uploads.Whole s.repo.db remote (latestIds latest)
      (commits.map (·.hash)).reverse)
    {setBranch : Repository → Except ServerError Refs}
    (hset : ∀ r refs, setBranch r = .ok refs → refs = r.refs.setBranch opts.branch commit.hash)
    (h : thenSetBranch setBranch (pushCommits s remote fuel opts.uploads latest commits) =
      (result, remote')) : PushOutcome s.repo.db commit result remote' := by
  obtain ⟨pushed, uploaded, hpushes⟩ : ∃ pushed uploaded,
      pushCommits s remote fuel opts.uploads latest commits = (pushed, uploaded) := ⟨_, _, rfl⟩
  rw [hpushes] at h
  have hspec := pushCommits_spec hs.apart (fun c hc => (hlatest c hc).1) hloads hpushes
  have hknown : ∀ x ∈ Known s.repo.db (latestIds latest), remote.Has x := by
    rintro x ⟨id, hid, hx⟩
    obtain ⟨c, hc, rfl⟩ := Option.map_eq_some_iff.mp hid
    exact (hlatest c hc).2 c.hash .refl x (.inr hx)
  have horder : ∀ id ∈ (commits.map (·.hash)).reverse, (getByHash s.repo.db id).isSome := by
    intro id hid
    obtain ⟨c, hc, rfl⟩ := List.mem_map.mp (List.mem_reverse.mp hid)
    exact Option.isSome_of_eq_some (hstored c hc)
  rcases hspec with ⟨hsame, hfailed⟩ | ⟨heffect, hok⟩
  · rcases thenSetBranch_cases h with ⟨rfl, hresult⟩ | ⟨hpushed, -⟩
    · exact .of_inv (hsame ▸ hinv) hresult
    · exact absurd hpushed hfailed
  · have hsync := heffect.syncedComplete hinv.synced hknown horder hwhole
    have hheads := heffect.headsComplete hinv.heads
    rcases thenSetBranch_cases h with ⟨rfl, hresult⟩ | ⟨hpushed, refs, hrefs, rfl⟩
    · exact .of_inv ⟨hsync, hheads⟩ hresult
    · have hcomplete : uploaded.HistoryComplete s.repo.db commit.hash := by
        intro id hid x hx
        rcases hcover id hid with hmem | hold
        · obtain ⟨c, hc, rfl⟩ := List.mem_map.mp hmem
          exact hsync c.hash (hok hpushed c hc) (Option.isSome_of_eq_some (hstored c hc)) x hx
        · exact heffect.keeps x (hold x hx)
      obtain rfl := hset _ _ hrefs
      refine ⟨⟨?_, hheads.setBranch hcommit hcomplete⟩, fun _ id hid x hx => ?_⟩
      · intro id hid hsome x hx
        have hhas := hsync id hid hsome x hx
        cases x <;> exact hhas
      · have hhas := hcomplete id hid x hx
        cases x <;> exact hhas

/-! ## The commits of a push -/

/-- The commits that a push uploads, in the order in which new items are attributed to them,
and the commit whose tree it takes for known: from the oldest commit on for a new branch and a
forced push, from the newest on for a fast-forward. -/
inductive PushedRange (s remote : SyncedRepository) (opts : PushOpts) (commit : CommitNode) :
    Option CommitNode → List MerkleHash → Prop
  | newBranch (hhead : remote.repo.refs.branches.lookup opts.branch = none) :
      PushedRange s remote opts commit (findLatestRemoteCommit s remote)
        (historyOrder s.repo.db none commit.hash).reverse
  | fastForward (base : CommitNode)
      (hhead : remote.repo.refs.branches.lookup opts.branch = some base.hash.display)
      (hne : base.hash ≠ commit.hash) (hbase : IsStored s.repo.db base)
      (hahead : Reaches (parentsOf s.repo.db none) commit.hash base.hash) :
      PushedRange s remote opts commit (some base)
        (historyOrder s.repo.db (some base.hash) commit.hash)
  | forced (text : String) (hhead : remote.repo.refs.branches.lookup opts.branch = some text)
      (hbehind : ∀ id, Reaches (parentsOf s.repo.db none) commit.hash id → id.display ≠ text)
      (hforce : opts.force = true) :
      PushedRange s remote opts commit (findLatestRemoteCommit s remote)
        (historyOrder s.repo.db none commit.hash).reverse

/-- No branch is named like the pushed commit, the history fits a list, and the uploads
leave no marked commit without an item. -/
structure PushOpts.Whole (opts : PushOpts) (s remote : SyncedRepository) (commit : CommitNode) :
    Prop where
  unnamed : s.repo.refs.branches.lookup commit.hash.display = none
  short : (historyOrder s.repo.db none commit.hash).length ≤ usizeMax
  uploads : ∀ latest order, PushedRange s remote opts commit latest order →
    opts.uploads.Whole s.repo.db remote (latestIds latest) order

theorem map_hash_fullHistory (hk : db.Keyed) (hs : IsStored db commit) (base : Option MerkleHash) :
    (fullHistory db base commit).map (·.hash) = historyOrder db base commit.hash := by
  rw [fullHistory, List.map_map]
  apply (List.map_congr_left fun id hid => ?_).trans (List.map_id _)
  exact hash_commitAt hk (isSome_of_reaches hk hs
    ((historyOrder_spec db base commit.hash).mem_iff.mp hid))

theorem isStored_of_mem_fullHistory (hk : db.Keyed) (hs : IsStored db commit)
    {base : Option MerkleHash} {c : CommitNode} (hc : c ∈ fullHistory db base commit) :
    IsStored db c := by
  obtain ⟨id, hid, rfl⟩ := List.mem_map.mp hc
  obtain ⟨c, hget⟩ := Option.isSome_iff_exists.mp
    (isSome_of_reaches hk hs ((historyOrder_spec db base commit.hash).mem_iff.mp hid))
  rw [commitAt, hget]
  exact isStored_of_getByHash hk hget

theorem mem_fullHistory_iff (hk : db.Keyed) (hs : IsStored db commit) {base : Option MerkleHash}
    {id : MerkleHash} :
    id ∈ (fullHistory db base commit).map (·.hash) ↔ Reaches (parentsOf db base) commit.hash id := by
  rw [map_hash_fullHistory hk hs]
  exact (historyOrder_spec db base commit.hash).mem_iff

/-- The part of a history above a base is no longer than the history. -/
theorem length_historyOrder_le (db : NodeStore) (base head : CommitNode) :
    (historyOrder db (some base.hash) head.hash).length ≤
      (historyOrder db none head.hash).length := by
  have hbase := historyOrder_spec db (some base.hash) head.hash
  have hall := historyOrder_spec db none head.hash
  apply (List.subperm_of_subset hbase.nodup ?_).length_le
  intro id hid
  exact hall.mem_iff.mpr (reaches_of_reaches (hbase.mem_iff.mp hid))

theorem findLatestRemoteCommit_spec {c : CommitNode} (h : findLatestRemoteCommit s remote = some c) :
    ∃ name text, remote.repo.refs.branches.lookup name = some text ∧
      getById s.repo.db text = some c := by
  obtain ⟨text, htext, hget⟩ := Option.bind_eq_some_iff.mp h
  rcases Option.or_eq_some_iff.mp htext with hmain | ⟨-, hfirst⟩
  · exact ⟨_, text, hmain, hget⟩
  · obtain ⟨name, -, hname⟩ := Option.bind_eq_some_iff.mp hfirst
    exact ⟨name, text, hname, hget⟩

theorem SyncedRepository.HeadsComplete.of_findLatest (hk : s.repo.db.Keyed)
    (hheads : remote.HeadsComplete s.repo.db) :
    ∀ c ∈ findLatestRemoteCommit s remote,
      IsStored s.repo.db c ∧ remote.HistoryComplete s.repo.db c.hash := by
  intro c hc
  obtain ⟨name, text, hlookup, hget⟩ := findLatestRemoteCommit_spec hc
  exact ⟨isStored_of_getById hk hget, hheads name text c hlookup hget⟩

/-- A push reads trees of stored commits only. -/
theorem isStored_of_mem_history (hk : s.repo.db.Keyed) (hheads : remote.HeadsComplete s.repo.db)
    (hcommit : IsStored s.repo.db commit) :
    ∀ c ∈ fullHistory s.repo.db none commit ++ (findLatestRemoteCommit s remote).toList,
      IsStored s.repo.db c := by
  intro c hc
  rcases List.mem_append.mp hc with hc | hc
  · exact isStored_of_mem_fullHistory hk hcommit hc
  · exact (hheads.of_findLatest hk c (Option.mem_toList.mp hc)).1

/-! ## Runs -/

/-- The push ends with the result and the remote. -/
def Pushes (s remote : SyncedRepository) (opts : PushOpts)
    (result : Except PushCommitsError Unit) (remote' : SyncedRepository) : Prop :=
  Returns (fun fuel => pushRemoteBranch s remote fuel opts) (result, remote')

/-- The fuel of a push can be as large as its trees need. -/
theorem Returns.exists_ge {α : Type*} {run : ℕ → Option α} {x : α} (h : Returns run x) (n : ℕ) :
    ∃ fuel, n ≤ fuel ∧ run fuel = some x := by
  obtain ⟨bound, h⟩ := h
  exact ⟨max n bound, le_max_left .., h _ (le_max_right ..)⟩

/-- The uploads of the whole history, from the oldest commit on. -/
theorem pushOutcome_of_history (hs : s.Whole) (hinv : remote.Inv s.repo.db)
    (hcommit : IsStored s.repo.db commit) (hwhole : opts.Whole s remote commit)
    (hrange : PushedRange s remote opts commit (findLatestRemoteCommit s remote)
      (historyOrder s.repo.db none commit.hash).reverse)
    (hloads : ∀ c ∈ fullHistory s.repo.db none commit ++ (findLatestRemoteCommit s remote).toList,
      Loads s.repo.db s.repo.dirHashes fuel c)
    {setBranch : Repository → Except ServerError Refs}
    (hset : ∀ r refs, setBranch r = .ok refs → refs = r.refs.setBranch opts.branch commit.hash)
    (h : thenSetBranch setBranch (pushCommits s remote fuel opts.uploads
      (findLatestRemoteCommit s remote) (fullHistory s.repo.db none commit)) =
        (result, remote')) : PushOutcome s.repo.db commit result remote' := by
  have hids := map_hash_fullHistory hs.keyed hcommit none
  apply pushOutcome_of_pushCommits hs hinv hcommit
    (fun c hc => isStored_of_mem_fullHistory hs.keyed hcommit hc)
    (fun c hc => hloads c (List.mem_append_left _ hc)) ?_ ?_ ?_ hset h
  · intro c hc
    refine ⟨hloads c (List.mem_append_right _ ?_), (hinv.heads.of_findLatest hs.keyed c hc).2⟩
    exact Option.mem_toList.mpr hc
  · intro id hid
    exact .inl ((mem_fullHistory_iff hs.keyed hcommit).mpr hid)
  · rw [hids]
    exact hwhole.uploads _ _ hrange

/-- The uploads of a fast-forward, from the newest commit on. -/
theorem pushOutcome_of_fastForward (hs : s.Whole) (hinv : remote.Inv s.repo.db)
    (hcommit : IsStored s.repo.db commit) (hwhole : opts.Whole s remote commit) {base : CommitNode}
    (hhistory : remote.HistoryComplete s.repo.db base.hash)
    (hrange : PushedRange s remote opts commit (some base)
      (historyOrder s.repo.db (some base.hash) commit.hash))
    (hloads : ∀ c ∈ fullHistory s.repo.db (some base.hash) commit ++ [base],
      Loads s.repo.db s.repo.dirHashes fuel c)
    (h : thenSetBranch (updateBranch opts.branch commit) (pushCommits s remote fuel opts.uploads
      (some base) (fullHistory s.repo.db (some base.hash) commit).reverse) = (result, remote')) :
    PushOutcome s.repo.db commit result remote' := by
  have hids := map_hash_fullHistory hs.keyed hcommit (some base.hash)
  apply pushOutcome_of_pushCommits hs hinv hcommit
    (fun c hc => isStored_of_mem_fullHistory hs.keyed hcommit (List.mem_reverse.mp hc))
    (fun c hc => hloads c (List.mem_append_left _ (List.mem_reverse.mp hc))) ?_ ?_ ?_
    (fun _ _ => updateBranch_ok) h
  · rintro c hc
    obtain rfl := Option.some.inj hc
    exact ⟨hloads base (List.mem_append_right _ (List.mem_singleton_self _)), hhistory⟩
  · intro id hid
    rcases @reaches_or_reaches _ base _ _ hid with hold | hnew
    · exact .inr (hhistory id hold)
    · rw [List.map_reverse, List.mem_reverse]
      exact .inl ((mem_fullHistory_iff hs.keyed hcommit).mpr hnew)
  · rw [List.map_reverse, List.reverse_reverse, hids]
    exact hwhole.uploads _ _ hrange

theorem listBetween_returns (hk : db.Keyed) (hs : IsStored db commit) (base : CommitNode)
    (hshort : (historyOrder db none commit.hash).length ≤ usizeMax) :
    Returns (fun fuel => listBetween db fuel base commit)
      (fullHistory db (some base.hash) commit) := by
  have hrun := (listRecursivePaginated_returns hk hs 0 usizeMax (some base) none).map Prod.fst
  have hle : (fullHistory db (some base.hash) commit).length ≤ usizeMax := by
    rw [fullHistory, List.length_map]
    exact le_trans (length_historyOrder_le db base commit) hshort
  simpa [listBetween, List.take_of_length_le hle] using hrun

/-- A push to a branch whose head is not the pushed commit. -/
theorem pushOutcome_of_existing {remoteId : String}
    (h : Returns (fun fuel => pushToExistingBranch s remote fuel opts commit remoteId)
      (result, remote')) (hs : s.Whole) (hinv : remote.Inv s.repo.db)
    (hcommit : IsStored s.repo.db commit) (hwhole : opts.Whole s remote commit)
    (hremote : remote.repo.refs.branches.lookup opts.branch = some remoteId)
    (hne : remoteId ≠ commit.hash.display) {cache' : CountDb}
    (hlist : Returns (fun fuel => listFrom s.repo.db s.repo.refs fuel opts.cache
      commit.hash.display) (.ok (fullHistory s.repo.db none commit), cache')) :
    PushOutcome s.repo.db commit result remote' := by
  obtain ⟨m, hm⟩ := hlist
  by_cases hahead : (fullHistory s.repo.db none commit).any (·.hash.display = remoteId)
  · obtain ⟨base, hmem, hid⟩ := List.any_eq_true.mp hahead
    obtain rfl := of_decide_eq_true hid
    have hbase := isStored_of_mem_fullHistory hs.keyed hcommit hmem
    have hreach := (mem_fullHistory_iff hs.keyed hcommit).mp (List.mem_map_of_mem hmem)
    have hget : getById s.repo.db base.hash.display = some base := by
      rw [getById_display]
      exact hbase
    have hneid : base.hash ≠ commit.hash := by
      intro heq
      exact hne (congrArg MerkleHash.display heq)
    obtain ⟨n, hn⟩ := listBetween_returns hs.keyed hcommit base hwhole.short
    have hstored : ∀ c ∈ fullHistory s.repo.db (some base.hash) commit ++ [base],
        IsStored s.repo.db c := by
      intro c hc
      rcases List.mem_append.mp hc with hc | hc
      · exact isStored_of_mem_fullHistory hs.keyed hcommit hc
      · exact List.mem_singleton.mp hc ▸ hbase
    obtain ⟨k, hk⟩ := hs.exists_fuel hstored
    obtain ⟨fuel, hfuel, hrun⟩ := Returns.exists_ge h (max m (max n k))
    simp only [pushToExistingBranch, if_neg hne, hm fuel (by omega), hahead, if_true, hget, hn fuel (by omega), Option.map_some,
      Option.some.injEq] at hrun
    exact pushOutcome_of_fastForward hs hinv hcommit hwhole
      (hinv.heads opts.branch _ base hremote hget)
      (.fastForward base hremote hneid hbase hreach) (hk fuel (by omega)) hrun
  · by_cases hforce : opts.force
    · have hbehind : ∀ id, Reaches (parentsOf s.repo.db none) commit.hash id →
          id.display ≠ remoteId := by
        intro id hid heq
        obtain ⟨c, hc, rfl⟩ := List.mem_map.mp ((mem_fullHistory_iff hs.keyed hcommit).mpr hid)
        exact hahead (List.any_eq_true.mpr ⟨c, hc, decide_eq_true heq⟩)
      obtain ⟨n, hn⟩ :=
        hs.exists_fuel (isStored_of_mem_history hs.keyed hinv.heads hcommit)
      obtain ⟨fuel, hfuel, hrun⟩ := Returns.exists_ge h (max m n)
      simp only [pushToExistingBranch, if_neg hne, hm fuel (by omega), hahead, hforce, if_true,
        Bool.false_eq_true, if_false, Option.some.injEq] at hrun
      exact pushOutcome_of_history hs hinv hcommit hwhole (.forced remoteId hremote hbehind hforce)
        (hn fuel (by omega)) (fun _ _ => updateBranch_ok) hrun
    · obtain ⟨fuel, hfuel, hrun⟩ := Returns.exists_ge h m
      simp only [pushToExistingBranch, if_neg hne, hm fuel hfuel, hahead, hforce,
        Bool.false_eq_true, if_false, Option.some.injEq] at hrun
      obtain ⟨rfl, rfl⟩ := Prod.mk.inj hrun
      exact .of_inv hinv (by simp)

/-- A push of a branch with a stored commit compares it with the remote branch. -/
theorem pushRemoteBranch_of_head {text : String} (fuel : ℕ)
    (htext : s.repo.refs.branches.lookup opts.branch = some text)
    (hget : getById s.repo.db text = some commit) :
    pushRemoteBranch s remote fuel opts =
      match remote.repo.refs.branches.lookup opts.branch with
      | some remoteId => pushToExistingBranch s remote fuel opts commit remoteId
      | none => pushToNewBranch s remote fuel opts commit := by
  unfold pushRemoteBranch Branches.getByName pushLocalBranchToRemoteRepo
  rewrite [htext]
  dsimp only
  rewrite [hget]
  rfl

/-- Whatever it returns, a push leaves the marked commits and the heads complete. -/
theorem Pushes.outcome (h : Pushes s remote opts result remote') (hs : s.Whole)
    (hinv : remote.Inv s.repo.db) (hhead : opts.LocalHead s commit)
    (hwhole : opts.Whole s remote commit) : PushOutcome s.repo.db commit result remote' := by
  obtain ⟨text, htext, hget⟩ := hhead
  have hcommit := isStored_of_getById hs.keyed hget
  obtain ⟨cache', hlist⟩ := listFrom_returns hs.keyed hcommit hwhole.unnamed opts.cache
  have hshort : (fullHistory s.repo.db none commit).length ≤ usizeMax := by
    rw [fullHistory, List.length_map]
    exact hwhole.short
  rw [List.take_of_length_le hshort] at hlist
  have hlocal := fun fuel => @pushRemoteBranch_of_head s remote opts commit text fuel htext hget
  obtain ⟨m, hm⟩ := hlist
  obtain ⟨n, hn⟩ := hs.exists_fuel (isStored_of_mem_history hs.keyed hinv.heads hcommit)
  cases hremote : remote.repo.refs.branches.lookup opts.branch with
  | none =>
      obtain ⟨fuel, hfuel, hrun⟩ := Returns.exists_ge h (max m n)
      rw [hlocal, hremote] at hrun
      simp only [pushToNewBranch, hm fuel (le_trans (le_max_left ..) hfuel), Option.map_some,
        Option.some.injEq] at hrun
      exact pushOutcome_of_history hs hinv hcommit hwhole (.newBranch hremote)
        (hn fuel (le_trans (le_max_right ..) hfuel)) (fun _ _ => createFromCommit_ok) hrun
  | some remoteId =>
      have hexisting : Returns (fun fuel => pushToExistingBranch s remote fuel opts commit remoteId)
          (result, remote') := by
        obtain ⟨bound, hbound⟩ := h
        refine ⟨bound, fun fuel hfuel => ?_⟩
        have hrun := hbound fuel hfuel
        simp only [hlocal, hremote] at hrun
        exact hrun
      by_cases hsame : remoteId = commit.hash.display
      · obtain ⟨bound, hbound⟩ := hexisting
        have hrun := hbound bound le_rfl
        simp only [pushToExistingBranch, if_pos hsame, Option.some.injEq] at hrun
        obtain ⟨rfl, rfl⟩ := Prod.mk.inj hrun
        have hgetid : getById s.repo.db remoteId = some commit := by
          rw [hsame, getById_display]
          exact hcommit
        exact ⟨hinv, fun _ => hinv.heads opts.branch remoteId commit hremote hgetid⟩
      · exact pushOutcome_of_existing hexisting hs hinv hcommit hwhole hremote hsame ⟨m, hm⟩

/-- A push without a local branch, or of a branch without a stored commit, sends nothing. -/
theorem Pushes.eq_of_no_head (h : Pushes s remote opts result remote')
    (hnone : ∀ commit, ¬ opts.LocalHead s commit) : remote' = remote ∧ result ≠ .ok () := by
  obtain ⟨bound, hbound⟩ := h
  have hrun := hbound bound le_rfl
  simp only [pushRemoteBranch, Branches.getByName] at hrun
  cases hlookup : s.repo.refs.branches.lookup opts.branch with
  | none =>
      simp only [hlookup, Option.some.injEq] at hrun
      obtain ⟨rfl, rfl⟩ := Prod.mk.inj hrun
      exact ⟨rfl, by simp⟩
  | some text =>
      cases hget : getById s.repo.db text with
      | none =>
          simp only [hlookup, pushLocalBranchToRemoteRepo, hget, Option.some.injEq] at hrun
          obtain ⟨rfl, rfl⟩ := Prod.mk.inj hrun
          exact ⟨rfl, by simp⟩
      | some commit => exact absurd ⟨text, hlookup, hget⟩ (hnone commit)

/-- Pushes one after the other, each with uploads that leave nothing out. -/
inductive PushRun (s : SyncedRepository) : SyncedRepository → SyncedRepository → Prop
  | step (remote : SyncedRepository) (opts : PushOpts) (result : Except PushCommitsError Unit)
      (remote' : SyncedRepository) (hwhole : ∀ commit, opts.LocalHead s commit →
        opts.Whole s remote commit)
      (hpushes : Pushes s remote opts result remote') : PushRun s remote remote'

theorem PushRun.inv (hs : s.Whole) (hinv : remote.Inv s.repo.db)
    (hrun : Relation.ReflTransGen (PushRun s) remote remote') : remote'.Inv s.repo.db := by
  induction hrun with
  | refl => exact hinv
  | tail _ hstep ih =>
      cases hstep with
      | step opts result _ hwhole hpushes =>
          by_cases hhead : ∃ commit, opts.LocalHead s commit
          · obtain ⟨commit, hhead⟩ := hhead
            exact (hpushes.outcome hs ih hhead (hwhole commit hhead)).inv
          · have hnone : ∀ commit, ¬ opts.LocalHead s commit := fun c hc => hhead ⟨c, hc⟩
            exact (hpushes.eq_of_no_head hnone).1 ▸ ih

/-- While no push marks a commit that misses what a failing upload of the same push was to
deliver, a push that returns leaves the whole history of its commit on the remote. -/
theorem historyComplete_of_whole (hs : s.Whole) (hsync : remote.SyncedComplete s.repo.db)
    (hheads : remote.HeadsComplete s.repo.db)
    (hrun : Relation.ReflTransGen (PushRun s) remote remote') {remote'' : SyncedRepository}
    (hhead : opts.LocalHead s commit) (hwhole : opts.Whole s remote' commit)
    (hpushes : Pushes s remote' opts (.ok ()) remote'') :
    remote''.HistoryComplete s.repo.db commit.hash :=
  (hpushes.outcome hs (PushRun.inv hs ⟨hsync, hheads⟩ hrun) hhead hwhole).complete rfl

/-! ## More fuel -/

theorem getSubtree_fuel {bound : ℕ} (hle : bound ≤ fuel)
    (hloads : Loads s.repo.db s.repo.dirHashes bound commit) (seen : List MerkleHash) :
    getSubtreeWithUniqueChildren s.repo fuel commit seen =
      getSubtreeWithUniqueChildren s.repo bound commit seen := by
  obtain ⟨t, ht, hsize⟩ := hloads
  obtain ⟨root, nodeHash, record, hchildren, -, -, hlookup, hrecord, hload⟩ :=
    exists_loadChildren ht hsize seen
  obtain ⟨root', nodeHash', record', hchildren', -, -, hlookup', hrecord', hload'⟩ :=
    exists_loadChildren ht (le_trans hsize hle) seen
  obtain rfl := Option.some.inj (hlookup.symm.trans hlookup')
  obtain rfl := Option.some.inj (hrecord.symm.trans hrecord')
  obtain rfl := List.singleton_inj.mp (hchildren.symm.trans hchildren')
  simp only [getSubtreeWithUniqueChildren, hlookup, Option.bind_some, hrecord, Option.map_some,
    hload, hload']

theorem getCommitMissingHashes_fuel {bound : ℕ} (hle : bound ≤ fuel)
    (hlatest : ∀ c ∈ latest, Loads s.repo.db s.repo.dirHashes bound c)
    (hloads : ∀ c ∈ commits, Loads s.repo.db s.repo.dirHashes bound c) :
    getCommitMissingHashes s.repo fuel latest commits =
      getCommitMissingHashes s.repo bound latest commits := by
  have hfold : ∀ missing, commits.reverse.foldl (addCommit s.repo fuel) missing =
      commits.reverse.foldl (addCommit s.repo bound) missing := by
    intro missing
    apply List.foldl_ext
    intro missing c hc
    simp only [addCommit, getSubtree_fuel hle (hloads c (List.mem_reverse.mp hc))]
  have hbase : (latest.bind fun c => getSubtreeWithUniqueChildren s.repo fuel c []) =
      latest.bind fun c => getSubtreeWithUniqueChildren s.repo bound c [] := by
    cases latest with
    | none => rfl
    | some c => exact getSubtree_fuel hle (hlatest c rfl) []
  simp only [getCommitMissingHashes, hfold, hbase]

/-- A push to a new branch returns what it returns with fuel for its trees. -/
theorem pushes_of_newBranch {bound : ℕ} {r : Except PushCommitsError Unit × SyncedRepository}
    {history : List CommitNode} {cache' : CountDb} (hhead : opts.LocalHead s commit)
    (hnew : remote.repo.refs.branches.lookup opts.branch = none)
    (hlist : listFrom s.repo.db s.repo.refs bound opts.cache commit.hash.display =
      some (.ok history, cache'))
    (hlatest : ∀ c ∈ findLatestRemoteCommit s remote, Loads s.repo.db s.repo.dirHashes bound c)
    (hloads : ∀ c ∈ history, Loads s.repo.db s.repo.dirHashes bound c)
    (hr : thenSetBranch (createFromCommit opts.branch commit) (pushCommits s remote bound
      opts.uploads (findLatestRemoteCommit s remote) history) = r) :
    Pushes s remote opts r.1 r.2 := by
  obtain ⟨text, htext, hget⟩ := hhead
  refine ⟨bound, fun fuel hle => ?_⟩
  have hmissing := getCommitMissingHashes_fuel hle hlatest hloads
  rw [pushCommits, commitsWithInfo, ← hmissing] at hr
  simp only [pushRemoteBranch, Branches.getByName, htext, pushLocalBranchToRemoteRepo, hget, hnew,
    pushToNewBranch, listFrom_mono hlist hle, Option.map_some]
  exact congrArg some hr

/-! ## Two commits that share a file -/

namespace PushCommitsExample

open HistoryExample

/-- The commits share the root directory with its only file. -/
def tree (id : MerkleHash) (parents : List MerkleHash) : MerkleTreeNode :=
  .mk (.commit (commitNode id parents 0))
    [.mk (.directory { name := [], hash := 10 })
      [.mk (.vnode { hash := 20 }) [.mk (.file { name := ["a"], hash := 30 }) []]]]

/-- Two first commits and their merge. -/
def trees : List MerkleTreeNode :=
  [tree 1 [], tree 2 [], tree 3 [1, 2]]

def store : NodeStore :=
  NodeStore.ofTrees trees

def index (_ : MerkleHash) : DirHashes :=
  AList.insert [] 10 ∅

def clone : SyncedRepository where
  repo :=
    { db := store
      dirHashes := index
      refs := { branches := AList.insert "merged" "3" (AList.insert "second" "2" ∅) } }
  versions := [30]

theorem trees_forest : Forest trees := by
  decide

theorem store_hasTrees : HasTrees store index :=
  trees_forest.hasTrees (by decide)

theorem store_filesApart : FilesApart store := by
  rintro id h ⟨t, -, c, hc, hh⟩
  have hfiles : ∀ u ∈ trees, ∀ d ∈ u.children,
      (d.fileHashes.all fun x => (store x).isNone) = true := by
    decide
  have hall := List.all_eq_true.mp (hfiles t.tree (trees_forest.tree_mem t) c hc) h hh
  exact Option.isNone_iff_eq_none.mp hall

theorem clone_whole : clone.Whole where
  keyed := trees_forest.keyed
  trees := store_hasTrees
  apart := store_filesApart

/-- The push of the merge, in which the upload of the first commit fails at once. -/
def mergedOpts : PushOpts where
  branch := "merged"
  uploads := { failure := fun id => if id = 1 then some (.pushEntries []) else none }

/-- The push of the second commit, with no failure. -/
def secondOpts : PushOpts where
  branch := "second"

/-- What a push leaves on the remote. -/
def after (remote : SyncedRepository) (opts : PushOpts) :
    Except PushCommitsError Unit × SyncedRepository :=
  ((pushRemoteBranch clone remote 20 opts).getD (.ok (), remote))

theorem loads_of_isStored {c : CommitNode} (h : IsStored store c) : Loads store index 20 c := by
  obtain ⟨t, ht⟩ := store_hasTrees c.hash c h
  have hsize : ∀ u ∈ trees, u.size ≤ 20 := by decide
  exact ⟨t, ht, hsize _ (trees_forest.tree_mem t)⟩

theorem two_isStored : IsStored store (commitNode 2 [] 0) := by
  rw [IsStored]
  decide

theorem localHead_second : secondOpts.LocalHead clone (commitNode 2 [] 0) :=
  ⟨"2", by decide, by decide⟩

theorem localHead_merged : mergedOpts.LocalHead clone (commitNode 3 [1, 2] 0) :=
  ⟨"3", by decide, by decide⟩

/-- A push to a remote without branches, whose result is computed. -/
theorem pushes_after {remote : SyncedRepository} {opts : PushOpts} {commit : CommitNode}
    {history : List CommitNode} (hhead : opts.LocalHead clone commit)
    (hempty : remote.repo.refs.branches = ∅)
    (hlist : (listFrom store clone.repo.refs 20 opts.cache commit.hash.display).map Prod.fst =
      some (.ok history))
    (hstored : ∀ c ∈ history, getByHash store c.hash = some c) :
    Pushes clone remote opts (after remote opts).1 (after remote opts).2 := by
  obtain ⟨⟨_, cache'⟩, hlist', rfl⟩ := Option.map_eq_some_iff.mp hlist
  have hnew : remote.repo.refs.branches.lookup opts.branch = none := by
    rw [hempty]
    exact AList.lookup_empty _
  have hlatest : findLatestRemoteCommit clone remote = none := by
    simp [findLatestRemoteCommit, hempty]
  apply pushes_of_newBranch hhead hnew hlist' (by simp [hlatest])
    (fun c hc => loads_of_isStored (hstored c hc))
  obtain ⟨text, htext, hget⟩ := hhead
  have hclone : listFrom clone.repo.db clone.repo.refs 20 opts.cache commit.hash.display =
      some (.ok history, cache') := hlist'
  simp only [after, pushRemoteBranch, Branches.getByName, htext, pushLocalBranchToRemoteRepo, hget,
    hnew, pushToNewBranch, hclone, Option.map_some, Option.getD_some]

theorem pushes_merged :
    Pushes clone {} mergedOpts (after {} mergedOpts).1 (after {} mergedOpts).2 := by
  have hlist : (listFrom store clone.repo.refs 20 mergedOpts.cache
      (commitNode 3 [1, 2] 0).hash.display).map Prod.fst =
        some (.ok [commitNode 3 [1, 2] 0, commitNode 2 [] 0, commitNode 1 [] 0]) := by
    decide
  apply pushes_after localHead_merged rfl hlist
  decide

theorem pushes_second {remote : SyncedRepository} (hempty : remote.repo.refs.branches = ∅) :
    Pushes clone remote secondOpts (after remote secondOpts).1 (after remote secondOpts).2 := by
  have hlist : (listFrom store clone.repo.refs 20 secondOpts.cache
      (commitNode 2 [] 0).hash.display).map Prod.fst = some (.ok [commitNode 2 [] 0]) := by
    decide
  apply pushes_after localHead_second hempty hlist
  decide

/-- Nothing fails in the second push. -/
theorem second_whole (remote : SyncedRepository) :
    secondOpts.Whole clone remote (commitNode 2 [] 0) where
  unnamed := by decide
  short := by
    have hparents : parentsOf store none 2 = [] := by decide
    have hspec := historyOrder_spec store none 2
    have hsubset : historyOrder store none 2 ⊆ [2] := by
      intro id hid
      rcases Relation.ReflTransGen.cases_head (hspec.mem_iff.mp hid) with h | ⟨x, hx, -⟩
      · exact List.mem_singleton.mpr h.symm
      · have hx' : x ∈ parentsOf store none 2 := hx
        rw [hparents] at hx'
        cases hx'
    exact le_trans (List.subperm_of_subset hspec.nodup hsubset).length_le (by decide)
  uploads := by
    intro latest order _ failed _ _ x _ hnot
    exfalso
    apply hnot
    cases x <;> rfl

theorem empty_syncedComplete : SyncedRepository.SyncedComplete {} store := by
  intro id hid
  cases hid

theorem empty_headsComplete : SyncedRepository.HeadsComplete {} store := by
  intro name text head hlookup
  cases hlookup

/-- The file that no push has sent. -/
theorem thirty_mem : .version 30 ∈ Items store 2 := by
  obtain ⟨t, ht⟩ := store_hasTrees 2 (commitNode 2 [] 0) two_isStored
  have hid : t.id = 2 := congrArg CommitNode.hash ht.commit_eq
  have hfiles : ∀ u ∈ trees, u.children.any (30 ∈ ·.fileHashes) := by decide
  obtain ⟨c, hc, hmem⟩ := List.any_eq_true.mp (hfiles t.tree (trees_forest.tree_mem t))
  exact .inr ⟨t, hid, c, hc, of_decide_eq_true hmem⟩

end PushCommitsExample

/-- A push in which nothing fails. -/
theorem historyComplete_of_whole_example :
    (PushCommitsExample.after {} PushCommitsExample.secondOpts).2.HistoryComplete
      PushCommitsExample.store 2 := by
  have hok : (PushCommitsExample.after {} PushCommitsExample.secondOpts).1 = .ok () := by
    decide
  have hpushes := @PushCommitsExample.pushes_second {} rfl
  rw [hok] at hpushes
  exact historyComplete_of_whole PushCommitsExample.clone_whole
    PushCommitsExample.empty_syncedComplete PushCommitsExample.empty_headsComplete .refl
    PushCommitsExample.localHead_second (PushCommitsExample.second_whole {}) hpushes

/-- After a push whose only failing upload had a file that another commit shares, a push of
this other commit returns although the file is missing. -/
theorem not_historyComplete :
    ¬ ∀ (s remote remote' remote'' : SyncedRepository) (opts : PushOpts) (commit : CommitNode),
      s.Whole → remote.SyncedComplete s.repo.db → remote.HeadsComplete s.repo.db →
      Relation.ReflTransGen (fun r r' => ∃ opts result, Pushes s r opts result r') remote remote' →
      opts.LocalHead s commit → Pushes s remote' opts (.ok ()) remote'' →
      remote''.HistoryComplete s.repo.db commit.hash := by
  intro h
  have hbranches : (PushCommitsExample.after {} PushCommitsExample.mergedOpts).2.repo.refs.branches =
      ∅ := by
    decide
  have hok : (PushCommitsExample.after (PushCommitsExample.after {}
      PushCommitsExample.mergedOpts).2 PushCommitsExample.secondOpts).1 = .ok () := by
    decide
  have hversions : (PushCommitsExample.after (PushCommitsExample.after {}
      PushCommitsExample.mergedOpts).2 PushCommitsExample.secondOpts).2.versions = [] := by
    decide
  have hsecond := PushCommitsExample.pushes_second hbranches
  rw [hok] at hsecond
  have hcomplete := h _ _ _ _ _ _ PushCommitsExample.clone_whole
    PushCommitsExample.empty_syncedComplete PushCommitsExample.empty_headsComplete
    (.single ⟨_, _, PushCommitsExample.pushes_merged⟩) PushCommitsExample.localHead_second hsecond
  have hhas := hcomplete 2 .refl _ PushCommitsExample.thirty_mem
  rw [SyncedRepository.Has, hversions] at hhas
  cases hhas

end Oxen
