import Oxen.Model.PushBranch
import Oxen.Verification.Server.Updates

/-! Clients that push to one branch at the same time. -/

namespace Oxen

open Commits Exploration Fuel

variable {parents : MerkleHash → List MerkleHash} {repo repo' : Repository} {push : Push}
  {state state' : PushState} {s s' : Remote}

/-- The stored commits are part of one graph, in which an id stands for its parents. -/
def PartOf (parents : MerkleHash → List MerkleHash) (db : NodeStore) : Prop :=
  ∀ id commit, getByHash db id = some commit → commit.parentIds = parents id

theorem PartOf.reaches {db : NodeStore} (h : PartOf parents db) (hk : db.Keyed) {x y : MerkleHash}
    (hr : Reaches (parentsOf db none) x y) : Reaches parents x y := by
  apply Relation.ReflTransGen.mono _ _ _ hr
  intro id parentId hp
  obtain ⟨commit, hget, hmem, -⟩ := (mem_parentsOf_iff hk).mp hp
  rwa [← h id commit hget]

/-! ## The client's check -/

theorem splitDots_eq_none {cs : List Char} (h : '.' ∉ cs) : splitDots cs = none := by
  induction cs with
  | nil => rfl
  | cons c cs ih =>
      rw [List.mem_cons, not_or] at h
      rw [splitDots, ih h.2, Option.map_none]
      intro cs' hc
      exact fun _ => h.1 hc.symm

theorem dot_notMem_of_parse {n m : ℕ} {cs : List Char} (h : parseHexDigits n cs = some m) :
    '.' ∉ cs := by
  induction cs generalizing n with
  | nil => simp
  | cons c cs ih =>
      rw [parseHexDigits, Option.bind_eq_some_iff] at h
      obtain ⟨d, hd, h⟩ := h
      rw [List.mem_cons, not_or]
      refine ⟨?_, ih h⟩
      rintro rfl
      simp [hexDigit?] at hd

theorem parseRange_display (hash : MerkleHash) : parseRange hash.display = none := by
  have hparse := MerkleHash.parse_display hash
  have hdot : '.' ∉ hash.display.toList := by
    rw [MerkleHash.parse] at hparse
    split at hparse
    · next cs hcs =>
      split at hparse
      · cases hparse
      · obtain ⟨n, hn, -⟩ := Option.bind_eq_some_iff.mp hparse
        rw [hcs, List.mem_cons, not_or]
        exact ⟨by decide, dot_notMem_of_parse hn⟩
    · split at hparse
      · cases hparse
      · obtain ⟨n, hn, -⟩ := Option.bind_eq_some_iff.mp hparse
        exact dot_notMem_of_parse hn
  rw [parseRange, splitDots_eq_none hdot, Option.map_none]

theorem display_ne_head (hash : MerkleHash) : hash.display ≠ "HEAD" := by
  intro h
  have hparse := MerkleHash.parse_display hash
  have hhead : MerkleHash.parse "HEAD" = none := by decide
  rw [h, hhead] at hparse
  cases hparse

/-- A push whose commit is stored locally. -/
structure Push.Local (parents : MerkleHash → List MerkleHash) (push : Push) : Prop where
  keyed : push.db.Keyed
  partOf : PartOf parents push.db
  stored : getByHash push.db push.commit.hash = some push.commit

/-- The client's check against a remote head would pass. -/
def Push.IsAhead (push : Push) (remoteId : String) : Prop :=
  ∃ cache commits cache',
    Returns (fun fuel => listFrom push.db push.refs fuel cache push.commit.hash.display)
      (.ok commits, cache') ∧
    ∃ c ∈ commits, c.hash.display = remoteId

/-- The branch to push points to a commit that the client's check would accept,
and no local branch is named like the commit. -/
def Push.OnHead (push : Push) (repo : Repository) : Prop :=
  push.refs.branches.lookup push.commit.hash.display = none ∧
    ∀ text, repo.refs.branches.lookup push.branch = some text → push.IsAhead text

/-- The history of a stored commit, for an id that no branch is named like. -/
theorem listFrom_returns {db : NodeStore} {refs : Refs} {commit : CommitNode} (hk : db.Keyed)
    (hs : IsStored db commit) (hname : refs.branches.lookup commit.hash.display = none)
    (cache : CountDb) :
    ∃ cache', Returns (fun fuel => listFrom db refs fuel cache commit.hash.display)
      (.ok ((fullHistory db none commit).take usizeMax), cache') := by
  have hget : Revisions.get db refs commit.hash.display = .ok (some commit) := by
    rw [Revisions.get, if_neg (display_ne_head _), hname, Option.getD_none, getById_display]
    exact congrArg Except.ok hs
  have hcount : countError db refs commit.hash.display = none := by
    rw [countError, hget]
  obtain ⟨result, cache', hrun, hpage⟩ :=
    listFromPaginatedImpl_returns hk refs cache commit.hash.display 0 usizeMax
  have hmap := hrun.map fun r => (r.1.map Prod.fst, r.2)
  rw [hpage, pageOf, parseRange_display, hget] at hmap
  have hlong : ¬ usizeMax ≤ 10 := by decide
  simp only [hcount, hlong, if_false, Nat.zero_add, List.drop_zero] at hmap
  exact ⟨cache', hmap⟩

theorem Push.Local.listFrom_returns (hlocal : push.Local parents)
    (hname : push.refs.branches.lookup push.commit.hash.display = none) (cache : CountDb) :
    ∃ cache', Returns (fun fuel => listFrom push.db push.refs fuel cache push.commit.hash.display)
      (.ok ((fullHistory push.db none push.commit).take usizeMax), cache') :=
  Oxen.listFrom_returns hlocal.keyed hlocal.stored hname cache

theorem Push.IsAhead.reaches {remoteId : String} (hlocal : push.Local parents)
    (hname : push.refs.branches.lookup push.commit.hash.display = none)
    (h : push.IsAhead remoteId) :
    ∃ head : MerkleHash, remoteId = head.display ∧ Reaches parents push.commit.hash head := by
  obtain ⟨cache, commits, cache', hlist, c, hc, rfl⟩ := h
  refine ⟨c.hash, rfl, hlocal.partOf.reaches hlocal.keyed ?_⟩
  obtain ⟨cache'', hreturns⟩ := hlocal.listFrom_returns hname cache
  rw [Except.ok.inj (congrArg Prod.fst (hlist.unique hreturns)), fullHistory] at hc
  obtain ⟨id, hid, rfl⟩ := List.mem_map.mp (List.mem_of_mem_take hc)
  have hr := (historyOrder_spec push.db none push.commit.hash).mem_iff.mp hid
  rwa [hash_commitAt hlocal.keyed (isSome_of_reaches hlocal.keyed hlocal.stored hr)]

theorem Push.IsAhead.check_returns {remoteId : String} (hlocal : push.Local parents)
    (hname : push.refs.branches.lookup push.commit.hash.display = none)
    (h : push.IsAhead remoteId) (hne : remoteId ≠ push.commit.hash.display) (cache : CountDb) :
    Returns (fun fuel => push.check fuel cache (some remoteId)) (.pushCommits push false) := by
  obtain ⟨cache', commits, cache'', hlist, c, hc, rfl⟩ := h
  obtain ⟨cache₁, hreturns₁⟩ := hlocal.listFrom_returns hname cache'
  obtain ⟨cache₂, hreturns₂⟩ := hlocal.listFrom_returns hname cache
  rw [Except.ok.inj (congrArg Prod.fst (hlist.unique hreturns₁))] at hc
  apply hreturns₂.of_eq (.pure _)
  intro fuel hf
  have hany : ((fullHistory push.db none push.commit).take usizeMax).any
      (·.hash.display = c.hash.display) = true :=
    List.any_eq_true.mpr ⟨c, hc, by simp⟩
  simp only [Push.check, if_neg hne, hf, Option.map_some, hany, true_or, if_true]

/-! ## Steps -/

/-- Every commit whose push returned is in the history of its branch. -/
def Remote.KeepsPushed (parents : MerkleHash → List MerkleHash) (s : Remote) : Prop :=
  ∀ i push, s.pushes i = .returned push (.ok ()) →
    HeadReaches parents s.repo.refs push.branch push.commit.hash

/-- Branches stay or move to descendants. -/
def MovesForward (parents : MerkleHash → List MerkleHash) (repo repo' : Repository) : Prop :=
  ∀ branch id, HeadReaches parents repo.refs branch id → HeadReaches parents repo'.refs branch id

/-- A push that is about to move the branch could do its check again now. -/
def PushState.OnHead (repo : Repository) : PushState → Prop
  | updateBranch push => push.OnHead repo
  | putNewBranch push => push.OnHead repo
  | _ => True

structure Remote.Inv (parents : MerkleHash → List MerkleHash) (s : Remote) : Prop where
  localPush : ∀ i, (s.pushes i).push.Local parents
  kept : s.KeepsPushed parents

/-- What one step does: it leaves the refs alone, or sets the branch of the push
to its commit. -/
inductive PushEffect (repo : Repository) (push : Push) : Repository → PushState → Prop
  | keep (repo' : Repository) (state' : PushState) (hrefs : repo'.refs = repo.refs)
      (hpush : state'.push = push)
      (hreturned : state' = .returned push (.ok ()) →
        repo.refs.branches.lookup push.branch = some push.commit.hash.display) :
      PushEffect repo push repo' state'
  | move (hon : push.OnHead repo) :
      PushEffect repo push
        { repo with refs := repo.refs.setBranch push.branch push.commit.hash }
        (.returned push (.ok ()))

theorem check_spec {fuel : ℕ} {cache : CountDb} {remote : Option String}
    (h : push.check fuel cache remote = some state) :
    state.push = push ∧
      (state = .returned push (.ok ()) → remote = some push.commit.hash.display) := by
  cases remote with
  | none =>
      obtain ⟨⟨result, cache'⟩, -, rfl⟩ := Option.map_eq_some_iff.mp h
      cases result <;> exact ⟨rfl, by simp⟩
  | some remoteId =>
      simp only [Push.check] at h
      split at h
      · next hsame =>
        rw [← Option.some.inj h, hsame]
        exact ⟨rfl, fun _ => rfl⟩
      · obtain ⟨⟨result, cache'⟩, -, rfl⟩ := Option.map_eq_some_iff.mp h
        cases result with
        | error e => exact ⟨rfl, by simp⟩
        | ok commits =>
            dsimp only
            split <;> exact ⟨rfl, by simp⟩

theorem PushStep.effect (hstep : PushStep repo state repo' state') (hon : state.OnHead repo) :
    PushEffect repo state.push repo' state' := by
  cases hstep with
  | getBranch push cache _ hcheck =>
      obtain ⟨bound, hbound⟩ := hcheck
      obtain ⟨hpush, hreturned⟩ := check_spec (hbound bound le_rfl)
      exact .keep _ _ rfl hpush hreturned
  | pushCommits push newBranch nodes hnodes =>
      cases newBranch with
      | true => exact .keep _ _ rfl rfl (by simp)
      | false => exact .keep _ _ rfl rfl (by simp)
  | failedToPush push newBranch nodes hnodes => exact .keep _ _ rfl rfl (by simp)
  | updateBranch push refs hupdate =>
      rw [Branches.update_ok hupdate]
      exact .move hon
  | updateError push e hupdate => exact .keep _ _ rfl rfl (by simp)
  | createBranch push hcheck => exact .keep _ _ rfl rfl (by simp)
  | createError push e hcheck => exact .keep _ _ rfl rfl (by simp)
  | putNewBranch push => exact .move hon

theorem Push.OnHead.headIn (h : push.OnHead repo) (hlocal : push.Local parents) :
    HeadIn parents repo.refs push.branch [push.commit.hash] := by
  intro text htext
  obtain ⟨head, rfl, hr⟩ := (h.2 text htext).reaches hlocal h.1
  exact ⟨head, rfl, push.commit.hash, by simp, hr⟩

theorem PushEffect.movesForward (h : PushEffect repo push repo' state')
    (hlocal : push.Local parents) : MovesForward parents repo repo' := by
  intro branch id hreach
  cases h with
  | keep _ _ hrefs _ _ => rwa [hrefs]
  | move hon => exact hreach.setBranch (hon.headIn hlocal)

theorem Remote.Inv.step (h : s.Inv parents) {i : ℕ} (hon : (s.pushes i).OnHead s.repo)
    (hstep : PushStep s.repo (s.pushes i) repo' state') :
    Remote.Inv parents ⟨repo', Function.update s.pushes i state'⟩ := by
  have heffect := hstep.effect hon
  have hforward := heffect.movesForward (h.localPush i)
  have hpush : state'.push = (s.pushes i).push := by
    cases heffect with
    | keep _ _ _ hpush _ => exact hpush
    | move _ => rfl
  constructor
  · exact (Function.forall_update_iff s.pushes fun _ state => state.push.Local parents).mpr
      ⟨hpush ▸ h.localPush i, fun j _ => h.localPush j⟩
  · refine (Function.forall_update_iff s.pushes fun _ state => ∀ push,
      state = .returned push (.ok ()) →
        HeadReaches parents repo'.refs push.branch push.commit.hash).mpr
      ⟨fun push hreturned => ?_, fun j _ push hreturned =>
        hforward _ _ (h.kept j push hreturned)⟩
    obtain rfl : push = (s.pushes i).push := by rw [← hpush, hreturned]; rfl
    cases heffect with
    | keep _ _ hrefs _ hlookup => exact ⟨_, by rw [hrefs, hlookup hreturned], .refl⟩
    | move _ => exact .self

/-! ## Runs -/

/-- A step of a push whose check still holds when it moves the branch. -/
inductive RemoteStepOnHead : Remote → Remote → Prop
  | step (s : Remote) (i : ℕ) (repo' : Repository) (state' : PushState)
      (hon : (s.pushes i).OnHead s.repo) (hstep : PushStep s.repo (s.pushes i) repo' state') :
      RemoteStepOnHead s ⟨repo', Function.update s.pushes i state'⟩

/-- No push has taken a step. -/
structure Remote.Starts (parents : MerkleHash → List MerkleHash) (s : Remote) : Prop where
  start : ∀ i, ∃ push, s.pushes i = .getBranch push
  localPush : ∀ i, (s.pushes i).push.Local parents

theorem RemoteStepOnHead.toRemoteStep (h : RemoteStepOnHead s s') : RemoteStep s s' := by
  cases h with
  | step i repo' state' _ hstep => exact .step s i repo' state' hstep

/-- A step of the push in one place. -/
theorem RemoteStep.update {pushes : ℕ → PushState} {i : ℕ}
    (hstep : PushStep repo state repo' state') :
    RemoteStep ⟨repo, Function.update pushes i state⟩ ⟨repo', Function.update pushes i state'⟩ := by
  have hstate : Function.update pushes i state i = state := Function.update_self i state pushes
  have hstep' := RemoteStep.step ⟨repo, Function.update pushes i state⟩ i repo' state'
  simp only [hstate, Function.update_idem] at hstep'
  exact hstep' hstep

theorem RemoteStepOnHead.update {pushes : ℕ → PushState} {i : ℕ} (hon : state.OnHead repo)
    (hstep : PushStep repo state repo' state') :
    RemoteStepOnHead ⟨repo, Function.update pushes i state⟩
      ⟨repo', Function.update pushes i state'⟩ := by
  have hstate : Function.update pushes i state i = state := Function.update_self i state pushes
  have hstep' := RemoteStepOnHead.step ⟨repo, Function.update pushes i state⟩ i repo' state'
  simp only [hstate, Function.update_idem] at hstep'
  exact hstep' hon hstep

theorem Remote.Starts.inv (h : s.Starts parents) : s.Inv parents := by
  refine ⟨h.localPush, fun i push hreturned => ?_⟩
  obtain ⟨push', hstart⟩ := h.start i
  rw [hstart] at hreturned
  cases hreturned

theorem Remote.Inv.run (h : s.Inv parents) (hrun : Relation.ReflTransGen RemoteStepOnHead s s') :
    s'.Inv parents := by
  induction hrun with
  | refl => exact h
  | tail _ hstep ih =>
      cases hstep with
      | step i repo' state' hon hstep => exact ih.step hon hstep

/-- While the check of every push still holds when the server moves the branch,
branches only move to descendants, and no pushed commit is dropped. -/
theorem keepsPushed_of_onHead (hs : s.Starts parents)
    (hrun : Relation.ReflTransGen RemoteStepOnHead s s') :
    s'.KeepsPushed parents ∧
      ∀ s'', RemoteStepOnHead s' s'' → MovesForward parents s'.repo s''.repo := by
  have hinv := hs.inv.run hrun
  refine ⟨hinv.kept, fun s'' hstep => ?_⟩
  cases hstep with
  | step i repo' state' hon hstep => exact (hstep.effect hon).movesForward (hinv.localPush i)

/-! ## Two pushes to one branch -/

namespace PushExample

open HistoryExample

def baseStore : NodeStore :=
  NodeStore.write (fun _ => none) (record 1 [] 1)

/-- A clone in which one commit was added. -/
def clonePush (commit : CommitNode) : Push where
  db := baseStore.write { node := .commit commit }
  branch := "main"
  commit := commit

def remote (db : NodeStore) (head : String) : Repository where
  db := db
  refs := { headFile := some "main", branches := AList.insert "main" head ∅ }

/-- One clone pushes commit 2, all others push commit 3. -/
def start : Remote where
  repo := remote baseStore "1"
  pushes i := .getBranch (clonePush (if i = 0 then commitNode 2 [1] 2 else commitNode 3 [1] 3))

def graph (id : MerkleHash) : List MerkleHash :=
  if id = 2 ∨ id = 3 then [1] else []

theorem baseStore_keyed : baseStore.Keyed := by
  have hempty : NodeStore.Keyed fun _ => none := by
    intro id commit h
    simp [getByHash] at h
  exact Keyed.write hempty rfl

theorem getByHash_baseStore {id : MerkleHash} {c : CommitNode}
    (h : getByHash baseStore id = some c) : c = commitNode 1 [] 1 := by
  rw [baseStore, @getByHash_write _ (commitNode 1 [] 1) (record 1 [] 1) rfl] at h
  split at h
  · exact (Option.some.inj h).symm
  · simp [getByHash] at h

/-- A commit that was added to a clone. -/
structure IsAdded (commit : CommitNode) : Prop where
  differs : "1" ≠ commit.hash.display
  parents : commit.parentIds = graph commit.hash
  first : firstParent (clonePush commit).db commit = some (commitNode 1 [] 1)
  others : openParents (clonePush commit).db [commit] = [commitNode 1 [] 1]

variable {commit : CommitNode} {i : ℕ} {pushes : ℕ → PushState} {db : NodeStore}

theorem two_isAdded : IsAdded (commitNode 2 [1] 2) where
  differs := by decide
  parents := by decide
  first := by decide
  others := by decide

theorem three_isAdded : IsAdded (commitNode 3 [1] 3) where
  differs := by decide
  parents := by decide
  first := by decide
  others := by decide

theorem local_clonePush (h : IsAdded commit) : (clonePush commit).Local graph where
  keyed := Keyed.write baseStore_keyed rfl
  partOf := by
    intro id c hget
    rw [clonePush, @getByHash_write _ commit _ rfl] at hget
    split at hget
    · next hid => rw [← Option.some.inj hget, hid, h.parents]
    · obtain rfl := getByHash_baseStore hget
      obtain rfl := baseStore_keyed id _ hget
      decide
  stored := by
    rw [clonePush, @getByHash_write _ commit _ rfl, if_pos rfl]

theorem unnamed (commit : CommitNode) :
    (clonePush commit).refs.branches.lookup (clonePush commit).commit.hash.display = none :=
  AList.lookup_empty _

theorem IsAdded.isAhead (h : IsAdded commit) : (clonePush commit).IsAhead "1" := by
  have hlocal := local_clonePush h
  have hs : IsStored (clonePush commit).db commit := hlocal.stored
  obtain ⟨cache, hlist⟩ := hlocal.listFrom_returns (unnamed commit) ∅
  refine ⟨∅, _, cache, hlist, commitNode 1 [] 1, ?_, by decide⟩
  have hpath : (fullHistory (clonePush commit).db none commit).take 2 =
      forwardPath (clonePush commit).db 2 commit := by
    apply (take_history_iff hlocal.keyed hs 2).mpr
    intro i hpos hi last hlast
    obtain rfl : i = 1 := by omega
    obtain rfl : commit = last := Option.some.inj hlast
    have hopen : openParents (clonePush commit).db (forwardPath (clonePush commit).db 1 commit) =
        [commitNode 1 [] 1] := h.others
    rw [h.first, hopen]
    simp
  have hmem : commitNode 1 [] 1 ∈ forwardPath (clonePush commit).db 2 commit := by
    simp [forwardPath, chainFrom, h.first]
  apply List.take_subset_take_left _ (by decide : 2 ≤ usizeMax)
  exact hpath ▸ hmem

/-! The three messages of a push. -/

theorem IsAdded.reads (h : IsAdded commit) :
    PushStep (remote db "1") (.getBranch (clonePush commit)) (remote db "1")
      (.pushCommits (clonePush commit) false) := by
  apply PushStep.getBranch _ _ ∅
  exact h.isAhead.check_returns (local_clonePush h) (unnamed commit) h.differs ∅

theorem uploads (commit : CommitNode) (db : NodeStore) (head : String) :
    PushStep (remote db head) (.pushCommits (clonePush commit) false)
      (remote (db.write { node := .commit commit }) head) (.updateBranch (clonePush commit)) := by
  apply PushStep.pushCommits _ _ false [{ node := .commit commit }]
  intro node hnode
  rw [List.mem_singleton.mp hnode]
  simp [clonePush, NodeStore.write]

theorem applies {head : String} (hstored : getByHash db commit.hash = some commit) :
    PushStep (remote db head) (.updateBranch (clonePush commit))
      (remote db commit.hash.display) (.returned (clonePush commit) (.ok ())) := by
  have hmem : "main" ∈ (remote db head).refs.branches :=
    (AList.mem_insert _).mpr (.inl rfl)
  have hsame : (remote db commit.hash.display).refs =
      { (remote db head).refs with
        branches := (remote db head).refs.branches.insert "main" commit.hash.display } := by
    simp [remote]
  exact .updateBranch _ _ _
    ((Branches.update_of_mem hstored hmem).trans (congrArg Except.ok hsame.symm))

/-- A push checks and uploads its commit, while the branch stays as it is. -/
theorem IsAdded.sends (h : IsAdded commit) (hpush : pushes i = .getBranch (clonePush commit)) :
    Relation.ReflTransGen RemoteStepOnHead ⟨remote db "1", pushes⟩
      ⟨remote (db.write { node := .commit commit }) "1",
        Function.update pushes i (.updateBranch (clonePush commit))⟩ := by
  rw [← Function.update_eq_self i pushes, hpush, Function.update_idem]
  apply Relation.ReflTransGen.tail (.single (.update trivial h.reads))
  exact .update trivial (uploads commit db "1")

theorem IsAdded.onHead (h : IsAdded commit) :
    (PushState.updateBranch (clonePush commit)).OnHead (remote db "1") := by
  refine ⟨unnamed commit, fun text htext => ?_⟩
  have hlookup : (remote db "1").refs.branches.lookup "main" = some "1" := AList.lookup_insert _
  obtain rfl := Option.some.inj (hlookup.symm.trans htext)
  exact h.isAhead

theorem getByHash_sent (commit : CommitNode) (db : NodeStore) :
    getByHash (db.write { node := .commit commit }) commit.hash = some commit := by
  rw [@getByHash_write db commit _ rfl, if_pos rfl]

theorem start_starts : start.Starts graph where
  start i := ⟨_, rfl⟩
  localPush i := by
    by_cases hi : i = 0
    · simpa [start, hi, PushState.push] using local_clonePush two_isAdded
    · simpa [start, hi, PushState.push] using local_clonePush three_isAdded

def returned (commit : CommitNode) : PushState :=
  .returned (clonePush commit) (.ok ())

/-- One push on its own. -/
theorem pushed :
    Relation.ReflTransGen RemoteStepOnHead start
      ⟨remote (baseStore.write { node := .commit (commitNode 2 [1] 2) })
        (commitNode 2 [1] 2).hash.display,
        Function.update start.pushes 0 (returned (commitNode 2 [1] 2))⟩ := by
  apply Relation.ReflTransGen.tail (two_isAdded.sends (i := 0) rfl)
  exact .update two_isAdded.onHead (applies (getByHash_sent _ _))

/-- The store after both uploads. -/
def stored : NodeStore :=
  (baseStore.write { node := .commit (commitNode 3 [1] 3) }).write
    { node := .commit (commitNode 2 [1] 2) }

/-- Both pushes do their check before either moves the branch. -/
theorem both_pushed :
    Relation.ReflTransGen RemoteStep start
      ⟨remote stored (commitNode 3 [1] 3).hash.display,
        Function.update (Function.update start.pushes 0 (returned (commitNode 2 [1] 2))) 1
          (returned (commitNode 3 [1] 3))⟩ := by
  have hsends : Relation.ReflTransGen RemoteStepOnHead start
      ⟨remote stored "1", Function.update
        (Function.update start.pushes 1 (.updateBranch (clonePush (commitNode 3 [1] 3)))) 0
          (.updateBranch (clonePush (commitNode 2 [1] 2)))⟩ :=
    (three_isAdded.sends (i := 1) rfl).trans (two_isAdded.sends (i := 0) rfl)
  have htwo : RemoteStepOnHead
      ⟨remote stored "1", Function.update
        (Function.update start.pushes 1 (.updateBranch (clonePush (commitNode 3 [1] 3)))) 0
          (.updateBranch (clonePush (commitNode 2 [1] 2)))⟩
      ⟨remote stored (commitNode 2 [1] 2).hash.display, Function.update
        (Function.update start.pushes 1 (.updateBranch (clonePush (commitNode 3 [1] 3)))) 0
          (returned (commitNode 2 [1] 2))⟩ :=
    .update two_isAdded.onHead (applies (getByHash_sent _ _))
  have hthree : getByHash stored (commitNode 3 [1] 3).hash = some (commitNode 3 [1] 3) := by
    decide
  have hcomm := Function.update_comm (by decide : (1 : ℕ) ≠ 0)
    (.updateBranch (clonePush (commitNode 3 [1] 3))) (returned (commitNode 2 [1] 2)) start.pushes
  rw [hcomm] at htwo
  have hboth := Relation.ReflTransGen.mono (fun _ _ hstep => hstep.toRemoteStep) _ _
    (hsends.tail htwo)
  exact hboth.tail (.update (applies hthree))

theorem not_headReaches :
    ¬ HeadReaches graph (remote stored (commitNode 3 [1] 3).hash.display).refs "main" 2 := by
  rintro ⟨head, hlookup, hr⟩
  have hthree : (remote stored (commitNode 3 [1] 3).hash.display).refs.branches.lookup "main" =
      some (commitNode 3 [1] 3).hash.display := AList.lookup_insert _
  obtain rfl := MerkleHash.display_injective (Option.some.inj (hthree.symm.trans hlookup))
  rcases Relation.ReflTransGen.cases_head hr with h | ⟨x, hx, h⟩
  · exact absurd h (by decide)
  obtain rfl : x = 1 := by simpa [graph, commitNode] using hx
  rcases Relation.ReflTransGen.cases_head h with h | ⟨x, hx, -⟩
  · exact absurd h (by decide)
  · exact absurd hx (by simp [graph])

end PushExample

/-- One push on its own. -/
theorem keepsPushed_of_onHead_example :
    (⟨PushExample.remote (PushExample.baseStore.write
        { node := .commit (HistoryExample.commitNode 2 [1] 2) })
      (HistoryExample.commitNode 2 [1] 2).hash.display,
      Function.update PushExample.start.pushes 0
        (PushExample.returned (HistoryExample.commitNode 2 [1] 2))⟩ : Remote).KeepsPushed
      PushExample.graph :=
  (keepsPushed_of_onHead PushExample.start_starts PushExample.pushed).1

/-- Of two unforced pushes that do their check before either moves the branch, the
second one drops the commit of the first one, which returned. -/
theorem not_keepsPushed :
    ¬ ∀ (parents : MerkleHash → List MerkleHash) (s s' : Remote), s.Starts parents →
      (∀ i, (s.pushes i).push.force = false) → Relation.ReflTransGen RemoteStep s s' →
      s'.KeepsPushed parents := by
  intro h
  have hkept := h PushExample.graph _ _ PushExample.start_starts (fun _ => rfl)
    PushExample.both_pushed
  exact PushExample.not_headReaches (hkept 0 _ rfl)

end Oxen
