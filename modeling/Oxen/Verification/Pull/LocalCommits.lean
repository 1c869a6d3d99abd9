import Oxen.Verification.Pull.FetchAll
import Oxen.Verification.Pull.MergeCommits

/-! Fetches and pulls keep the commits of the local branches when every branch that
they set is covered. -/

namespace Oxen

open Commits CommitWriter ClientMerge Fetch KeyedMap Fuel

variable {s s' : Repository} {call : PullCall} {head new : CommitNode} {db : NodeStore}
  {name commitId : String}

/-! ## The branches that a pull sets -/

namespace PullCall

/-- The pull gets as far as bringing the commit into HEAD. -/
def Brings (call : PullCall) (s : Repository) (new : CommitNode) : Prop :=
  ∃ remoteBranch, (call.fetch s).2 = .ok remoteBranch ∧
    Revisions.get (call.fetch s).1.db (call.fetch s).1.refs remoteBranch.commitId = .ok (some new)

/-- The branch can be set, or created. -/
def CanSet (call : PullCall) (refs : Refs) : Prop :=
  call.opts.branch ∈ refs.branches ∨ Branches.isInvalidBranchName call.opts.branch = false

instance (refs : Refs) : Decidable (call.CanSet refs) :=
  inferInstanceAs (Decidable (_ ∨ _))

/-- The fetch sets the branch when the remote has it at HEAD's commit. -/
def upToDateWrites (call : PullCall) (s : Repository) (head : CommitNode) : List RefWrite :=
  match call.answer.commitId with
  | .ok (some commitId) =>
      if isUpToDate (some head) call.opts commitId then
        [(call.opts.branch, commitId, HistoryOf (call.fetch s).1.db commitId)]
      else []
  | _ => []

/-- The branch as it is set to a commit that is there. -/
def branchWrites (call : PullCall) (refs : Refs) (commitId : String) (history : Set MerkleHash) :
    List RefWrite :=
  if call.CanSet refs then [(call.opts.branch, commitId, history)] else []

/-- A merge sets HEAD's branch, and when it succeeds the branch of the pull. -/
def mergeWrites (call : PullCall) (refs : Refs) (headBranch commitId : String)
    (history : Set MerkleHash) (done : Bool) : List RefWrite :=
  (headBranch, commitId, history) :: if done then call.branchWrites refs commitId history else []

/-- The ids of the merge commit are new. -/
def NewIds (call : PullCall) (s : Repository) : Prop :=
  ∀ head new staged, headCommitMaybe s.db s.refs = .ok (some head) → call.Brings s new →
    call.client.files = .merged staged →
      Oxen.NewIds { (call.fetch s).1 with staged }
        (createMergeCommit call.env (call.fetch s).1 head new staged).ops

/-- The branches that the pull sets are covered. With a HEAD commit these are the
branch itself if the remote has it at this commit, and HEAD's branch and the branch
if there is something to merge; without one it is the branch itself. -/
structure Covered (call : PullCall) (s : Repository) : Prop where
  merged : ∀ head headBranch new history done, headCommitMaybe s.db s.refs = .ok (some head) →
    s.refs.headFile = some headBranch → call.Brings s new →
    Merges call.env call.client (call.fetch s).1 head new history done →
      CoversWrites s (call.fetch s).1.db (histories (call.upToDateWrites s head ++
        call.mergeWrites (call.fetch s).1.refs headBranch new.hash.display history done))
  upToDate : ∀ head, headCommitMaybe s.db s.refs = .ok (some head) →
    (∀ new history done, call.Brings s new →
      ¬ Merges call.env call.client (call.fetch s).1 head new history done) →
      CoversWrites s (call.fetch s).1.db (histories (call.upToDateWrites s head))
  first : ∀ new, headCommitMaybe s.db s.refs = .ok none → call.Brings s new →
    CoversWrites s (call.fetch s).1.db (histories (call.branchWrites (call.fetch s).1.refs
      new.hash.display (HistoryOf (call.fetch s).1.db new.hash.display)))

end PullCall

/-! ## The fetch of a pull -/

theorem PullCall.fetch_keeps (hk : s.db.Keyed) :
    KeepsCommits s.db (call.fetch s).1.db ∧ (call.fetch s).1.db.Keyed :=
  fetchRemoteBranch_keeps hk

theorem PullCall.refs_fetch (hhead : headCommitMaybe s.db s.refs = .ok (some head)) :
    (call.fetch s).1.refs =
      { s.refs with
        branches := insertAll s.refs.branches (commitIds (call.upToDateWrites s head)) } := by
  have hrefs := @refs_fetchRemoteBranch s call.remoteMode
    { call.opts with shouldUpdateBranchHead := false } call.answer (some head) hhead rfl
  rw [PullCall.fetch, hrefs, PullCall.upToDateWrites]
  rcases call.answer.commitId with e | _ | commitId
  · rfl
  · rfl
  · dsimp only
    by_cases hup : isUpToDate (some head) call.opts commitId = true
    · rw [if_pos hup]
      exact if_pos hup
    · rw [if_neg hup]
      exact if_neg hup

/-- Without a HEAD commit the fetch sets nothing. -/
theorem PullCall.refs_fetch_none (hhead : headCommitMaybe s.db s.refs = .ok none) :
    (call.fetch s).1.refs = s.refs := by
  have hrefs := @refs_fetchRemoteBranch s call.remoteMode
    { call.opts with shouldUpdateBranchHead := false } call.answer none hhead rfl
  rw [PullCall.fetch, hrefs]
  rcases call.answer.commitId with e | _ | commitId
  · rfl
  · rfl
  · simp [isUpToDate, isHead]

/-- What the rest of a pull adds to the writes of its fetch. -/
theorem PullCall.carriesOut {writes : List RefWrite} (hk : s.db.Keyed) (hs : OnBranch s)
    (hhead : headCommitMaybe s.db s.refs = .ok (some head)) (hkeyed : s'.db.Keyed)
    (hkeeps : KeepsCommits (call.fetch s).1.db s'.db) (hfile : s'.refs.headFile = s.refs.headFile)
    (hbranches : s'.refs.branches = insertAll (call.fetch s).1.refs.branches (commitIds writes))
    (hsame : ∀ x id, (getByHash (call.fetch s).1.db x).isSome →
      ∀ name, (call.fetch s).1.refs.branches.lookup name = some id →
        (x ∈ HistoryOf s'.db id ↔ x ∈ HistoryOf (call.fetch s).1.db id))
    (hwrites : ∀ x, (getByHash (call.fetch s).1.db x).isSome → ∀ write ∈ writes,
      (x ∈ HistoryOf s'.db write.2.1 ↔ x ∈ write.2.2)) :
    CarriesOut s (call.fetch s).1.db (histories (call.upToDateWrites s head ++ writes)) s' := by
  have hfetch := @PullCall.fetch_keeps s call hk
  have hrefs := @PullCall.refs_fetch s call head hhead
  have hstored : ∀ x, (getByHash s.db x).isSome → (getByHash (call.fetch s).1.db x).isSome := by
    intro x hx
    rcases Option.isSome_iff_exists.mp hx with ⟨commit, hget⟩
    rcases hfetch.1 x commit hget with ⟨commit', hget', -⟩
    rw [hget', Option.isSome_some]
  have hlookup : ∀ name, (call.fetch s).1.refs.branches.lookup name =
      ((insertAll ∅ (commitIds (call.upToDateWrites s head))).lookup name).or
        (s.refs.branches.lookup name) := by
    intro name
    rw [hrefs, lookup_insertAll]
  have hall : s'.refs.branches =
      insertAll s.refs.branches (commitIds (call.upToDateWrites s head ++ writes)) := by
    rw [hbranches, hrefs, commitIds, commitIds, commitIds, List.map_append, insertAll_append]
  refine CarriesOut.of_insertAll hkeyed hfetch.2 hfetch.1 (hfetch.1.trans hkeeps) ?_ hall ?_ ?_
  · intro name hname
    rw [hfile] at hname
    rcases hs.named name hname with hmem | hparse
    · rw [hall]
      exact .inl (mem_insertAll.mpr (.inl hmem))
    · exact .inr hparse
  · intro x hx name id hname hid
    apply hsame x id (hstored x hx) name
    have hnone : (insertAll ∅ (commitIds (call.upToDateWrites s head))).lookup name = none := by
      rw [lookup_insertAll_empty_eq_none, commitIds, List.map_map]
      intro hmem
      rw [List.map_append] at hname
      exact hname (List.mem_append_left _ hmem)
    rw [hlookup, hnone, Option.none_or, hid]
  · intro x hx write hwrite
    rcases List.mem_append.mp hwrite with hwrite | hwrite
    · -- the branch that the fetch has set
      have hup : call.upToDateWrites s head =
          [(write.1, write.2.1, HistoryOf (call.fetch s).1.db write.2.1)] ∧
            write.2.2 = HistoryOf (call.fetch s).1.db write.2.1 := by
        rw [PullCall.upToDateWrites] at hwrite ⊢
        split at hwrite
        · split at hwrite
          · next hup =>
            obtain rfl := List.mem_singleton.mp hwrite
            exact ⟨if_pos hup, rfl⟩
          · simp at hwrite
        · simp at hwrite
      rw [hup.2]
      apply hsame x write.2.1 (hstored x hx) write.1
      rw [hlookup, hup.1]
      have hself : (insertAll (∅ : Map String String) [(write.1, write.2.1)]).lookup write.1 =
          some write.2.1 := AList.lookup_insert _
      rw [commitIds, List.map_singleton, hself, Option.some_or]
    · exact hwrites x (hstored x hx) write hwrite

/-! ## Setting the branch -/

theorem updateBranch_spec {repo : Repository} (hstored : (getById repo.db commitId).isSome) :
    (call.CanSet repo.refs ∧ Fetch.updateBranch repo call.opts.branch commitId =
        (RepoOp.apply repo (.setBranchCommitId call.opts.branch commitId), .ok ())) ∨
      (¬ call.CanSet repo.refs ∧ ∃ e, Fetch.updateBranch repo call.opts.branch commitId =
        (repo, .error e)) := by
  rcases Option.isSome_iff_exists.mp hstored with ⟨commit, hget⟩
  rw [PullCall.CanSet, Fetch.updateBranch, Branches.update, if_neg (by simp [hget])]
  by_cases hmem : call.opts.branch ∈ repo.refs.branches
  · rw [if_pos hmem]
    exact .inl ⟨.inl hmem, rfl⟩
  · rw [if_neg hmem, Branches.checkCreate, if_neg (by simp [hget])]
    cases hname : Branches.isInvalidBranchName call.opts.branch with
    | false =>
        rw [if_neg (by simp), if_neg hmem]
        exact .inl ⟨.inr rfl, rfl⟩
    | true =>
        rw [if_pos rfl]
        exact .inr ⟨by simp [hmem], _, rfl⟩

theorem PullCall.Brings.unique {new' : CommitNode} (h : call.Brings s new) (h' : call.Brings s new') :
    new = new' := by
  rcases h with ⟨remoteBranch, hfetch, hget⟩
  rcases h' with ⟨remoteBranch', hfetch', hget'⟩
  rw [hfetch] at hfetch'
  obtain rfl := Except.ok.inj hfetch'
  rw [hget] at hget'
  exact Option.some.inj (Except.ok.inj hget')

theorem PullCall.Brings.isStored (h : call.Brings s new) (hk : s.db.Keyed) :
    IsStored (call.fetch s).1.db new := by
  rcases h with ⟨remoteBranch, -, hget⟩
  exact isStored_of_get (fetch_keeps hk).2 hget

/-! ## Without a HEAD commit -/

/-- The state after a pull that checks its branch out. -/
theorem checkout_carriesOut (hk : s.db.Keyed) (hs : OnBranch s)
    (hhead : headCommitMaybe s.db s.refs = .ok none) (hbrings : call.Brings s new) :
    CarriesOut s (call.fetch s).1.db (histories (call.branchWrites (call.fetch s).1.refs
      new.hash.display (HistoryOf (call.fetch s).1.db new.hash.display)))
      (call.checkout (call.fetch s).1 new).1 := by
  have hfetch := @PullCall.fetch_keeps s call hk
  have hrefs := @PullCall.refs_fetch_none s call hhead
  have hnew : IsStored (call.fetch s).1.db new := hbrings.isStored hk
  have hstored : (getById (call.fetch s).1.db new.hash.display).isSome := by
    rw [IsStored] at hnew
    rw [getById_display, hnew, Option.isSome_some]
  generalize hfetched : (call.fetch s).1 = fetched at *
  rcases @updateBranch_spec call new.hash.display fetched hstored with ⟨hset, hupdate⟩ | ⟨hset, e, hupdate⟩
  · have hstate : ∃ headFile, (headFile = s.refs.headFile ∨ headFile = some call.opts.branch) ∧
        (call.checkout fetched new).1.db = fetched.db ∧
        (call.checkout fetched new).1.refs =
          { headFile, branches := fetched.refs.branches.insert call.opts.branch new.hash.display } := by
      rw [PullCall.checkout, hupdate]
      dsimp only
      split
      · exact ⟨_, .inl (congrArg Refs.headFile hrefs), rfl, rfl⟩
      split
      · exact ⟨_, .inr rfl, rfl, rfl⟩
      · exact ⟨_, .inl (congrArg Refs.headFile hrefs), rfl, rfl⟩
    rcases hstate with ⟨headFile, hfile, hdb, hrefs'⟩
    have hall : (call.checkout fetched new).1.refs.branches = insertAll s.refs.branches
        (commitIds (call.branchWrites fetched.refs new.hash.display
          (HistoryOf fetched.db new.hash.display))) := by
      rw [hrefs', hrefs, PullCall.branchWrites, if_pos (hrefs ▸ hset)]
      rfl
    refine CarriesOut.of_insertAll (hdb ▸ hfetch.2) hfetch.2 hfetch.1 (hdb ▸ hfetch.1) ?_ hall ?_ ?_
    · intro name hname
      rw [hrefs'] at hname ⊢
      rcases hfile with rfl | rfl
      · rcases hs.named name hname with hmem | hparse
        · rw [hrefs]
          exact .inl (AList.mem_insert _ |>.mpr (.inr hmem))
        · exact .inr hparse
      · obtain rfl := Option.some.inj hname
        exact .inl (AList.mem_insert _ |>.mpr (.inl rfl))
    · intro x _ name id _ _
      rw [hdb]
    · intro x _ write hwrite
      rw [hdb]
      rw [PullCall.branchWrites, if_pos hset] at hwrite
      rw [List.mem_singleton.mp hwrite]
  · have hstate : (call.checkout fetched new).1 = fetched := by
      rw [PullCall.checkout, hupdate]
    rw [hstate, PullCall.branchWrites, if_neg hset]
    refine CarriesOut.of_insertAll hfetch.2 hfetch.2 hfetch.1 hfetch.1 ?_ ?_ ?_ ?_
    · rw [hrefs]
      exact hs.named
    · rw [hrefs]
      rfl
    · exact fun _ _ _ _ _ _ => Iff.rfl
    · simp

/-! ## With a HEAD commit -/

/-- The branch that HEAD is on. -/
theorem exists_headBranch (hs : OnBranch s) (hhead : headCommitMaybe s.db s.refs = .ok (some head)) :
    ∃ headBranch, s.refs.headFile = some headBranch ∧ headBranch ∈ s.refs.branches := by
  rcases headCommitMaybe_eq_some_iff.mp hhead with ⟨commitId, hid, -⟩
  rw [headCommitId_of_named hs.named, Option.bind_eq_some_iff] at hid
  rcases hid with ⟨headBranch, hfile, hlookup⟩
  exact ⟨headBranch, hfile, AList.lookup_isSome.mp (Option.isSome_of_eq_some hlookup)⟩

theorem PullCall.headBranch_fetch {headBranch : String}
    (hhead : headCommitMaybe s.db s.refs = .ok (some head))
    (hfile : s.refs.headFile = some headBranch) (hbranch : headBranch ∈ s.refs.branches) :
    (call.fetch s).1.refs.headFile = some headBranch ∧
      headBranch ∈ (call.fetch s).1.refs.branches := by
  rw [PullCall.refs_fetch hhead]
  exact ⟨hfile, mem_insertAll.mpr (.inl hbranch)⟩

/-- The state after the fetch of a pull. -/
theorem PullCall.fetch_carriesOut (hk : s.db.Keyed) (hs : OnBranch s)
    (hhead : headCommitMaybe s.db s.refs = .ok (some head)) :
    CarriesOut s (call.fetch s).1.db (histories (call.upToDateWrites s head)) (call.fetch s).1 := by
  have hfetch := @PullCall.fetch_keeps s call hk
  have hcarries := @PullCall.carriesOut s (call.fetch s).1 call head [] hk hs hhead hfetch.2 .refl
    (by rw [refs_fetch hhead]) rfl (fun _ _ _ _ _ => Iff.rfl) (by simp)
  rwa [List.append_nil] at hcarries

theorem mergeCommits_effect {headBranch : String} {lca : Option MerkleHash} (hk : s.db.Keyed)
    (hhead : headCommitMaybe s.db s.refs = .ok (some head))
    (hfile : s.refs.headFile = some headBranch) (hbranch : headBranch ∈ s.refs.branches)
    (hbrings : call.Brings s new) (hnew : call.NewIds s) (hne : head.hash ≠ new.hash)
    (hlca : FindsAncestor call.client.iter (call.fetch s).1 head new (.ok lca)) :
    MergeEffect call.env call.client (call.fetch s).1 head new headBranch
      (ClientMerge.mergeCommits call.env (call.fetch s).1 lca head new call.client).1
      (ClientMerge.mergeCommits call.env (call.fetch s).1 lca head new call.client).2 := by
  have hk' := (@PullCall.fetch_keeps s call hk).2
  rcases @PullCall.headBranch_fetch s call head headBranch hhead hfile hbranch with ⟨hfile', hbranch'⟩
  have hids := fun staged hfiles => hnew head new staged hhead hbrings hfiles
  rw [ClientMerge.mergeCommits]
  by_cases hmarker : call.client.marker.any (· ≠ new.hash.display)
  · rw [if_pos hmarker]
    refine .kept rfl .refl hk' (fun _ _ _ _ _ => Iff.rfl) (by simp) ?_
    have hall : ¬ call.client.marker.all (· = new.hash.display) := by
      cases hvalue : call.client.marker with
      | none => simp [hvalue] at hmarker
      | some value => simpa [hvalue] using hmarker
    rintro history done (⟨_, _, hall', _⟩ | ⟨_, _, _, hall', _⟩)
    · exact hall hall'
    · exact hall hall'
  · have hall : call.client.marker.all (· = new.hash.display) := by
      cases hvalue : call.client.marker with
      | none => rfl
      | some value => simpa [hvalue] using hmarker
    rw [if_neg hmarker]
    split
    · next heq =>
      rw [heq] at hlca
      exact fastForwardMerge_effect hk' hfile' hbranch' hne (hbrings.isStored hk) hlca hall
    · next hlca' => exact threeWayMerge_effect hk' hfile' hbranch' hne hlca hlca' hall hids

/-- The state after a pull that merges, or stops before it has moved HEAD's branch. -/
theorem merge_carriesOut {headBranch : String} {lca : Option MerkleHash} (hk : s.db.Keyed)
    (hs : OnBranch s) (hhead : headCommitMaybe s.db s.refs = .ok (some head))
    (hfile : s.refs.headFile = some headBranch) (hbranch : headBranch ∈ s.refs.branches)
    (hbrings : call.Brings s new) (hnew : call.NewIds s) (hne : head.hash ≠ new.hash)
    (hlca : FindsAncestor call.client.iter (call.fetch s).1 head new (.ok lca)) :
    ((∀ history done, ¬ Merges call.env call.client (call.fetch s).1 head new history done) ∧
      CarriesOut s (call.fetch s).1.db (histories (call.upToDateWrites s head))
        (call.merge (call.fetch s).1 lca head new).1) ∨
    ∃ history done, Merges call.env call.client (call.fetch s).1 head new history done ∧
      ∃ id : String, CarriesOut s (call.fetch s).1.db (histories (call.upToDateWrites s head ++
        call.mergeWrites (call.fetch s).1.refs headBranch id history done))
        (call.merge (call.fetch s).1 lca head new).1 := by
  have heffect := mergeCommits_effect hk hhead hfile hbranch hbrings hnew hne hlca
  have hrefs := @PullCall.refs_fetch s call head hhead
  have hfile' := congrArg Refs.headFile hrefs
  generalize hmerge :
    ClientMerge.mergeCommits call.env (call.fetch s).1 lca head new call.client = merged at heffect
  rcases merged with ⟨repo, result⟩
  cases heffect with
  | kept hrefs' hkeeps hkeyed hhistory hresult hnot =>
      refine .inl ⟨hnot, ?_⟩
      have hstate : (call.merge (call.fetch s).1 lca head new).1 = repo := by
        rw [PullCall.merge, hmerge]
        rcases result with e | _ | id
        · rfl
        · rfl
        · exact absurd rfl (hresult id)
      have hcarries := @PullCall.carriesOut s repo call head [] hk hs hhead hkeyed hkeeps
        (by rw [hrefs', hfile']) (by rw [hrefs']; rfl)
        (fun x id hx name hlookup => hhistory x id hx name hlookup) (by simp)
      rw [hstate]
      rwa [List.append_nil] at hcarries
  | @moved history done id hmerges hrefs' hkeeps hkeyed hbranches hhistory hstored hdone hfailed =>
      refine .inr ⟨history, done, hmerges, id.display, ?_⟩
      cases done with
      | false =>
          rcases hfailed rfl with ⟨e, rfl⟩
          have hstate : (call.merge (call.fetch s).1 lca head new).1 = repo := by
            rw [PullCall.merge, hmerge]
          rw [hstate]
          apply PullCall.carriesOut hk hs hhead hkeyed hkeeps
          · rw [hrefs', ← hfile']
          · rw [hrefs']
            rfl
          · exact fun x id hx name hlookup => hbranches x id hx name hlookup
          · intro x hx write hwrite
            obtain rfl : write = (headBranch, id.display, history) := by
              simpa [PullCall.mergeWrites] using hwrite
            exact hhistory x hx
      | true =>
          obtain rfl := hdone rfl
          have hcanSet : call.CanSet repo.refs ↔ call.CanSet (call.fetch s).1.refs := by
            rw [PullCall.CanSet, PullCall.CanSet, hrefs', AList.mem_insert, hrefs, mem_insertAll]
            constructor
            · rintro ((rfl | hmem) | hvalid)
              · exact .inl (.inl hbranch)
              · exact .inl hmem
              · exact .inr hvalid
            · rintro (hmem | hvalid)
              · exact .inl (.inr hmem)
              · exact .inr hvalid
          have hwrites : ∀ x, (getByHash (call.fetch s).1.db x).isSome → ∀ write ∈
              call.mergeWrites (call.fetch s).1.refs headBranch id.display history true,
              (x ∈ HistoryOf repo.db write.2.1 ↔ x ∈ write.2.2) := by
            intro x hx write hwrite
            rcases List.mem_cons.mp hwrite with rfl | hwrite
            · exact hhistory x hx
            · rw [if_pos rfl, PullCall.branchWrites] at hwrite
              split at hwrite
              · rw [List.mem_singleton.mp hwrite]
                exact hhistory x hx
              · simp at hwrite
          rcases @updateBranch_spec call id.display repo hstored with ⟨hset, hupdate⟩ | ⟨hset, e, hupdate⟩
          · have hstate : (call.merge (call.fetch s).1 lca head new).1 =
                RepoOp.apply repo (.setBranchCommitId call.opts.branch id.display) := by
              rw [PullCall.merge, hmerge]
              dsimp only
              rw [hupdate]
            rw [hstate]
            refine PullCall.carriesOut hk hs hhead hkeyed hkeeps ?_ ?_
              (fun x id hx name hlookup => hbranches x id hx name hlookup) hwrites
            · change repo.refs.headFile = _
              rw [hrefs', ← hfile']
            · change repo.refs.branches.insert call.opts.branch id.display = _
              rw [hrefs', PullCall.mergeWrites, if_pos rfl, PullCall.branchWrites,
                if_pos (hcanSet.mp hset)]
              rfl
          · have hstate : (call.merge (call.fetch s).1 lca head new).1 = repo := by
              rw [PullCall.merge, hmerge]
              dsimp only
              rw [hupdate]
            rw [hstate]
            refine PullCall.carriesOut hk hs hhead hkeyed hkeeps ?_ ?_
              (fun x id hx name hlookup => hbranches x id hx name hlookup) hwrites
            · rw [hrefs', ← hfile']
            · rw [hrefs', PullCall.mergeWrites, if_pos rfl, PullCall.branchWrites,
                if_neg fun h => hset (hcanSet.mpr h)]
              rfl

/-! ## Whole calls -/

/-- A pull that brings nothing into HEAD leaves the branches as its fetch does. -/
theorem upToDate_iff (hk : s.db.Keyed) (hs : OnBranch s)
    (hhead : headCommitMaybe s.db s.refs = .ok (some head))
    (hcarries : CarriesOut s (call.fetch s).1.db (histories (call.upToDateWrites s head)) s')
    (hnot : ∀ new history done, call.Brings s new →
      ¬ Merges call.env call.client (call.fetch s).1 head new history done) :
    LocalCommits s ⊆ LocalCommits s' ↔ call.Covered s := by
  rw [hcarries.subset_iff hk hs]
  constructor
  · intro hcovers
    refine ⟨?_, ?_, ?_⟩
    · intro head' headBranch new history done hhead' _ hbrings hmerges
      rw [hhead] at hhead'
      obtain rfl := Option.some.inj (Except.ok.inj hhead')
      exact absurd hmerges (hnot new history done hbrings)
    · intro head' hhead' _
      rw [hhead] at hhead'
      obtain rfl := Option.some.inj (Except.ok.inj hhead')
      exact hcovers
    · intro new hnone
      rw [hhead] at hnone
      cases hnone
  · exact fun hcovered => hcovered.upToDate head hhead hnot

theorem covered_of_none (hhead : headCommitMaybe s.db s.refs = .ok none)
    (hfirst : ∀ new, call.Brings s new → CoversWrites s (call.fetch s).1.db
      (histories (call.branchWrites (call.fetch s).1.refs new.hash.display
        (HistoryOf (call.fetch s).1.db new.hash.display)))) : call.Covered s where
  merged := by
    intro head headBranch new history done hhead'
    rw [hhead] at hhead'
    cases hhead'
  upToDate := by
    intro head hhead'
    rw [hhead] at hhead'
    cases hhead'
  first := fun new _ => hfirst new

/-- A pull brings the commit that it finds, and else stops after its fetch. -/
theorem pullRemoteBranch_cases {fuel : ℕ} {result : Except FetchError Unit}
    {previousHead : Option CommitNode} (hpre : call.prePull = .ok ())
    (hhead : headCommitMaybe s.db s.refs = .ok previousHead)
    (hrun : call.pullRemoteBranch s fuel = some (s', result)) :
    ((∀ new, ¬ call.Brings s new) ∧ s' = (call.fetch s).1) ∨
      ∃ new, call.Brings s new ∧
        call.integrate fuel (call.fetch s).1 previousHead new = some (s', result) := by
  simp only [PullCall.pullRemoteBranch, hpre, hhead] at hrun
  generalize hfetch : call.fetch s = fetched at hrun
  rcases fetched with ⟨fetched, e | remoteBranch⟩
  · refine .inl ⟨?_, ?_⟩
    · rintro new ⟨remoteBranch, hok, -⟩
      rw [hfetch] at hok
      cases hok
    · exact (Prod.mk.inj (Option.some.inj hrun)).1.symm
  · dsimp only at hrun
    rcases hget : Revisions.get fetched.db fetched.refs remoteBranch.commitId with e | _ | new
    · rw [hget] at hrun
      refine .inl ⟨?_, (Prod.mk.inj (Option.some.inj hrun)).1.symm⟩
      rintro new ⟨remoteBranch', hok, hget'⟩
      rw [hfetch] at hok hget'
      obtain rfl := Except.ok.inj hok
      rw [hget] at hget'
      cases hget'
    · rw [hget] at hrun
      refine .inl ⟨?_, (Prod.mk.inj (Option.some.inj hrun)).1.symm⟩
      rintro new ⟨remoteBranch', hok, hget'⟩
      rw [hfetch] at hok hget'
      obtain rfl := Except.ok.inj hok
      rw [hget] at hget'
      cases hget'
    · rw [hget] at hrun
      exact .inr ⟨new, ⟨remoteBranch, by rw [hfetch], by rw [hfetch]; exact hget⟩, hrun⟩

/-- A pull that moves HEAD's branch. -/
theorem merged_iff {headBranch id : String} {history : Set MerkleHash} {done : Bool}
    (hk : s.db.Keyed) (hs : OnBranch s) (hhead : headCommitMaybe s.db s.refs = .ok (some head))
    (hfile : s.refs.headFile = some headBranch) (hbrings : call.Brings s new)
    (hmerges : Merges call.env call.client (call.fetch s).1 head new history done)
    (hcarries : CarriesOut s (call.fetch s).1.db (histories (call.upToDateWrites s head ++
      call.mergeWrites (call.fetch s).1.refs headBranch id history done)) s') :
    LocalCommits s ⊆ LocalCommits s' ↔ call.Covered s := by
  have hwrites : ∀ id id' : String, histories (call.upToDateWrites s head ++
      call.mergeWrites (call.fetch s).1.refs headBranch id history done) =
      histories (call.upToDateWrites s head ++
        call.mergeWrites (call.fetch s).1.refs headBranch id' history done) := by
    intro id id'
    simp only [histories, List.map_append, PullCall.mergeWrites, List.map_cons,
      PullCall.branchWrites]
    split
    · split <;> rfl
    · rfl
  rw [hwrites id new.hash.display] at hcarries
  rw [hcarries.subset_iff hk hs]
  constructor
  · intro hcovers
    refine ⟨?_, ?_, ?_⟩
    · intro head' headBranch' new' history' done' hhead' hfile' hbrings' hmerges'
      rw [hhead] at hhead'
      obtain rfl := Option.some.inj (Except.ok.inj hhead')
      obtain rfl := Option.some.inj (hfile.symm.trans hfile')
      obtain rfl := hbrings.unique hbrings'
      rcases hmerges.unique hmerges' with ⟨rfl, rfl⟩
      exact hcovers
    · intro head' hhead' hnot
      rw [hhead] at hhead'
      obtain rfl := Option.some.inj (Except.ok.inj hhead')
      exact absurd hmerges (hnot new history done hbrings)
    · intro new' hnone
      rw [hhead] at hnone
      cases hnone
  · exact fun hcovered => hcovered.merged head headBranch new history done hhead hfile hbrings hmerges

theorem integrate_iff {fuel : ℕ} {result : Except FetchError Unit} (hk : s.db.Keyed)
    (hs : OnBranch s) (hnew : call.NewIds s)
    (hhead : headCommitMaybe s.db s.refs = .ok (some head)) (hbrings : call.Brings s new)
    (hrun : call.integrate fuel (call.fetch s).1 (some head) new = some (s', result)) :
    LocalCommits s ⊆ LocalCommits s' ↔ call.Covered s := by
  rcases exists_headBranch hs hhead with ⟨headBranch, hfile, hbranch⟩
  have hfetched := @PullCall.fetch_carriesOut s call head hk hs hhead
  rw [PullCall.integrate] at hrun
  by_cases heq : head.hash = new.hash
  · rw [if_pos heq] at hrun
    obtain rfl := (Prod.mk.inj (Option.some.inj hrun)).1
    refine upToDate_iff hk hs hhead hfetched ?_
    intro new' history done hbrings' hmerges
    obtain rfl := hbrings.unique hbrings'
    cases hmerges with
    | fastForward hne _ _ _ => exact hne heq
    | threeWay hne _ _ _ _ _ _ _ _ => exact hne heq
  · rw [if_neg heq] at hrun
    cases hlca : Merge.lowestCommonAncestorFromCommits call.client.iter (call.fetch s).1.db
        (call.fetch s).1.refs fuel head new with
    | none => rw [hlca] at hrun; cases hrun
    | some lca =>
        have hreturns : FindsAncestor call.client.iter (call.fetch s).1 head new lca :=
          ⟨fuel, fun fuel' hle => lowestCommonAncestorFromCommits_mono hlca hle⟩
        rw [hlca] at hrun
        cases lca with
        | error e =>
            obtain rfl := (Prod.mk.inj (Option.some.inj hrun)).1
            refine upToDate_iff hk hs hhead hfetched ?_
            intro new' history done hbrings' hmerges
            obtain rfl := hbrings.unique hbrings'
            cases hmerges with
            | fastForward _ hlca' _ _ => cases hreturns.unique hlca'
            | threeWay _ hlca' _ _ _ _ _ _ _ => cases hreturns.unique hlca'
        | ok lca =>
            have hstate : (call.merge (call.fetch s).1 lca head new).1 = s' :=
              congrArg Prod.fst (Option.some.inj hrun)
            rcases merge_carriesOut hk hs hhead hfile hbranch hbrings hnew heq hreturns with
              ⟨hnot, hcarries⟩ | ⟨history, done, hmerges, id, hcarries⟩
            · rw [hstate] at hcarries
              refine upToDate_iff hk hs hhead hcarries ?_
              intro new' history done hbrings' hmerges
              obtain rfl := hbrings.unique hbrings'
              exact hnot history done hmerges
            · rw [hstate] at hcarries
              exact merged_iff hk hs hhead hfile hbrings hmerges hcarries

theorem pull_iff_of_unborn {fuel : ℕ} {result : Except FetchError Unit} (hk : s.db.Keyed)
    (hs : OnBranch s) (hpre : call.prePull = .ok ())
    (hunborn : ∀ head, headCommitMaybe s.db s.refs ≠ .ok (some head))
    (hrun : call.pullRemoteBranch s fuel = some (s', result)) :
    LocalCommits s ⊆ LocalCommits s' ↔ call.Covered s := by
  have hnone := @headCommitMaybe_of_unborn s s.db hs hunborn
  rcases pullRemoteBranch_cases hpre hnone hrun with ⟨hno, rfl⟩ | ⟨new, hbrings, hintegrate⟩
  · have hfetch := @PullCall.fetch_keeps s call hk
    have hrefs := @PullCall.refs_fetch_none s call hnone
    have hquiet : Quiet s (call.fetch s).1 :=
      ⟨hfetch.2, hfetch.1, by rw [hrefs], fun name _ => by rw [hrefs]⟩
    refine iff_of_true (hquiet.subset hk hs) (covered_of_none hnone ?_)
    exact fun new hbrings => absurd hbrings (hno new)
  · have hstate : (call.checkout (call.fetch s).1 new).1 = s' :=
      congrArg Prod.fst (Option.some.inj hintegrate)
    have hcarries := @checkout_carriesOut s call new hk hs hnone hbrings
    rw [hstate] at hcarries
    rw [hcarries.subset_iff hk hs]
    constructor
    · intro hcovers
      refine covered_of_none hnone ?_
      intro new' hbrings'
      obtain rfl := hbrings.unique hbrings'
      exact hcovers
    · exact fun hcovered => hcovered.first new hnone hbrings

theorem pull_iff {fuel : ℕ} {result : Except FetchError Unit} (hk : s.db.Keyed) (hs : OnBranch s)
    (hnew : call.NewIds s) (hpre : call.prePull = .ok ())
    (hrun : call.pullRemoteBranch s fuel = some (s', result)) :
    LocalCommits s ⊆ LocalCommits s' ↔ call.Covered s := by
  by_cases hsome : ∃ head, headCommitMaybe s.db s.refs = .ok (some head)
  · rcases hsome with ⟨head, hhead⟩
    rcases pullRemoteBranch_cases hpre hhead hrun with ⟨hnone, rfl⟩ | ⟨new, hbrings, hintegrate⟩
    · exact upToDate_iff hk hs hhead (PullCall.fetch_carriesOut hk hs hhead)
        fun new _ _ hbrings => absurd hbrings (hnone new)
    · exact integrate_iff hk hs hnew hhead hbrings hintegrate
  · rw [not_exists] at hsome
    exact pull_iff_of_unborn hk hs hpre hsome hrun

namespace RefsCall

/-- The ids of the commit that a call makes are new. -/
def NewIds (s : Repository) : RefsCall → Prop
  | fetchAll _ _ => True
  | pullRemoteBranch call => call.NewIds s

/-- Every branch that the call sets is covered. -/
def Covered (s : Repository) : RefsCall → Prop
  | fetchAll remoteMode remote => FetchCovered remoteMode remote s
  | pullRemoteBranch call => call.prePull = .ok () → call.Covered s

end RefsCall

/-- Exactly the calls that cover the branches they set keep the local commits. -/
theorem keepsLocalCommits_iff {call : RefsCall} {fuel : ℕ} (hk : s.db.Keyed) (hs : OnBranch s)
    (hnew : call.NewIds s) (hrun : call.run s fuel = some s') :
    LocalCommits s ⊆ LocalCommits s' ↔ call.Covered s := by
  cases call with
  | fetchAll remoteMode remote =>
      obtain rfl := Option.some.inj hrun
      exact fetchAll_iff remote hk hs
  | pullRemoteBranch call =>
      rcases Option.map_eq_some_iff.mp hrun with ⟨⟨after, result⟩, hpull, rfl⟩
      cases hpre : call.prePull with
      | ok u =>
          refine (pull_iff hk hs hnew hpre hpull).trans ?_
          exact ⟨fun hcovered _ => hcovered, fun hcovered => hcovered hpre⟩
      | error e =>
          simp only [PullCall.pullRemoteBranch, hpre, Option.some.injEq, Prod.mk.injEq] at hpull
          obtain rfl := hpull.1
          refine iff_of_true subset_rfl ?_
          intro hok
          rw [hpre] at hok
          cases hok

namespace PullExample

open HistoryExample Exploration

/-- A branch that is one commit ahead of `main`. -/
def ahead : Repository where
  db := branched
  refs :=
    { headFile := some "main"
      branches := (AList.insert "main" "1" ∅).insert "dev" "2" }

def answerWith (commitId : String) : FetchAnswer where
  commitId := .ok (some commitId)
  keyed := by simp

/-- A remote with both branches. -/
def remote (dev : String) : RemoteAnswers where
  branches := .ok [⟨"main", "1"⟩, ⟨"dev", dev⟩]
  nodup := by
    intro remoteBranches h
    rw [← Except.ok.inj h]
    simp
  answer name := answerWith (if name = "dev" then dev else "1")

theorem ahead_onBranch : OnBranch ahead where
  named := by
    rintro name h
    obtain rfl := Option.some.inj h
    exact .inl (by decide)
  stored := by
    rintro name commitId h hlookup
    obtain rfl := Option.some.inj h
    have hmain : ahead.refs.branches.lookup "main" = some "1" := by decide
    rw [hmain] at hlookup
    obtain rfl := Option.some.inj hlookup
    decide

def fetched (dev : String) : Repository :=
  (Fetch.fetchAll false ahead {} (remote dev)).1

end PullExample

/-- The remote has the branch where the client has it. -/
theorem keepsLocalCommits_pushed :
    LocalCommits PullExample.ahead ⊆ LocalCommits (PullExample.fetched "2") := by
  have hiff := @keepsLocalCommits_iff PullExample.ahead (PullExample.fetched "2")
    (.fetchAll false (PullExample.remote "2")) 0 HistoryExample.branched_keyed
    PullExample.ahead_onBranch trivial rfl
  apply hiff.mpr
  intro head remoteBranches hhead hremote
  obtain rfl := Except.ok.inj hremote
  have hhead' : headCommitMaybe PullExample.ahead.db PullExample.ahead.refs =
      .ok (some (HistoryExample.commitNode 1 [] 1)) := by
    decide
  rw [hhead'] at hhead
  obtain rfl := Option.some.inj (Except.ok.inj hhead)
  have hwrites : fetchWrites false (HistoryExample.commitNode 1 [] 1)
      (PullExample.remote "2").answer PullExample.ahead.db
      (branchesToProcess PullExample.ahead.refs [⟨"main", "1"⟩, ⟨"dev", "2"⟩]) =
        [("main", "1")] := by
    decide
  intro nexts db
  rw [hwrites]
  intro name hname commitId hlookup commit hget
  obtain rfl : name = "main" := by simpa using hname
  have hmain : PullExample.ahead.refs.branches.lookup "main" = some "1" := by decide
  rw [hmain] at hlookup
  obtain rfl := Option.some.inj hlookup
  refine ⟨"main", commit, ?_, .refl⟩
  exact hget

/-- The remote has the branch at HEAD's commit, and the client has a commit on it that
is not pushed. -/
theorem not_keepsLocalCommits :
    ¬ ∀ (call : RefsCall) (s s' : Repository) (fuel : ℕ), s.db.Keyed → OnBranch s → call.NewIds s →
      call.run s fuel = some s' → LocalCommits s ⊆ LocalCommits s' := by
  intro h
  have hsub := h (.fetchAll false (PullExample.remote "1")) PullExample.ahead
    (PullExample.fetched "1") 0 HistoryExample.branched_keyed PullExample.ahead_onBranch trivial rfl
  have hlocal : (2 : MerkleHash) ∈ LocalCommits PullExample.ahead := by
    refine .inl ⟨"dev", "2", by decide, HistoryExample.commitNode 2 [1] 2, ?_, .refl⟩
    decide
  have hbranches : (PullExample.fetched "1").refs.branches.entries =
      [⟨"dev", "1"⟩, ⟨"main", "1"⟩] := by
    decide
  have hat : ∀ name commitId, (PullExample.fetched "1").refs.branches.lookup name = some commitId →
      commitId = "1" := by
    intro name commitId hlookup
    have hmem := AList.mem_lookup_iff.mp hlookup
    rw [hbranches] at hmem
    simp only [List.mem_cons, Sigma.mk.injEq, heq_eq_eq, List.not_mem_nil, or_false] at hmem
    rcases hmem with ⟨-, rfl⟩ | ⟨-, rfl⟩ <;> rfl
  have hreaches : (2 : MerkleHash) ∉ HistoryOf (PullExample.fetched "1").db "1" := by
    have hget : getById (PullExample.fetched "1").db "1" =
        some (HistoryExample.commitNode 1 [] 1) := by
      decide
    have hone : parentsOf (PullExample.fetched "1").db none 1 = [] := by decide
    rintro ⟨commit, hcommit, hr⟩
    rw [hget] at hcommit
    obtain rfl := Option.some.inj hcommit
    rcases Relation.ReflTransGen.cases_head hr with heq | ⟨x, hx, -⟩
    · exact absurd heq (by decide)
    · have hx' : x ∈ parentsOf (PullExample.fetched "1").db none 1 := hx
      rw [hone] at hx'
      cases hx'
  rcases hsub hlocal with ⟨name, commitId, hlookup, hx⟩ | ⟨commitId, hhead, hx⟩
  · rw [hat name commitId hlookup] at hx
    exact hreaches hx
  · have hid : (PullExample.fetched "1").refs.headCommitId (PullExample.fetched "1").db =
        some "1" := by
      decide
    rw [hid] at hhead
    obtain rfl := Option.some.inj hhead
    exact hreaches hx

end Oxen
