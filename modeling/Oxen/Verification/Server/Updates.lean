import Oxen.Verification.History.Pages
import Oxen.Verification.Server.Writes
import Oxen.Verification.Tree.FileMap

/-! Server calls whose steps interleave, and the commits they return. -/

namespace Oxen

open Commits Exploration Fuel

section Heads

variable {parents : MerkleHash → List MerkleHash} {refs : Refs} {branch branch' : String}
  {id id' : MerkleHash}

/-- The branch points to a commit that has the given one in its history. -/
def HeadReaches (parents : MerkleHash → List MerkleHash) (refs : Refs) (branch : String)
    (id : MerkleHash) : Prop :=
  ∃ head : MerkleHash, refs.branches.lookup branch = some head.display ∧ Reaches parents head id

/-- The head of the branch, if there is one, is in the history of one of the commits. -/
def HeadIn (parents : MerkleHash → List MerkleHash) (refs : Refs) (branch : String)
    (ids : List MerkleHash) : Prop :=
  ∀ text, refs.branches.lookup branch = some text →
    ∃ head : MerkleHash, text = head.display ∧ ∃ id ∈ ids, Reaches parents id head

def Refs.setBranch (refs : Refs) (branch : String) (id : MerkleHash) : Refs :=
  { refs with branches := refs.branches.insert branch id.display }

theorem HeadReaches.self : HeadReaches parents (refs.setBranch branch id) branch id :=
  ⟨id, AList.lookup_insert _, .refl⟩

/-- Setting a branch to a commit with the old head in its history keeps whatever
the branches reached. -/
theorem HeadReaches.setBranch (h : HeadReaches parents refs branch id)
    (hhead : HeadIn parents refs branch' [id']) :
    HeadReaches parents (refs.setBranch branch' id') branch id := by
  obtain ⟨head, hlookup, hr⟩ := h
  by_cases hbranch : branch = branch'
  · subst hbranch
    obtain ⟨head', hdisplay, id'', hid, hr'⟩ := hhead _ hlookup
    obtain rfl := MerkleHash.display_injective hdisplay
    rw [List.mem_singleton.mp hid] at hr'
    exact ⟨id', AList.lookup_insert _, hr'.trans hr⟩
  · refine ⟨head, ?_, hr⟩
    rw [← hlookup]
    exact AList.lookup_insert_ne hbranch

end Heads

variable {host : Host} {exportTabular : DirEntries → Except ServerError DirEntries}
  {repo repo' : Repository} {call call' : ServerCall} {branch : String} {s s' : Server}

/-- Every commit that a call returned is in the history of its branch. -/
def Server.KeepsReturned (s : Server) : Prop :=
  ∀ i branch commit, s.calls i = .returned branch (.ok commit) →
    HeadReaches (parentsOf s.repo.db none) s.repo.refs branch commit.hash

/-- A call that is about to set its branch builds on what the branch points to, or
the branch points to the call's commit already. -/
def ServerCall.OnHead (repo : Repository) : ServerCall → Prop
  | workspaceCreate workspace _ branch =>
      HeadIn (parentsOf repo.db none) repo.refs branch [workspace.hash]
  | setBranch branch commit builtOn =>
      HeadIn (parentsOf repo.db none) repo.refs branch builtOn ∨
        repo.refs.branches.lookup branch = some commit.hash.display
  | updateBranch branch commit builtOn =>
      HeadIn (parentsOf repo.db none) repo.refs branch builtOn ∨
        repo.refs.branches.lookup branch = some commit.hash.display
  | _ => True

def ServerCall.IsRequest : ServerCall → Prop
  | workspaceCommit _ _ _ => True
  | mergeIntoBase _ _ => True
  | mergeCommitIntoBaseOnBranch _ _ _ => True
  | _ => False

/-- A call that is about to set its branch has what it builds on in the history
of its commit. -/
def ServerCall.Sound (db : NodeStore) : ServerCall → Prop
  | setBranch _ commit builtOn =>
      ∀ id ∈ builtOn, Reaches (parentsOf db none) commit.hash id
  | updateBranch _ commit builtOn =>
      ∀ id ∈ builtOn, Reaches (parentsOf db none) commit.hash id
  | _ => True

theorem ServerCall.Sound.mono {db db' : NodeStore} (h : call.Sound db) (hkeeps : KeepsCommits db db')
    (hk : db.Keyed) (hk' : db'.Keyed) : call.Sound db' := by
  cases call with
  | setBranch => exact fun id hid => hkeeps.reaches hk hk' (h id hid)
  | updateBranch => exact fun id hid => hkeeps.reaches hk hk' (h id hid)
  | _ => trivial

structure Server.Inv (s : Server) : Prop where
  keyed : s.repo.db.Keyed
  sound : ∀ i, (s.calls i).Sound s.repo.db
  kept : s.KeepsReturned

/-! ## Steps -/

/-- What one step does to the repository: it leaves the refs alone and keeps the
commits, or it only sets a branch to a commit that has the old head in its history. -/
inductive Effect (repo : Repository) : Repository → ServerCall → Prop
  | keep (repo' : Repository) (call' : ServerCall) (hkeyed : repo'.db.Keyed)
      (hkeeps : KeepsCommits repo.db repo'.db) (hrefs : repo'.refs = repo.refs)
      (hsound : call'.Sound repo'.db) (hnot : ∀ branch commit, call' ≠ .returned branch (.ok commit)) :
      Effect repo repo' call'
  | move (branch : String) (id : MerkleHash) (call' : ServerCall)
      (hhead : HeadIn (parentsOf repo.db none) repo.refs branch [id]) (hsound : call'.Sound repo.db)
      (hreturned : ∀ branch' commit, call' = .returned branch' (.ok commit) →
        branch' = branch ∧ commit.hash = id) :
      Effect repo { repo with refs := repo.refs.setBranch branch id } call'

theorem headIn_of_builtOn {ids : List MerkleHash} {commit : CommitNode}
    (h : HeadIn (parentsOf repo.db none) repo.refs branch ids ∨
      repo.refs.branches.lookup branch = some commit.hash.display)
    (hsound : ∀ id ∈ ids, Reaches (parentsOf repo.db none) commit.hash id) :
    HeadIn (parentsOf repo.db none) repo.refs branch [commit.hash] := by
  intro text htext
  rcases h with h | h
  · obtain ⟨head, rfl, id, hid, hr⟩ := h text htext
    exact ⟨head, rfl, commit.hash, by simp, (hsound id hid).trans hr⟩
  · rw [h] at htext
    exact ⟨commit.hash, (Option.some.inj htext).symm, commit.hash, by simp, .refl⟩

theorem Branches.update_ok {db : NodeStore} {refs refs' : Refs} {commitId : String}
    (h : Branches.update db refs branch commitId = .ok refs') :
    refs' = { refs with branches := refs.branches.insert branch commitId } := by
  rw [Branches.update] at h
  split at h
  · cases h
  split at h
  · exact (Except.ok.inj h).symm
  · cases hcheck : Branches.checkCreate db refs branch commitId with
    | error e => simp [hcheck, Except.map] at h
    | ok u =>
        rw [hcheck] at h
        exact (Except.ok.inj h).symm

/-- A step that only reads returns no commit, and sets out to update a branch
only to the commit that is merged. -/
theorem read_spec {iter : List MerkleHash → List MerkleHash} {fuel : ℕ}
    (h : call.read host exportTabular iter repo fuel = some call') :
    call'.Sound repo.db ∧ ∀ branch commit, call' ≠ .returned branch (.ok commit) := by
  cases call with
  | workspaceCommit workspace dirEntries name =>
      simp only [ServerCall.read] at h
      split at h
      · rw [← Option.some.inj h]
        exact ⟨trivial, by simp⟩
      · rw [← Option.some.inj h]
        cases Branches.checkCreate repo.db repo.refs name workspace.hash.display with
        | ok u => exact ⟨trivial, by simp [Except.map, ServerCall.ofResult]⟩
        | error e => exact ⟨trivial, by simp [Except.map, ServerCall.ofResult]⟩
  | workspaceCheck workspace dirEntries b =>
      simp only [ServerCall.read] at h
      split at h
      · rw [← Option.some.inj h]
        exact ⟨trivial, by simp⟩
      · rw [← Option.some.inj h]
        cases exportTabular dirEntries with
        | ok entries => exact ⟨trivial, by simp [Except.map, ServerCall.ofResult]⟩
        | error e => exact ⟨trivial, by simp [Except.map, ServerCall.ofResult]⟩
      · rw [← Option.some.inj h]
        exact ⟨trivial, by simp⟩
  | mergeIntoBase base merge =>
      simp only [ServerCall.read] at h
      split at h <;> rw [← Option.some.inj h] <;> exact ⟨trivial, by simp⟩
  | mergeBranches base merge =>
      simp only [ServerCall.read] at h
      split at h
      · rw [← Option.some.inj h]
        exact ⟨trivial, by simp⟩
      · split at h <;> rw [← Option.some.inj h] <;> exact ⟨trivial, by simp⟩
  | mergeCommitIntoBaseOnBranch baseId mergeId name =>
      simp only [ServerCall.read] at h
      split at h <;> rw [← Option.some.inj h] <;> exact ⟨trivial, by simp⟩
  | mergeCheck base merge name noAncestor =>
      obtain ⟨decision, -, rfl⟩ := Option.map_eq_some_iff.mp h
      rcases decision with e | (_ | entries)
      · exact ⟨trivial, by simp [Except.map, ServerCall.ofResult]⟩
      · refine ⟨?_, by simp [Except.map, ServerCall.ofResult]⟩
        intro id hid
        rw [List.mem_singleton.mp hid]
        exact .refl
      · exact ⟨trivial, by simp [Except.map, ServerCall.ofResult]⟩
  | _ => cases h

/-- A written commit has its stored parents in its history. -/
theorem reaches_of_written {plan : Plan} {commit : CommitNode} (hk : repo.db.Keyed)
    (hplan : CommitWriter.WriterPlan repo plan) (hfree : CollisionFree repo.db plan.ops)
    (hresult : plan.result = .ok commit) :
    ∀ id ∈ commit.parentIds, Reaches (parentsOf (repo.run plan.ops).db none) commit.hash id := by
  intro id hid
  obtain ⟨parentId, hopen⟩ := hplan.opened commit hresult
  obtain ⟨commit', hget, hparents⟩ := exists_of_opened hfree hopen
  obtain ⟨parent, hparent⟩ := Option.isSome_iff_exists.mp (hplan.stored commit hresult id hid)
  obtain ⟨parent', hparent', -⟩ := hfree.keepsCommits id parent hparent
  apply Relation.ReflTransGen.single
  refine (mem_parentsOf_iff (Keyed.run hk plan.ops)).mpr ⟨commit', hget, hparents ▸ hid, ?_⟩
  rw [hparent', Option.isSome_some]

/-- A write keeps the refs and the commits. -/
theorem effect_of_write {plan : Plan} {name : String}
    {set : String → CommitNode → List MerkleHash → ServerCall} (hk : repo.db.Keyed)
    (hplan : CommitWriter.WriterPlan repo plan) (hfree : CollisionFree repo.db plan.ops)
    (hset : ∀ db name commit builtOn,
      (∀ id ∈ builtOn, Reaches (parentsOf db none) commit.hash id) →
        (set name commit builtOn).Sound db ∧
        ∀ branch commit', set name commit builtOn ≠ .returned branch (.ok commit')) :
    Effect repo (repo.run plan.ops) (plan.next name set) := by
  have hrefs : (repo.run plan.ops).refs = repo.refs := Repository.refs_run hplan.keepsRefs
  rw [Plan.next]
  split
  · next commit hresult =>
    obtain ⟨hsound, hnot⟩ := hset (repo.run plan.ops).db name commit commit.parentIds
      (reaches_of_written hk hplan hfree hresult)
    exact .keep _ _ (Keyed.run hk plan.ops) hfree.keepsCommits hrefs hsound hnot
  · exact .keep _ _ (Keyed.run hk plan.ops) hfree.keepsCommits hrefs trivial (by simp)

theorem CallStep.effect (hstep : CallStep host exportTabular repo call repo' call')
    (hk : repo.db.Keyed) (hsound : call.Sound repo.db) (hon : call.OnHead repo) :
    Effect repo repo' call' := by
  have hkeeps : KeepsCommits repo.db repo.db := fun id commit hget => ⟨commit, hget, rfl⟩
  cases hstep with
  | @read _ _ iter _ hread =>
      obtain ⟨bound, hbound⟩ := hread
      obtain ⟨hsound', hnot⟩ := read_spec (hbound bound le_rfl)
      exact .keep _ _ hk hkeeps rfl hsound' hnot
  | create workspace dirEntries name => exact .move _ _ _ hon trivial (by simp)
  | workspaceWrite dirEntries name env plan henv hplan hfree =>
      apply effect_of_write hk _ hfree
      · exact fun db name commit builtOn h => ⟨h, by simp⟩
      · rw [hplan]
        exact CommitWriter.commitDirEntries_plan env dirEntries name hk
  | mergeWrite base merge name entries env plan henv hplan hfree =>
      apply effect_of_write hk _ hfree
      · exact fun db name commit builtOn h => ⟨h, by simp⟩
      · rw [hplan]
        exact CommitWriter.commitDirEntriesWithParents_plan _ _ _ _ hk
  | set name commit builtOn =>
      refine .move _ _ _ (headIn_of_builtOn hon hsound) trivial ?_
      intro branch' commit' h
      obtain ⟨rfl, hcommit⟩ := ServerCall.returned.inj h
      exact ⟨rfl, congrArg CommitNode.hash (Except.ok.inj hcommit).symm⟩
  | update name commit builtOn refs hupdate =>
      rw [Branches.update_ok hupdate]
      refine .move _ _ _ (headIn_of_builtOn hon hsound) trivial ?_
      intro branch' commit' h
      obtain ⟨rfl, hcommit⟩ := ServerCall.returned.inj h
      exact ⟨rfl, congrArg CommitNode.hash (Except.ok.inj hcommit).symm⟩
  | updateError name commit builtOn e hupdate => exact .keep _ _ hk hkeeps rfl trivial (by simp)

/-- One step of a call that builds on the head of its branch keeps what was returned. -/
theorem Server.Inv.step (h : s.Inv) {i : ℕ} (hon : (s.calls i).OnHead s.repo)
    (hstep : CallStep host exportTabular s.repo (s.calls i) repo' call') :
    Server.Inv ⟨repo', Function.update s.calls i call'⟩ := by
  cases hstep.effect h.keyed (h.sound i) hon with
  | keep _ _ hkeyed hkeeps hrefs hsound hnot =>
      refine ⟨hkeyed, ?_, ?_⟩
      · exact (Function.forall_update_iff s.calls fun _ call => call.Sound repo'.db).mpr
          ⟨hsound, fun j _ => (h.sound j).mono hkeeps h.keyed hkeyed⟩
      · refine (Function.forall_update_iff s.calls fun _ call => ∀ branch commit,
          call = .returned branch (.ok commit) →
            HeadReaches (parentsOf repo'.db none) repo'.refs branch commit.hash).mpr
          ⟨fun branch commit hcall => absurd hcall (hnot branch commit), ?_⟩
        intro j _ branch commit hcall
        obtain ⟨head, hlookup, hr⟩ := h.kept j branch commit hcall
        exact ⟨head, by rw [hrefs, hlookup], hkeeps.reaches h.keyed hkeyed hr⟩
  | move branch' id _ hhead hsound hreturned =>
      refine ⟨h.keyed, ?_, ?_⟩
      · exact (Function.forall_update_iff s.calls fun _ call => call.Sound s.repo.db).mpr
          ⟨hsound, fun j _ => h.sound j⟩
      · refine (Function.forall_update_iff s.calls fun _ call => ∀ branch commit,
          call = .returned branch (.ok commit) →
            HeadReaches (parentsOf s.repo.db none) (s.repo.refs.setBranch branch' id) branch
              commit.hash).mpr ⟨?_, fun j _ branch commit hcall =>
                (h.kept j branch commit hcall).setBranch hhead⟩
        intro branch commit hcall
        obtain ⟨rfl, rfl⟩ := hreturned branch commit hcall
        exact .self

/-! ## Runs -/

/-- A step of a call that builds on the head of its branch. -/
inductive ServerStepOnHead (host : Host)
    (exportTabular : DirEntries → Except ServerError DirEntries) : Server → Server → Prop
  | step (s : Server) (i : ℕ) (repo' : Repository) (call' : ServerCall)
      (hon : (s.calls i).OnHead s.repo)
      (hstep : CallStep host exportTabular s.repo (s.calls i) repo' call') :
      ServerStepOnHead host exportTabular s ⟨repo', Function.update s.calls i call'⟩

theorem ServerStepOnHead.toServerStep (h : ServerStepOnHead host exportTabular s s') :
    ServerStep host exportTabular s s' := by
  cases h with
  | step i repo' call' _ hstep => exact .step s i repo' call' hstep

/-- A step of the call in one place. -/
theorem ServerStepOnHead.update {calls : ℕ → ServerCall} {i : ℕ} (hon : call.OnHead repo)
    (hstep : CallStep host exportTabular repo call repo' call') :
    ServerStepOnHead host exportTabular ⟨repo, Function.update calls i call⟩
      ⟨repo', Function.update calls i call'⟩ := by
  have hcall : Function.update calls i call i = call := Function.update_self i call calls
  have hstep' := @ServerStepOnHead.step host exportTabular
    ⟨repo, Function.update calls i call⟩ i repo' call'
  simp only [hcall, Function.update_idem] at hstep'
  exact hstep' hon hstep

/-- No call has taken a step. -/
structure Server.Starts (s : Server) : Prop where
  keyed : s.repo.db.Keyed
  request : ∀ i, (s.calls i).IsRequest

theorem Server.Starts.inv (h : s.Starts) : s.Inv := by
  refine ⟨h.keyed, fun i => ?_, fun i branch commit hi => ?_⟩
  · have hrequest := h.request i
    cases hcall : s.calls i with
    | setBranch => simp [hcall, ServerCall.IsRequest] at hrequest
    | updateBranch => simp [hcall, ServerCall.IsRequest] at hrequest
    | _ => trivial
  · have hrequest := h.request i
    simp [hi, ServerCall.IsRequest] at hrequest

theorem Server.Inv.run (h : s.Inv)
    (hrun : Relation.ReflTransGen (ServerStepOnHead host exportTabular) s s') : s'.Inv := by
  induction hrun with
  | refl => exact h
  | tail _ hstep ih =>
      cases hstep with
      | step i repo' call' hon hstep => exact ih.step hon hstep

/-- While every call that sets its branch builds on what the branch points to, no
commit that was returned is lost. -/
theorem keepsReturned_of_onHead (hs : s.Starts)
    (hrun : Relation.ReflTransGen (ServerStepOnHead host exportTabular) s s') :
    s'.KeepsReturned :=
  (hs.inv.run hrun).kept

/-! ## Two merges into one branch -/

theorem Branches.update_of_mem {db : NodeStore} {refs : Refs} {commit : CommitNode}
    (hget : getByHash db commit.hash = some commit) (hbranch : branch ∈ refs.branches) :
    Branches.update db refs branch commit.hash.display =
      .ok { refs with branches := refs.branches.insert branch commit.hash.display } := by
  rw [Branches.update, getById_display, hget, if_neg (by simp), if_pos hbranch]

theorem listRecursiveWithDepth_mono {db : NodeStore} {fuel fuel' : ℕ}
    {stack : List (CommitNode × ℕ)} {results depths : KeyedMap.Map MerkleHash ℕ}
    (h : listRecursiveWithDepth db fuel stack results = some depths) (hle : fuel ≤ fuel') :
    listRecursiveWithDepth db fuel' stack results = some depths := by
  induction fuel generalizing fuel' stack results with
  | zero => cases h
  | succ fuel ih =>
      obtain ⟨fuel', rfl⟩ := Nat.exists_eq_add_of_lt (Nat.lt_of_succ_le hle)
      rw [show fuel + fuel' + 1 = (fuel + fuel') + 1 from rfl]
      cases stack with
      | nil => exact h
      | cons top stack =>
          obtain ⟨commit, depth⟩ := top
          rw [listRecursiveWithDepth] at h ⊢
          split at h
          · next hseen =>
            rw [if_pos hseen]
            exact ih h (by omega)
          · next hseen =>
            rw [if_neg hseen]
            exact ih h (by omega)

theorem listFromWithDepth_mono {db : NodeStore} {refs : Refs} {fuel fuel' : ℕ} {revision : String}
    {result : Except RevisionError (KeyedMap.Map MerkleHash ℕ)}
    (h : listFromWithDepth db refs fuel revision = some result) (hle : fuel ≤ fuel') :
    listFromWithDepth db refs fuel' revision = some result := by
  rw [listFromWithDepth] at h ⊢
  split at h
  · exact h
  · exact h
  · obtain ⟨depths, hdepths, rfl⟩ := Option.map_eq_some_iff.mp h
    rw [listRecursiveWithDepth_mono hdepths hle, Option.map_some]

theorem lowestCommonAncestorFromCommits_mono {iter : List MerkleHash → List MerkleHash}
    {db : NodeStore} {refs : Refs} {fuel fuel' : ℕ} {base merge : CommitNode}
    {result : Except AncestorError (Option MerkleHash)}
    (h : Merge.lowestCommonAncestorFromCommits iter db refs fuel base merge = some result)
    (hle : fuel ≤ fuel') :
    Merge.lowestCommonAncestorFromCommits iter db refs fuel' base merge = some result := by
  rw [Merge.lowestCommonAncestorFromCommits] at h ⊢
  split at h
  · next baseDepths mergeDepths hbase hmerge =>
    rw [listFromWithDepth_mono hbase hle, listFromWithDepth_mono hmerge hle]
    exact h
  · next e hbase =>
    rw [listFromWithDepth_mono hbase hle]
    exact h
  · next baseDepths e hbase hmerge =>
    rw [listFromWithDepth_mono hbase hle, listFromWithDepth_mono hmerge hle]
    exact h
  · cases h

theorem decide_fastForward {iter : List MerkleHash → List MerkleHash} {fuel : ℕ}
    {base merge : CommitNode} (noAncestor : String)
    (h : Merge.lowestCommonAncestorFromCommits iter repo.db repo.refs fuel base merge =
      some (.ok (some base.hash))) :
    Returns (fun fuel => Merge.decide host iter repo fuel base merge noAncestor)
      (.ok .fastForward) := by
  refine ⟨fuel, fun fuel' hle => ?_⟩
  change Merge.decide host iter repo fuel' base merge noAncestor = _
  rw [Merge.decide, lowestCommonAncestorFromCommits_mono h hle]
  simp

namespace ServerExample

open HistoryExample

/-- Two branches that are one commit ahead of `main`. -/
def threeBranches : Repository where
  db := branched
  refs :=
    { headFile := some "main"
      branches := ((AList.insert "main" "1" ∅).insert "left" "2").insert "right" "3" }

/-- One call merges one of the branches, all others merge the other one. -/
def start : Server where
  repo := threeBranches
  calls i := .mergeIntoBase "main" (if i = 0 then "left" else "right")

theorem start_starts : start.Starts :=
  ⟨branched_keyed, fun _ => trivial⟩

def updating (commit : CommitNode) : ServerCall :=
  .updateBranch "main" commit [commit.hash]

def merged (commit : CommitNode) : ServerCall :=
  .returned "main" (.ok commit)

/-- A branch of the example with the commit at its head. -/
structure IsAhead (name : String) (commit : CommitNode) : Prop where
  branch : Branches.getByName threeBranches.refs name = .ok ⟨name, commit.hash.display⟩
  stored : getByHash branched commit.hash = some commit
  differs : commit.hash.display ≠ "1"
  lca : Merge.lowestCommonAncestorFromCommits id branched threeBranches.refs 10
    (commitNode 1 [] 1) commit = some (.ok (some 1))
  parent : 1 ∈ parentsOf branched none commit.hash

theorem left_isAhead : IsAhead "left" (commitNode 2 [1] 2) where
  branch := by decide
  stored := by decide
  differs := by decide
  lca := by decide
  parent := by decide

theorem right_isAhead : IsAhead "right" (commitNode 3 [1] 3) where
  branch := by decide
  stored := by decide
  differs := by decide
  lca := by decide
  parent := by decide

variable {name : String} {commit : CommitNode} {i : ℕ} {calls : ℕ → ServerCall}

/-- A merge reads and decides to fast-forward, while the branches stay as they are. -/
theorem reads (h : IsAhead name commit) (hcall : calls i = .mergeIntoBase "main" name) :
    Relation.ReflTransGen (ServerStepOnHead host exportTabular) ⟨threeBranches, calls⟩
      ⟨threeBranches, Function.update calls i (updating commit)⟩ := by
  let noAncestor := "Cannot merge branches with no common ancestor"
  let branches : ServerCall := .mergeBranches ⟨"main", "1"⟩ ⟨name, commit.hash.display⟩
  let check : ServerCall := .mergeCheck (commitNode 1 [] 1) commit "main" noAncestor
  have hmain : Branches.getByName threeBranches.refs "main" = .ok ⟨"main", "1"⟩ := by
    decide
  have hone : getCommitByRef branched threeBranches.refs "1" = .ok (commitNode 1 [] 1) := by
    decide
  have hbranches : CallStep host exportTabular threeBranches (calls i) threeBranches branches := by
    apply CallStep.read _ _ _ id List.Perm.refl
    refine ⟨0, fun fuel _ => ?_⟩
    simp only [hcall, ServerCall.read, hmain, h.branch, branches]
  have hcheck : CallStep host exportTabular threeBranches branches threeBranches check := by
    apply CallStep.read _ _ _ id List.Perm.refl
    refine ⟨0, fun fuel _ => ?_⟩
    have hget : getCommitByRef threeBranches.db threeBranches.refs commit.hash.display =
        .ok commit := by
      rw [getCommitByRef, getById_display, threeBranches, h.stored]
      rfl
    have hbase : getCommitByRef threeBranches.db threeBranches.refs "1" =
        .ok (commitNode 1 [] 1) := hone
    simp only [branches, ServerCall.read, if_neg h.differs, hget, hbase, check, noAncestor]
  have hdecide : CallStep host exportTabular threeBranches check threeBranches
      (updating commit) := by
    apply CallStep.read _ _ _ id List.Perm.refl
    exact (decide_fastForward noAncestor h.lca).map _
  rw [← Function.update_eq_self i calls, hcall, Function.update_idem]
  have hrequest : (ServerCall.mergeIntoBase "main" name).OnHead threeBranches := trivial
  refine .tail (.tail (.single (.update hrequest ?_)) (.update ?_ hcheck)) (.update ?_ hdecide)
  · rwa [hcall] at hbranches
  · trivial
  · trivial

/-- After the first merge the branch points to its commit. -/
theorem updates (h : IsAhead name commit) :
    ServerStepOnHead host exportTabular ⟨threeBranches, Function.update calls i (updating commit)⟩
      ⟨RepoOp.apply threeBranches (.setBranchCommitId "main" commit.hash.display),
        Function.update calls i (merged commit)⟩ := by
  have hlookup : threeBranches.refs.branches.lookup "main" = some "1" := by decide
  have hdisplay : (1 : MerkleHash).display = "1" := by decide
  refine .update (.inl ?_) (.update _ _ _ _ _ ?_)
  · intro text htext
    rw [hlookup] at htext
    exact ⟨1, (Option.some.inj htext).symm.trans hdisplay.symm, commit.hash, by simp,
      .single h.parent⟩
  · apply Branches.update_of_mem h.stored
    rw [← AList.lookup_isSome, hlookup, Option.isSome_some]

def afterLeft : Repository :=
  RepoOp.apply threeBranches (.setBranchCommitId "main" "2")

def afterBoth : Repository :=
  RepoOp.apply afterLeft (.setBranchCommitId "main" "3")

theorem left_merged :
    Relation.ReflTransGen (ServerStepOnHead host exportTabular) start
      ⟨afterLeft, Function.update start.calls 0 (merged (commitNode 2 [1] 2))⟩ :=
  .tail (reads left_isAhead rfl) (updates left_isAhead)

/-- The calls once both have returned. -/
def returned : ℕ → ServerCall :=
  Function.update (Function.update start.calls 0 (merged (commitNode 2 [1] 2))) 1
    (merged (commitNode 3 [1] 3))

/-- Both merges read the branch before either moves it. -/
theorem both_merged :
    Relation.ReflTransGen (ServerStep host exportTabular) start ⟨afterBoth, returned⟩ := by
  have hreads := (@reads host exportTabular _ _ 0 _ left_isAhead rfl).trans
    (@reads host exportTabular _ _ 1 (Function.update start.calls 0 (updating (commitNode 2 [1] 2)))
      right_isAhead rfl)
  have hmain : "main" ∈ afterLeft.refs.branches := by decide
  have hright : CallStep host exportTabular afterLeft (updating (commitNode 3 [1] 3)) afterBoth
      (merged (commitNode 3 [1] 3)) :=
    .update _ _ _ _ _ (Branches.update_of_mem right_isAhead.stored hmain)
  have hleft : ServerStep host exportTabular
      ⟨threeBranches, Function.update (Function.update start.calls 1
        (updating (commitNode 3 [1] 3))) 0 (updating (commitNode 2 [1] 2))⟩
      ⟨afterLeft, Function.update (Function.update start.calls 1
        (updating (commitNode 3 [1] 3))) 0 (merged (commitNode 2 [1] 2))⟩ :=
    (updates left_isAhead).toServerStep
  have hcomm : ∀ call : ServerCall,
      Function.update (Function.update start.calls 1 (updating (commitNode 3 [1] 3))) 0 call =
        Function.update (Function.update start.calls 0 call) 1 (updating (commitNode 3 [1] 3)) :=
    fun call => Function.update_comm (by decide) _ _ _
  rw [hcomm, hcomm] at hleft
  refine .tail (.tail (Relation.ReflTransGen.mono ?_ _ _ hreads) hleft) ?_
  · exact fun _ _ hstep => hstep.toServerStep
  · have hstep := @ServerStep.step host exportTabular
      ⟨afterLeft, Function.update (Function.update start.calls 0 (merged (commitNode 2 [1] 2))) 1
        (updating (commitNode 3 [1] 3))⟩ 1 afterBoth (merged (commitNode 3 [1] 3))
    simp only [Function.update_self, Function.update_idem] at hstep
    exact hstep hright

theorem not_reaches : ¬ Reaches (parentsOf branched none) 3 2 := by
  have hthree : parentsOf branched none 3 = [1] := by decide
  have hone : parentsOf branched none 1 = [] := by decide
  intro h
  rcases Relation.ReflTransGen.cases_head h with h | ⟨x, hx, h⟩
  · exact absurd h (by decide)
  rw [hthree, List.mem_singleton] at hx
  subst hx
  rcases Relation.ReflTransGen.cases_head h with h | ⟨x, hx, -⟩
  · exact absurd h (by decide)
  · rw [hone] at hx
    cases hx

theorem not_headReaches : ¬ HeadReaches (parentsOf branched none) afterBoth.refs "main" 2 := by
  rintro ⟨head, hlookup, hr⟩
  have hdisplay : afterBoth.refs.branches.lookup "main" = some (3 : MerkleHash).display := by
    decide
  rw [hdisplay] at hlookup
  obtain rfl := MerkleHash.display_injective (Option.some.inj hlookup)
  exact not_reaches hr

end ServerExample

/-- One of two branches is merged. -/
theorem keepsReturned_of_onHead_example :
    (⟨ServerExample.afterLeft, Function.update ServerExample.start.calls 0
      (ServerExample.merged (HistoryExample.commitNode 2 [1] 2))⟩ : Server).KeepsReturned :=
  @keepsReturned_of_onHead Example.host .ok _ _ ServerExample.start_starts ServerExample.left_merged

/-- Of two merges that read the branch before either moves it, the second one
drops the commit that the first one returned. -/
theorem not_keepsReturned :
    ¬ ∀ (host : Host) (exportTabular : DirEntries → Except ServerError DirEntries)
      (s s' : Server), s.Starts → Relation.ReflTransGen (ServerStep host exportTabular) s s' →
        s'.KeepsReturned := by
  intro h
  have hkept := h Example.host .ok _ _ ServerExample.start_starts ServerExample.both_merged
  exact ServerExample.not_headReaches (hkept 0 "main" _ rfl)

end Oxen
