import Oxen.Lib.Runs
import Oxen.Verification.History.Pages

/-! Runs in which the commit graph grows and histories are counted. -/

namespace Oxen

open Exploration Fuel Runs

namespace Commits

variable {db : NodeStore} {refs : Refs} {commit : CommitNode} {revision : String}

/-- The node database and the count cache of a repository. -/
structure CountState where
  db : NodeStore
  cache : CountDb

inductive CountAction
  | addCommit (record : NodeDb) (commit : CommitNode)
  | countFrom (refs : Refs) (revision : String)

/-- The commit graph grows by a commit, or `countFrom` is called. -/
inductive CountStep : CountAction → CountState → CountState → Prop
  | addCommit (s : CountState) {record : NodeDb} {commit : CommitNode}
      (hnew : NewCommit s.db record commit) :
      CountStep (.addCommit record commit) s ⟨s.db.write record, s.cache⟩
  | countFrom (s : CountState) {refs : Refs} {revision : String}
      {result : Except RevisionError (ℕ × Bool)} {cache' : CountDb}
      (hcall : Returns (fun fuel => Commits.countFrom s.db refs fuel s.cache revision)
        (result, cache')) :
      CountStep (.countFrom refs revision) s ⟨s.db, cache'⟩

/-- A commit is added before a history in which it is named as a parent was counted. -/
def CountAction.ParentsFirst (s : CountState) : CountAction → Prop
  | .addCommit _ commit =>
      ∀ id count, s.cache.lookup id = some count → ¬ Names s.db id commit.hash
  | .countFrom _ _ => True

structure CountState.Ok (s : CountState) : Prop where
  keyed : s.db.Keyed
  exact : CountsExact s.db s.cache

variable {a : CountAction} {as : List CountAction} {s s' : CountState}

theorem CountStep.ok (hstep : CountStep a s s') (hfirst : a.ParentsFirst s) (h : s.Ok) :
    s'.Ok := by
  cases hstep with
  | addCommit _ hnew =>
      exact ⟨Keyed.write h.keyed hnew.node, hnew.countsExact h.keyed h.exact hfirst⟩
  | @countFrom _ refs revision result cache' hcall =>
      have hresult := hcall.unique (countFrom_returns h.keyed refs s.cache revision)
      refine ⟨h.keyed, ?_⟩
      rw [show cache' = (countResult s.db refs s.cache revision).2 from congrArg Prod.snd hresult]
      exact h.exact.countResult h.keyed

theorem listFrom_length (hk : db.Keyed) (refs : Refs) (cache : CountDb)
    (hrange : parseRange revision = none) (hget : Revisions.get db refs revision = .ok (some commit))
    (herror : countError db refs commit.hash.display = none) :
    ∃ commits cache', Returns (fun fuel => listFrom db refs fuel cache revision)
        (.ok commits, cache') ∧
      commits.length = min (historySize db commit.hash) usizeMax := by
  obtain ⟨result, cache', hrun, hpage⟩ :=
    listFromPaginatedImpl_returns hk refs cache revision 0 usizeMax
  simp only [pageOf, hrange, hget, herror, Nat.zero_add, List.drop_zero] at hpage
  refine ⟨(fullHistory db none commit).take usizeMax, cache', ?_, ?_⟩
  · have hmap := hrun.map fun r => (r.1.map Prod.fst, r.2)
    rw [hpage] at hmap
    exact hmap
  · rw [List.length_take, fullHistory, List.length_map,
      History.length_eq (historyOrder_spec db none commit.hash), Nat.min_comm]

/-- Every cached count and every count that a call returns is the number of
commits that the commit reaches, which is the length of its history. -/
def CountState.CountsHistory (s : CountState) : Prop :=
  (∀ id count, s.cache.lookup id = some count → count = historySize s.db id) ∧
  ∀ refs revision,
    match Revisions.get s.db refs revision with
    | .error e =>
        Returns (fun fuel => countFrom s.db refs fuel s.cache revision) (.error e, s.cache)
    | .ok none =>
        Returns (fun fuel => countFrom s.db refs fuel s.cache revision)
          (.error (.revisionNotFound revision), s.cache)
    | .ok (some commit) =>
        (∃ cached cache', Returns (fun fuel => countFrom s.db refs fuel s.cache revision)
          (.ok (historySize s.db commit.hash, cached), cache')) ∧
        (parseRange revision = none → countError s.db refs commit.hash.display = none →
          ∃ commits cache', Returns (fun fuel => listFrom s.db refs fuel s.cache revision)
              (.ok commits, cache') ∧
            commits.length = min (historySize s.db commit.hash) usizeMax)

theorem CountState.Ok.countsHistory (h : s.Ok) : s.CountsHistory := by
  refine ⟨fun id count hcached => (h.exact id count hcached).2, fun refs revision => ?_⟩
  have hcount := countFrom_returns h.keyed refs s.cache revision
  rw [countResult] at hcount
  rcases hget : Revisions.get s.db refs revision with e | found
  · simpa only [hget] using hcount
  · cases found with
    | none => simpa only [hget] using hcount
    | some commit =>
        refine ⟨?_, fun hrange herror => listFrom_length h.keyed refs s.cache hrange hget herror⟩
        simp only [hget] at hcount
        cases hcached : s.cache.lookup commit.hash with
        | none =>
            simp only [hcached] at hcount
            exact ⟨_, _, hcount⟩
        | some count =>
            simp only [hcached] at hcount
            rw [(h.exact commit.hash count hcached).2] at hcount
            exact ⟨_, _, hcount⟩

/-- One step leaves the counts exact if and only if parents come first in it. -/
theorem CountStep.countsHistory_iff (hstep : CountStep a s s') (h : s.Ok) :
    s'.CountsHistory ↔ a.ParentsFirst s := by
  refine ⟨fun hcounts => ?_, fun hfirst => (hstep.ok hfirst h).countsHistory⟩
  cases hstep with
  | addCommit _ hnew =>
      intro id count hcached hnames
      rcases h.exact id count hcached with ⟨hstored, hcount⟩
      have hcount' := hcounts.1 id count hcached
      exact absurd (hcount.symm.trans hcount')
        (hnew.historySize_lt h.keyed hstored hnames).ne
  | countFrom _ _ => trivial

/-- A run keeps all counts exact if and only if no commit is added after the count of one that
reaches a child of it. -/
theorem run_countsHistory_iff (hk : db.Keyed) :
    Run (fun a s s' => CountStep a s s' ∧ s'.CountsHistory) as ⟨db, ∅⟩ s ↔
      Run (fun a s s' => CountStep a s s' ∧ a.ParentsFirst s) as ⟨db, ∅⟩ s := by
  have hiff : ∀ a s s', CountState.Ok s → (CountStep a s s' ∧ s'.CountsHistory ↔
      CountStep a s s' ∧ a.ParentsFirst s) := fun a s s' hok =>
    and_congr_right fun hstep => hstep.countsHistory_iff hok
  refine run_iff_of_keeps (fun a s s' hstep hok => ?_) hiff ⟨hk, CountsExact.empty db⟩
  exact hstep.1.ok ((hiff a s s' hok).mp hstep).2 hok

namespace HistoryExample

theorem mem_parentIds_branched {id parentId : MerkleHash} {child : CommitNode}
    (hget : getByHash branched id = some child) (hp : parentId ∈ child.parentIds) :
    parentId = 1 := by
  rw [branched, @getByHash_write _ (commitNode 3 [1] 3) (record 3 [1] 3) rfl] at hget
  split at hget
  · rw [← Option.some.inj hget] at hp
    simpa [commitNode] using hp
  · rw [@getByHash_write _ (commitNode 2 [1] 2) (record 2 [1] 2) rfl] at hget
    split at hget
    · rw [← Option.some.inj hget] at hp
      simpa [commitNode] using hp
    · rw [@getByHash_write _ (commitNode 1 [] 1) (record 1 [] 1) rfl] at hget
      split at hget
      · rw [← Option.some.inj hget] at hp
        simp [commitNode] at hp
      · simp [getByHash] at hget

theorem newCommit_merged : NewCommit branched (record 4 [2, 3] 4) (commitNode 4 [2, 3] 4) where
  node := rfl
  fresh := by decide

/-- A commit without its parent, which is stored later. -/
def orphaned : NodeStore :=
  NodeStore.write (fun _ => none) (record 2 [1] 2)

theorem orphaned_keyed : orphaned.Keyed := by
  have hempty : NodeStore.Keyed fun _ => none := by
    intro id commit h
    simp [getByHash] at h
  exact Keyed.write hempty rfl

theorem newCommit_orphaned : NewCommit orphaned (record 1 [] 1) (commitNode 1 [] 1) where
  node := rfl
  fresh := by decide

end HistoryExample

open HistoryExample in
/-- One of two branches is counted, then they are merged. -/
theorem run_countsHistory_merged :
    Run (fun a s s' => CountStep a s s' ∧ s'.CountsHistory)
      [.countFrom {} "2", .addCommit (record 4 [2, 3] 4) (commitNode 4 [2, 3] 4)]
      ⟨branched, ∅⟩ ⟨merged, (countResult branched {} ∅ "2").2⟩ := by
  refine (run_countsHistory_iff branched_keyed).mpr ?_
  refine .cons ⟨.countFrom ⟨branched, ∅⟩ (countFrom_returns branched_keyed {} ∅ "2"), trivial⟩ ?_
  refine .cons ⟨.addCommit ⟨branched, _⟩ newCommit_merged, ?_⟩ (.nil _)
  rintro id count - ⟨child, commit, -, hget, hmem⟩
  have hid := mem_parentIds_branched hget hmem
  simp [commitNode] at hid

open HistoryExample in
/-- A count from before the parent was there stays. -/
theorem not_countsHistory :
    ¬ ∀ db as s, NodeStore.Keyed db → Run CountStep as ⟨db, ∅⟩ s → s.CountsHistory := by
  intro h
  have hcount := countFrom_returns orphaned_keyed {} ∅ "2"
  have hrun : Run CountStep [.countFrom {} "2", .addCommit (record 1 [] 1) (commitNode 1 [] 1)]
      ⟨orphaned, ∅⟩ ⟨orphaned.write (record 1 [] 1), (countResult orphaned {} ∅ "2").2⟩ :=
    .cons (.countFrom ⟨orphaned, ∅⟩ hcount) (.cons (.addCommit ⟨orphaned, _⟩ newCommit_orphaned)
      (.nil _))
  have hget : Revisions.get orphaned {} "2" = .ok (some (commitNode 2 [1] 2)) := by decide
  have hcached : (countResult orphaned {} ∅ "2").2.lookup 2 =
      some (historySize orphaned 2) := by
    rw [countResult, hget]
    exact AList.lookup_insert _
  have hwrong := (h orphaned _ _ orphaned_keyed hrun).1 2 _ hcached
  have hnames : Names orphaned 2 1 :=
    ⟨2, commitNode 2 [1] 2, .refl, by decide, List.mem_singleton.mpr rfl⟩
  exact absurd hwrong (newCommit_orphaned.historySize_lt orphaned_keyed (by decide) hnames).ne

end Commits

end Oxen
