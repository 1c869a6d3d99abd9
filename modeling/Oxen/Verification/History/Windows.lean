import Oxen.Verification.History.Pages

/-! When pages of the history are windows of the whole history. -/

namespace Oxen

open Exploration Fuel

namespace Commits

variable {db : NodeStore} {refs : Refs} {commit : CommitNode} {revision : String}
  {skip limit n : ℕ}

/-- A page is the window of the whole history that it asks for, whatever counts
are cached. -/
def PageIsWindow (db : NodeStore) (refs : Refs) (revision : String) (skip limit : ℕ) : Prop :=
  ∀ cache cache', ∃ page full,
    (∃ after, Returns
      (fun fuel => listFromPaginatedImpl db refs fuel cache revision skip limit) (page, after)) ∧
    (∃ after, Returns (fun fuel => listFrom db refs fuel cache' revision) (full, after)) ∧
    page.map Prod.fst = full.map fun commits => (commits.drop skip).take limit

theorem pageIsWindow_iff_pageOf (hk : db.Keyed) :
    PageIsWindow db refs revision skip limit ↔
      pageOf db refs revision skip limit =
        (pageOf db refs revision 0 usizeMax).map fun commits => (commits.drop skip).take limit := by
  have hfull : ∀ cache, ∃ after, Returns (fun fuel => listFrom db refs fuel cache revision)
      (pageOf db refs revision 0 usizeMax, after) := by
    intro cache
    obtain ⟨result, after, hrun, hpage⟩ :=
      listFromPaginatedImpl_returns hk refs cache revision 0 usizeMax
    have hmap := hrun.map fun r => (r.1.map Prod.fst, r.2)
    rw [hpage] at hmap
    exact ⟨after, hmap⟩
  constructor
  · intro h
    obtain ⟨page, full, ⟨after, hpage⟩, ⟨after', hlist⟩, hwindow⟩ := h ∅ ∅
    obtain ⟨result, cache', hrun, heq⟩ :=
      listFromPaginatedImpl_returns hk refs ∅ revision skip limit
    obtain ⟨after'', hlist'⟩ := hfull ∅
    obtain rfl : page = result := congrArg Prod.fst (hpage.unique hrun)
    obtain rfl : full = pageOf db refs revision 0 usizeMax :=
      congrArg Prod.fst (hlist.unique hlist')
    rw [← heq, hwindow]
  · intro h cache cache'
    obtain ⟨result, after, hrun, heq⟩ :=
      listFromPaginatedImpl_returns hk refs cache revision skip limit
    exact ⟨result, _, ⟨after, hrun⟩, hfull cache', heq.trans h⟩

theorem drop_take_window {α : Type*} (xs : List α) (hn : skip + limit ≤ n) :
    ((xs.take n).drop skip).take limit = (xs.take (skip + limit)).drop skip := by
  rw [List.drop_take, List.drop_take, List.take_take]
  congr 1
  omega

/-- The revision is read along first parents when its window is short. -/
structure IsCommit (db : NodeStore) (refs : Refs) (revision : String) (commit : CommitNode) :
    Prop where
  not_range : parseRange revision = none
  get : Revisions.get db refs revision = .ok (some commit)
  counts : countError db refs commit.hash.display = none

theorem pageIsWindow_iff_take (hk : db.Keyed) (hn : skip + limit ≤ usizeMax) :
    PageIsWindow db refs revision skip limit ↔
      ∀ commit, IsCommit db refs revision commit → skip + limit ≤ 10 →
        (forwardPath db (skip + limit) commit).drop skip =
          ((fullHistory db none commit).take (skip + limit)).drop skip := by
  have hlong : ¬ usizeMax ≤ 10 := by decide
  rw [pageIsWindow_iff_pageOf hk, pageOf, pageOf]
  cases hrange : parseRange revision with
  | some range =>
      have hnone : ∀ commit, ¬ IsCommit db refs revision commit := by
        intro commit h
        simp [h.not_range] at hrange
      simp only [hnone, IsEmpty.forall_iff, implies_true, iff_true]
      rcases getById db range.1 with _ | baseCommit <;>
        rcases getById db range.2 with _ | headCommit
      · rfl
      · rfl
      · rfl
      · simp only [Except.map, Nat.zero_add, List.drop_zero, drop_take_window _ hn]
  | none =>
      rcases hget : Revisions.get db refs revision with e | found
      · have hnone : ∀ commit, ¬ IsCommit db refs revision commit := fun commit h => by
          simp [h.get] at hget
        simp [hnone, Except.map]
      · cases found with
        | none =>
            have hnone : ∀ commit, ¬ IsCommit db refs revision commit := fun commit h => by
              simp [h.get] at hget
            simp [hnone, Except.map]
        | some commit =>
            cases herror : countError db refs commit.hash.display with
            | some e =>
                have hnone : ∀ commit, ¬ IsCommit db refs revision commit := by
                  intro c h
                  obtain rfl : commit = c := by simpa [hget] using h.get
                  simp [h.counts] at herror
                simp only [hnone, herror, Except.map, IsEmpty.forall_iff, implies_true]
            | none =>
                have honly : ∀ c, IsCommit db refs revision c ↔ c = commit := by
                  intro c
                  constructor
                  · exact fun h => by simpa [hget, eq_comm] using h.get
                  · rintro rfl
                    exact ⟨hrange, hget, herror⟩
                simp only [honly, forall_eq, herror, Except.map, Nat.zero_add, if_neg hlong,
                  List.drop_zero, drop_take_window _ hn]
                by_cases hshort : skip + limit ≤ 10
                · simp [hshort, listForwardPaginated_eq]
                · simp [hshort]

/-- The pages of a history that end by some position are windows of the whole
history exactly when, for as many of the first ten commits along first parents,
the first parent is the newest of the parents that are still open. -/
theorem pageIsWindow_iff (hk : db.Keyed) (hn : n ≤ usizeMax) :
    (∀ skip limit, skip + limit ≤ n → PageIsWindow db refs revision skip limit) ↔
      ∀ commit, IsCommit db refs revision commit →
        ∀ i, 0 < i → i < min n 10 → FirstParentIsNewest db (forwardPath db i commit) := by
  constructor
  · intro h commit hc
    have hwindow := (pageIsWindow_iff_take hk (by omega)).mp
      (h 0 (min n 10) (by omega)) commit hc (by omega)
    rw [← take_history_iff hk (isStored_of_get hk hc.get)]
    simpa using hwindow.symm
  · intro h skip limit hend
    rw [pageIsWindow_iff_take hk (by omega)]
    intro commit hc hshort
    congr 1
    rw [eq_comm, take_history_iff hk (isStored_of_get hk hc.get)]
    exact fun i hpos hi => h commit hc i hpos (by omega)

namespace HistoryExample

theorem isCommit_main : IsCommit merged mainRefs "main" (commitNode 4 [2, 3] 4) where
  not_range := by decide
  get := by decide
  counts := by decide

end HistoryExample

theorem pageIsWindow_iff_example :
    (∀ skip limit, skip + limit ≤ 3 →
      PageIsWindow HistoryExample.merged HistoryExample.mainRefs "main" skip limit) ↔
      ∀ commit, IsCommit HistoryExample.merged HistoryExample.mainRefs "main" commit →
        ∀ i, 0 < i → i < min 3 10 →
          FirstParentIsNewest HistoryExample.merged (forwardPath HistoryExample.merged i commit) :=
  pageIsWindow_iff HistoryExample.merged_keyed (by decide)

/-- The merge commit's second parent is newer than its first. It is on no short
page. -/
theorem not_pageIsWindow :
    ¬ PageIsWindow HistoryExample.merged HistoryExample.mainRefs "main" 0 2 := by
  intro h
  have hc := HistoryExample.isCommit_main
  have hwindow := (pageIsWindow_iff_take HistoryExample.merged_keyed (by decide)).mp h _ hc
    (by decide)
  have hsteps := (take_history_iff HistoryExample.merged_keyed
    (isStored_of_get HistoryExample.merged_keyed hc.get) 2).mp (by simpa using hwindow.symm)
  have hnewest := hsteps 1 (by decide) (by decide) (HistoryExample.commitNode 4 [2, 3] 4) rfl
  have hparent : firstParent HistoryExample.merged (HistoryExample.commitNode 4 [2, 3] 4) =
      some (HistoryExample.commitNode 2 [1] 2) := by decide
  rw [hparent] at hnewest
  exact absurd (hnewest.2 (HistoryExample.commitNode 3 [1] 3) (by decide)) (by decide)

end Commits

end Oxen
