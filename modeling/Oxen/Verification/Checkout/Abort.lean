import Oxen.Verification.Checkout.Errors
import Oxen.Verification.Checkout.Run

/-! An aborted checkout and the working tree. The from tree is walked only after
files that stand in the way of directories were removed, so a conflict found by
that walk comes too late. -/

namespace Oxen

open MerkleTreeNode EStateM

variable {db : NodeStore}

/-- A checkout that reports local changes has changed nothing on disk. -/
def AbortKeepsDisk (repo : LocalRepository) (db : NodeStore) (fuel : ℕ) (toCommit : MerkleHash)
    (maybeFromCommit : Option MerkleHash) (state : RepoState) : Prop :=
  ∀ paths state',
    (setWorkingRepoToCommit repo db fuel toCommit maybeFromCommit .abort).run state =
        .error (.cannotOverwriteFiles paths) state' →
      ∀ path, state'.disk.lookup path = state.disk.lookup path

section Conditions

variable (repo : LocalRepository) (disk : WorkingTree) (source : Option (CommitTree db))
  (target : CommitTree db)

/-- The user's copy of a target file or directory differs from both commits. -/
def TargetDiverged : Prop :=
  (∃ path f cs, Compared disk source target path (.mk (.file f) cs) ∧
    FileDiverged (checkoutContext repo disk source target .abort) (path ++ f.name) f) ∨
  ∃ path d vnodes, Compared disk source target path (.mk (.directory d) vnodes) ∧
    DirDiverged (checkoutContext repo disk source target .abort) (path ++ d.name)

/-- The disk has a directory where the target has a file, or a time overflows in the
comparison of the two. -/
def TargetUnreadable : Prop :=
  (∃ path f cs, Compared disk source target path (.mk (.file f) cs) ∧
    FileUnreadable (checkoutContext repo disk source target .abort) (path ++ f.name) f) ∨
  ∃ path d vnodes, Compared disk source target path (.mk (.directory d) vnodes) ∧
    DirUnreadable (checkoutContext repo disk source target .abort) (path ++ d.name)

/-- A file that the checkout has to remove was edited by the user. -/
def LeftoverModified : Prop :=
  ∃ s path f, source = some s ∧ Leftover disk source target s path f ∧
    ¬ BlocksDir disk source target path ∧ repo.isModifiedFromNode disk path f = .ok true

/-- The time of a file of the from tree that the target does not share overflows. -/
def SourceOverflows : Prop :=
  ∃ s parent f cs, source = some s ∧
    FromReaches target.tree.containerHashes s.tree parent (.mk (.file f) cs) ∧ f.hasTime = false

/-- The disk has a directory where the from tree has a file, or a time overflows in
the comparison of the two. -/
def SourceUnreadable : Prop :=
  ∃ s parent f cs, source = some s ∧
    FromReaches target.tree.containerHashes s.tree parent (.mk (.file f) cs) ∧
    ¬ BlocksDir disk source target (parent ++ f.name) ∧
    (Leftover disk source target s (parent ++ f.name) f ∨ repo.isRemoteMode = true) ∧
    ∃ e, repo.isModifiedFromNode disk (parent ++ f.name) f = .error e

/-- Nothing blocks a directory of the target, or no file to be removed was
edited, or the checkout stops before it applies anything. -/
def AbortsInTime : Prop :=
  (∃ path, BlocksDir disk source target path) →
    LeftoverModified repo disk source target →
      SourceOverflows source target ∨ TargetDiverged repo disk source target ∨
        TargetUnreadable repo disk source target ∨ SourceUnreadable repo disk source target

end Conditions

section Walked

variable {repo : LocalRepository} {state : RepoState} {source : Option (CommitTree db)}
  {target : CommitTree db} {results : CheckoutResult}
  (hw : walkTargetTree (checkoutContext repo state.disk source target .abort) target.tree =
    .ok results)
  (hc : results.cannotOverwriteEntries = [])

include hw hc

theorem not_targetUnreadable : ¬ TargetUnreadable repo state.disk source target := by
  rintro (⟨path, f, cs, hr, hu⟩ | ⟨path, d, vnodes, hr, hu⟩)
  · obtain ⟨verdict, hverdict⟩ := fileVerdict_of_walk hw (visits_of_reaches hw hc hr)
    obtain ⟨e, he⟩ := targetFileVerdict_error_iff.mpr hu
    simp [hverdict] at he
  · obtain ⟨verdict, hverdict⟩ := dirVerdict_of_walk hw (visits_of_reaches hw hc hr)
    obtain ⟨e, he⟩ := targetDirVerdict_error_iff.mpr hu
    simp [hverdict] at he

theorem not_targetDiverged : ¬ TargetDiverged repo state.disk source target := by
  have hread := not_targetUnreadable hw hc
  rintro (⟨path, f, cs, hr, hd⟩ | ⟨path, d, vnodes, hr, hd⟩)
  · have hv := visits_of_reaches hw hc hr
    have hover := fun ht => hread (.inl ⟨path, f, cs, hr, .inl ht⟩)
    have := (mem_cannotOverwriteEntries_iff hw).mpr
      (.inl ⟨path, f, cs, hv, rfl, targetFileVerdict_conflict_iff.mpr ⟨rfl, hd, hover⟩⟩)
    simp [hc] at this
  · have hv := visits_of_reaches hw hc hr
    have hover := fun hu => hread (.inr ⟨path, d, vnodes, hr, hu⟩)
    have := (mem_cannotOverwriteEntries_iff hw).mpr
      (.inr ⟨path, d, vnodes, hv, rfl, targetDirVerdict_conflict_iff.mpr ⟨rfl, hd, hover⟩⟩)
    simp [hc] at this

end Walked

section Cleanup

variable {repo : LocalRepository} {state state' : RepoState} {s target : CommitTree db}
  {results : CheckoutResult}
  (hw : walkTargetTree (checkoutContext repo state.disk (some s) target .abort) target.tree =
    .ok results)
  (hc : results.cannotOverwriteEntries = []) (hid : s.id ≠ target.id)
  (hlook : ∀ path,
    (BlocksDir state.disk (some s) target path ∧ state'.disk.lookup path = none) ∨
      (¬ BlocksDir state.disk (some s) target path ∧
        state'.disk.lookup path = state.disk.lookup path))

/-- What the from walk reads once the directory replacements are done. -/
private abbrev cleanupContext (repo : LocalRepository) (state' : RepoState) (s target : CommitTree db)
    (results : CheckoutResult) : CleanupContext where
  repo := repo
  disk := state'.disk
  commonNodes := commonNodes (some s) target
  seenPaths := results.seenPaths
  onConflict := .abort

include hw hc in
private theorem notMem_seenPaths_iff {parent : PathBuf} {f : FileNode} {cs : List MerkleTreeNode}
    (hr : FromReaches target.tree.containerHashes s.tree parent (.mk (.file f) cs)) :
    parent ++ f.name ∉ results.seenPaths ↔
      Leftover state.disk (some s) target s (parent ++ f.name) f := by
  rw [mem_seenPaths_iff_compared hw hc]
  exact ⟨fun h => ⟨⟨parent, cs, hr, rfl⟩, h⟩, fun h => h.2⟩

include hlook in
private theorem isModified_after (repo : LocalRepository) (f : FileNode) {path : PathBuf} :
    (BlocksDir state.disk (some s) target path ∧
      repo.isModifiedFromNode state'.disk path f = .ok false) ∨
    (¬ BlocksDir state.disk (some s) target path ∧
      repo.isModifiedFromNode state'.disk path f = repo.isModifiedFromNode state.disk path f) := by
  rcases hlook path with ⟨hb, hl⟩ | ⟨hb, hl⟩
  · exact .inl ⟨hb, isModifiedFromNode_none hl f⟩
  · exact .inr ⟨hb, isModifiedFromNode_congr hl f⟩

include hw hc hid hlook

theorem cleanup_conflicts_iff {candidates : CleanupCandidates}
    (h : walkFromTree (cleanupContext repo state' s target results)
      (s.tree.prune target.tree.containerHashes) = .ok candidates) :
    candidates.cannotOverwriteEntries ≠ [] ↔
      LeftoverModified repo state.disk (some s) target := by
  have hseen := CommitTree.mem_containerHashes_commit.mt hid
  constructor
  · intro hne
    obtain ⟨conflict, hmem⟩ := List.exists_mem_of_ne_nil _ hne
    obtain ⟨parent, f, cs, event, hr, hok, hx⟩ := (mem_conflicts_iff h).mp hmem
    obtain ⟨cs', hr'⟩ := (fromReaches_file_prune_iff s hseen).mp ⟨cs, hr⟩
    obtain ⟨-, hout, hm⟩ := (mem_visitFromFile_conflicts_iff rfl hok).mp hx
    rcases isModified_after hlook repo f with ⟨-, hm'⟩ | ⟨hb, hm'⟩
    · exact absurd (hm.symm.trans hm') (by simp)
    · exact ⟨s, parent ++ f.name, f, rfl, (notMem_seenPaths_iff hw hc hr').mp hout, hb,
        hm'.symm.trans hm⟩
  · rintro ⟨s', path, f, hs, hl, hb, hm⟩
    obtain rfl := Option.some.inj hs
    obtain ⟨⟨parent, cs, hr, rfl⟩, -⟩ := id hl
    obtain ⟨cs', hr'⟩ := (fromReaches_file_prune_iff s hseen).mpr ⟨cs, hr⟩
    obtain ⟨event, hok⟩ := visitFromFile_of_walk h hr'
    have hm' := ((isModified_after hlook repo f).resolve_left
      (fun hbl => hb hbl.1)).2.trans hm
    have hx : parent ++ f.name ∈ event.cannotOverwriteEntries :=
      (mem_visitFromFile_conflicts_iff rfl hok).mpr
        ⟨rfl, (notMem_seenPaths_iff hw hc hr).mpr hl, hm'⟩
    exact List.ne_nil_of_mem ((mem_conflicts_iff h).mpr ⟨parent, f, cs', event, hr', hok, hx⟩)

theorem cleanup_isOk_iff :
    (∃ candidates, walkFromTree (cleanupContext repo state' s target results)
      (s.tree.prune target.tree.containerHashes) = .ok candidates) ↔
      ¬ SourceUnreadable repo state.disk (some s) target := by
  have hseen := CommitTree.mem_containerHashes_commit.mt hid
  constructor
  · rintro ⟨candidates, h⟩ ⟨s', parent, f, cs, hs, hr, hb, hneed, e, he⟩
    obtain rfl := Option.some.inj hs
    obtain ⟨cs', hr'⟩ := (fromReaches_file_prune_iff s hseen).mpr ⟨cs, hr⟩
    obtain ⟨event, hok⟩ := visitFromFile_of_walk h hr'
    have he' := ((isModified_after hlook repo f).resolve_left
      (fun hbl => hb hbl.1)).2.trans he
    obtain ⟨e', he''⟩ : ∃ e', visitFromFile (cleanupContext repo state' s target results)
        (parent ++ f.name) f = .error e' :=
      visitFromFile_error_iff.mpr ⟨hneed.imp_left (notMem_seenPaths_iff hw hc hr).mpr, e, he'⟩
    simp [hok] at he''
  · intro hnot
    refine walkFromTree_isOk (fun parent c cs hr => root_of_reaches_prune s hseen hr) ?_
    intro parent f cs hr
    obtain ⟨cs', hr'⟩ := (fromReaches_file_prune_iff s hseen).mp ⟨cs, hr⟩
    by_contra hbad
    have herr : ∃ e, visitFromFile (cleanupContext repo state' s target results)
        (parent ++ f.name) f = .error e := by
      cases hv : visitFromFile (cleanupContext repo state' s target results) (parent ++ f.name) f with
      | error e => exact ⟨e, rfl⟩
      | ok event => exact absurd ⟨event, hv⟩ hbad
    obtain ⟨hneed, e, he⟩ := visitFromFile_error_iff.mp herr
    rcases isModified_after hlook repo f with ⟨-, hm⟩ | ⟨hb, hm⟩
    · exact absurd (he.symm.trans hm) (by simp)
    · exact hnot ⟨s, parent, f, cs', rfl, hr', hb,
        hneed.imp_left (notMem_seenPaths_iff hw hc hr').mp, e, hm.symm.trans he⟩

end Cleanup

private theorem keepsDisk_of_noConflict {action : RepoM Unit} {state₁ state : RepoState}
    (h : ThrowsOnly NoConflict action) (paths : List PathBuf) (state' : RepoState)
    (hrun : action.run state₁ = .error (.cannotOverwriteFiles paths) state') (path : PathBuf) :
    state'.disk.lookup path = state.disk.lookup path := by
  exact absurd rfl (h _ _ _ hrun paths)

/-- A checkout that finds local changes has left the disk alone exactly when it
finds them in time. -/
theorem abortKeepsDisk_iff (repo : LocalRepository) (source : Option (CommitTree db))
    (target : CommitTree db) (state : RepoState) {fuel : ℕ} (hf : target.tree.size ≤ fuel)
    (hs : ∀ s, source = some s → s.tree.size ≤ fuel) :
    AbortKeepsDisk repo db fuel target.id (source.map (·.id)) state ↔
      AbortsInTime repo state.disk source target := by
  by_cases hid : source.map (·.id) = some target.id
  · refine iff_of_true ?_ ?_
    · intro paths state' h
      rw [setWorkingRepoToCommit_same repo .abort state hf hid] at h
      cases h
    · rintro - ⟨s, path, f, rfl, ⟨⟨parent, cs, hr, -⟩, -⟩, -⟩
      exact absurd hr (not_fromReaches_of_id_eq (Option.some.inj hid))
  have hrun := setWorkingRepoToCommit_run repo .abort state hf hs hid
  by_cases hload : loadPanics source target = true
  · rw [if_pos hload] at hrun
    refine iff_of_true ?_ fun _ _ => .inl ((loadPanics_iff hid).mp hload)
    intro paths state' h
    rw [hrun] at h
    cases h
  rw [if_neg hload] at hrun
  rcases hw : walkTargetTree (checkoutContext repo state.disk source target .abort) target.tree
    with e | results
  · rw [hw] at hrun
    refine iff_of_true ?_ fun _ _ => .inr (.inr (.inl (exists_unreadable_of_walk_error hw)))
    intro paths state' h path
    rw [hrun] at h
    injection h with _ h
    rw [h]
  rw [hw] at hrun
  by_cases hc : results.cannotOverwriteEntries = []
  swap
  · refine iff_of_true ?_ fun _ _ => .inr (.inl (diverged_of_conflict hw hc))
    intro paths state' h path
    simp only [ne_eq, hc, not_false_eq_true, if_true] at hrun
    rw [hrun] at h
    injection h with _ h
    rw [h]
  simp only [ne_eq, hc, not_true_eq_false, if_false] at hrun
  obtain ⟨state₁, hreplace, hlook, -⟩ := applyDirReplacements_of_walk hw hc
  rw [applyCheckout, EStateM.run_bind, hreplace] at hrun
  cases source with
  | none =>
      refine iff_of_true ?_ ?_
      · intro paths state' h
        rw [hrun] at h
        exact keepsDisk_of_noConflict (throwsOnly_restoreFiles _ _) paths state' h
      · rintro - ⟨_, _, _, hnone, -⟩
        cases hnone
  | some s =>
      have hne : s.id ≠ target.id := fun h => hid (congrArg some h)
      have hok := cleanup_isOk_iff hw hc hne hlook
      have hcleanup := cleanupRemovedFiles_run repo (s.tree.prune target.tree.containerHashes)
        (commonNodes (some s) target) results.seenPaths .abort state₁
      simp only [EStateM.run_bind] at hrun
      rcases hf' : walkFromTree (cleanupContext repo state₁ s target results)
          (s.tree.prune target.tree.containerHashes) with e | candidates
      · rw [hf'] at hcleanup hok
        rw [hcleanup] at hrun
        refine iff_of_true ?_ fun _ _ => .inr (.inr (.inr ?_))
        · intro paths state' h
          rw [hrun] at h
          injection h with h
          exact absurd h (walkFromTree_error hf' paths)
        · by_contra hnot
          obtain ⟨_, h⟩ := hok.mpr hnot
          cases h
      have hleft := cleanup_conflicts_iff hw hc hne hlook hf'
      rw [hf'] at hcleanup hok
      by_cases hcc : candidates.cannotOverwriteEntries = []
      · simp only [ne_eq, hcc, not_true_eq_false, if_false] at hcleanup hleft
        rw [hcleanup] at hrun
        refine iff_of_true ?_ fun _ hl => absurd (hleft.mpr hl) id
        intro paths state' h
        rw [hrun] at h
        exact keepsDisk_of_noConflict
          (.bind (throwsOnly_applyCleanup repo candidates) fun _ =>
            throwsOnly_restoreFiles repo results.filesToRestore) paths state' h
      · simp only [ne_eq, hcc, not_false_eq_true, if_true] at hcleanup
        rw [hcleanup] at hrun
        constructor
        · rintro h ⟨path, hb⟩ -
          exfalso
          have hkeep := h _ _ hrun path
          obtain ⟨-, content, mtime, hl⟩ := id hb
          rcases hlook path with ⟨-, hnone⟩ | ⟨hnb, -⟩
          · rw [hnone, hl] at hkeep
            cases hkeep
          · exact hnb hb
        · intro h paths state' hstate path
          rw [hrun] at hstate
          injection hstate with _ hstate
          subst hstate
          rcases hlook path with ⟨hb, -⟩ | ⟨-, hl⟩
          · rcases h ⟨path, hb⟩ (hleft.mp hcc) with hover | hd | hu | hu
            · exact absurd ((loadPanics_iff hid).mpr hover) hload
            · exact absurd hd (not_targetDiverged hw hc)
            · exact absurd hu (not_targetUnreadable hw hc)
            · exact absurd hu (hok.mp ⟨_, rfl⟩)
          · exact hl

namespace AbortExample

open Example

/-- The user has edited `a`, and `d` is as committed. -/
def disk : WorkingTree where
  entries := KeyedMap.insertAll ∅ [(["a"], .file [9, 9] 9), (["d"], .file [2] 2)]
  parent_isDir := by
    intro path name h
    have hp : path ++ [name] = ["a"] ∨ path ++ [name] = ["d"] := by
      simpa [KeyedMap.mem_insertAll] using h
    rcases hp with hp | hp <;> simp_all [List.append_eq_cons_iff]

def state : RepoState where
  disk := disk
  versions hash := if hash = host.xxh3 [3] then some [3] else none

end AbortExample

theorem abortKeepsDisk_iff_example :
    AbortKeepsDisk Example.repo Example.nodes 10 Example.dirCommit.id
        (some Example.fileCommit.id) AbortExample.state ↔
      AbortsInTime Example.repo AbortExample.disk (some Example.fileCommit)
        Example.dirCommit :=
  abortKeepsDisk_iff Example.repo (some Example.fileCommit) Example.dirCommit
    AbortExample.state (by decide) (by rintro s ⟨⟩; decide)

/-- The checkout reports the edit of `a` after it has removed `d`. -/
theorem not_abortKeepsDisk :
    ¬ AbortKeepsDisk Example.repo Example.nodes 10 Example.dirCommit.id
      (some Example.fileCommit.id) AbortExample.state := by
  intro h
  have hrun : (match (setWorkingRepoToCommit Example.repo Example.nodes 10
      Example.dirCommit.id (some Example.fileCommit.id) .abort).run AbortExample.state with
    | .error e state => decide (e = .cannotOverwriteFiles [["a"]] ∧ state.disk.lookup ["d"] = none)
    | .ok _ _ => false) = true := by decide
  split at hrun
  · rename_i e state' hstate
    obtain ⟨rfl, hnone⟩ := of_decide_eq_true hrun
    have hkeep := h [["a"]] state' hstate ["d"]
    rw [hnone] at hkeep
    exact absurd hkeep (by decide)
  · cases hrun

end Oxen
