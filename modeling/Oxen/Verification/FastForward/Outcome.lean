import Oxen.Verification.FastForward.Plan

/-! When a fast-forward merge reaches its target. -/

namespace Oxen

open MerkleTreeNode

variable {db : NodeStore} {repo : MergeRepository} {state : ClientState} {s t : CommitTree db}

/-- No file of a commit lies below another. -/
theorem file_not_below_file (ht : UniquePaths [] t.tree) {path path' : PathBuf} {f f' : FileNode}
    (hf : (path, f) ∈ t.tree.files []) (hf' : (path', f') ∈ t.tree.files []) {rest : PathBuf}
    (hrest : rest ≠ []) : path' ≠ path ++ rest := by
  intro heq
  obtain ⟨q, cs, hq, rfl⟩ := mem_files_iff.mp hf'
  have hr : Reaches (fun _ _ => True) t.tree q (.mk (.file f') cs) := by
    rcases occurs_or_hidden (fun _ _ => True) hq with ho | ⟨r, u, hu, hnot, -⟩
    · exact Reaches.of_occurs ho
    · exact absurd trivial hnot
  obtain ⟨name, hname⟩ := List.length_eq_one_iff.mp (t.length_file_name hq)
  obtain ⟨parent, d, vnodes, hd, hp⟩ :=
    @Reaches.exists_directory_of_isPrefix _ _ _ _ _ hr path rest.dropLast (file_path_ne_nil hf) (by
      have := congrArg List.dropLast heq
      rwa [hname, List.dropLast_concat, List.dropLast_append_of_ne_nil hrest] at this)
  exact ht.not_directory hf hd.mem_subtrees hp

theorem separate_of_files (ht : UniquePaths [] t.tree) {files : List FileToRestore}
    (h : ∀ r ∈ files, (r.path, r.fileNode) ∈ t.tree.files []) : Separate files := by
  rintro ⟨f, path⟩ hr ⟨f', path'⟩ hr'
  have hf : (path, f) ∈ t.tree.files [] := h _ hr
  have hf' : (path', f') ∈ t.tree.files [] := h _ hr'
  refine ⟨?_, fun rest hrest => file_not_below_file ht hf hf' hrest⟩
  rintro rfl
  rw [ht.file_eq hf hf']

/-- The working tree holds the files of `t` and the files of `state` that `s` did
not have, HEAD is `t`, and no merge is in progress. -/
structure Merged (s t : CommitTree db) (state state' : ClientState) : Prop where
  files : ∀ path content, (∃ mtime, state'.disk.lookup path = some (.file content mtime)) ↔
    (∃ f, (path, f) ∈ t.tree.files [] ∧ state.versions f.hash = some content) ∨
      ∃ mtime, Untracked state.disk s path content mtime
  untracked : ∀ path content mtime, Untracked state.disk s path content mtime →
    (∀ f, (path, f) ∉ t.tree.files []) →
    state'.disk.lookup path = some (.file content mtime)
  head : state'.head = t.id
  marker : state'.mergeInProgress = none

/-- The merge reaches its target, or it refuses to overwrite an untracked file and
changes nothing. -/
def FastForwards (repo : MergeRepository) (fuel : ℕ) (s t : CommitTree db) (state : ClientState) :
    Prop :=
  match (fastForwardMerge repo db fuel s.id t.id (.present false)).run state with
  | .ok _ state' => Merged s t state state'
  | .error e state' =>
      (∃ paths, e = .cannotOverwriteFiles paths) ∧ state' = state ∧
        ∃ path f content mtime, (path, f) ∈ t.tree.files [] ∧
          Untracked state.disk s path content mtime

/-- Nothing on disk is in the way of a file of the merge commit: no directory at
its path and no file above it. A file on disk that passes for it by size and time,
or that is untracked, has its content. -/
structure Unobstructed (repo : LocalRepository) (state : RepoState) (s t : CommitTree db) :
    Prop where
  not_dir : ∀ path f, (path, f) ∈ t.tree.files [] → ¬ state.disk.isDir path
  not_below_file : ∀ path f, (path, f) ∈ t.tree.files [] → ∀ q rest, rest ≠ [] →
    path = q ++ rest → ∀ content mtime, state.disk.lookup q ≠ some (.file content mtime)
  content : ∀ path f content mtime, (path, f) ∈ t.tree.files [] →
    state.disk.lookup path = some (.file content mtime) →
    (StatMatches repo state.disk path f.lastModified f.numBytes ∨
      ∀ g, (path, g) ∉ s.tree.files []) → state.versions f.hash = some content

/-- The time of every file that the base commit does not have with the same content
can be computed. -/
def RestoresTimes (s t : CommitTree db) : Prop :=
  ∀ path f, (path, f) ∈ t.tree.files [] →
    (∀ g, (path, g) ∈ s.tree.files [] → g.hash ≠ f.hash) → f.hasTime = true

/-- The times of the base commit can be loaded, the local copy of every new file can
be read, and either one of them is not the merge commit's or nothing is in the way
and every file to write has a time. -/
def CanFastForward (repo : MergeRepository) (state : RepoState) (s t : CommitTree db) : Prop :=
  (∀ parent g cs, FromReaches t.tree.containerHashes s.tree parent (.mk (.file g) cs) →
    g.hasTime = true) ∧
  (∀ path f, NewFile s t path f → ∃ b, repo.shouldRestoreFile state.disk none f path = .ok b) ∧
    ((∃ path f, NewFile s t path f ∧
      repo.shouldRestoreFile state.disk none f path = .ok false) ∨
    Unobstructed repo.toLocalRepository state s t ∧ RestoresTimes s t)

/-! ## Running the plan -/

/-- Restores and removals change the files of the repository only. -/
theorem runSteps_files {steps : List MergeStep}
    (h : ∀ step ∈ steps, (∃ entry, step = .restore entry) ∨ ∃ path, step = .remove path) :
    (∃ state', ((runSteps repo steps).run state = .ok () state' ∨
        ∃ e, (runSteps repo steps).run state = .error e state') ∧
      state'.head = state.head ∧ state'.mergeInProgress = state.mergeInProgress) := by
  induction steps generalizing state with
  | nil => exact ⟨state, .inl rfl, rfl, rfl⟩
  | cons step rest ih =>
      have hstep : ∃ state₁, ((step.run repo).run state = .ok () state₁ ∨
          ∃ e, (step.run repo).run state = .error e state₁) ∧
          state₁.head = state.head ∧ state₁.mergeInProgress = state.mergeInProgress := by
        have hlift : ∀ x : RepoM Unit, ∃ state₁, ((liftRepo x).run state = .ok () state₁ ∨
            ∃ e, (liftRepo x).run state = .error e state₁) ∧
            state₁.head = state.head ∧ state₁.mergeInProgress = state.mergeInProgress := by
          intro x
          rw [run_liftRepo]
          cases x.run state.toRepoState with
          | ok _ repoState => exact ⟨_, .inl rfl, rfl, rfl⟩
          | error e repoState => exact ⟨_, .inr ⟨e, rfl⟩, rfl, rfl⟩
        rcases h step (by simp) with ⟨entry, rfl⟩ | ⟨path, rfl⟩
        · exact hlift _
        · exact hlift _
      obtain ⟨state₁, hrun, hhead, hmarker⟩ := hstep
      rcases hrun with hrun | ⟨e, hrun⟩
      · obtain ⟨state₂, hrest, hhead₂, hmarker₂⟩ :=
          @ih state₁ fun step hs => h step (List.mem_cons_of_mem _ hs)
        refine ⟨state₂, ?_, hhead₂.trans hhead, hmarker₂.trans hmarker⟩
        rwa [runSteps_cons, hrun]
      · exact ⟨state₁, .inr ⟨e, by rw [runSteps_cons, hrun]⟩, hhead, hmarker⟩

theorem fastForwardSteps_append (id : MerkleHash) (results baseResults : MergeResult) :
    fastForwardSteps id results baseResults =
      .writeMarker id :: ((results.entriesToRestore.map MergeStep.restore ++
        (baseResults.entriesToRestore.map (·.path)).map MergeStep.remove) ++
          [.setHead id, .clearMarker]) := by
  simp [fastForwardSteps]

/-- The two writes that end a merge. -/
theorem runSteps_finish (id : MerkleHash) :
    (runSteps repo [.setHead id, .clearMarker]).run state =
      .ok () { state with head := id, mergeInProgress := none } := rfl

theorem runSteps_writeMarker {id : MerkleHash} {rest : List MergeStep} :
    (runSteps repo (.writeMarker id :: rest)).run state =
      (runSteps repo rest).run { state with mergeInProgress := some id } := rfl

section Run

variable (ht : UniquePaths [] t.tree) (hfiles : HasFiles state.toRepoState s)
  (hversions : HasVersions state.toRepoState t)
  {restores : List FileToRestore} {removes : List PathBuf}
  (hplan : Planned s t restores removes)

include ht hfiles hversions hplan

/-- With nothing in the way the restores and removals of a merge succeed. -/
theorem runSteps_of_unobstructed
    (hfree : Unobstructed repo.toLocalRepository state.toRepoState s t)
    (htimes : RestoresTimes s t) :
    ∃ state', (runSteps repo (restores.map MergeStep.restore ++
        removes.map MergeStep.remove)).run state = .ok () state' ∧
      (∀ r ∈ restores, ∃ content mtime, state'.disk.lookup r.path = some (.file content mtime) ∧
        state.versions r.fileNode.hash = some content) ∧
      (∀ path ∈ removes, state'.disk.lookup path = none) ∧
      ∀ path ∉ removes, path ∉ restores.map (·.path) →
        state'.disk.lookup path = state.disk.lookup path ∨
          state.disk.lookup path = none ∧ state'.disk.lookup path = some .dir := by
  have hcan : ∀ r ∈ restores, CanRestore state.toRepoState repo.toLocalRepository r := by
    intro r hr
    have hf := hplan.restored r hr
    have hnotdir : state.disk.lookup r.path ≠ some .dir := fun hl =>
      hfree.not_dir _ _ hf (by simpa [WorkingTree.isDir] using hl)
    refine ⟨file_path_ne_nil hf, hnotdir, hfree.not_below_file _ _ hf, hversions _ _ hf,
      fun hstat => ?_, htimes _ _ hf (hplan.changed r hr)⟩
    obtain ⟨metadata, hmeta, -⟩ := id hstat
    cases hl : state.disk.lookup r.path with
    | none => rw [metadata_none _ hl] at hmeta; cases hmeta
    | some entry =>
        cases entry with
        | dir => exact absurd hl hnotdir
        | file content mtime =>
            exact ⟨content, mtime, hl, hfree.content _ _ _ _ hf hl (.inl hstat)⟩
  obtain ⟨repoState, hrun, hver, hhas, hothers⟩ :=
    restoreFiles_run (separate_of_files ht hplan.restored) hcan
  have hout : ∀ path ∈ removes, path ∉ restores.map (·.path) := by
    intro path hp hmem
    obtain ⟨r, hr, rfl⟩ := List.mem_map.mp hmem
    exact ((hplan.removed _).mp hp).2 _ (hplan.restored r hr)
  have hremovable : ∀ path ∈ removes, ∃ content mtime,
      repoState.disk.lookup path = some (.file content mtime) := by
    intro path hp
    obtain ⟨⟨g, hg⟩, -⟩ := (hplan.removed path).mp hp
    obtain ⟨content, hl, -⟩ := hfiles path g hg
    rcases hothers path (hout path hp) with h | ⟨h, -⟩
    · exact ⟨content, _, h.trans hl⟩
    · exact absurd (h.symm.trans hl) (by simp)
  obtain ⟨state₂, hrun₂, hver₂, -, -, hlook₂⟩ :=
    @runSteps_remove repo { state with toRepoState := repoState } removes hplan.nodup hremovable
  refine ⟨state₂, ?_, fun r hr => ?_, fun path hp => by rw [hlook₂, if_pos hp], fun path hp hr => ?_⟩
  · rw [@runSteps_append repo state _ _ { state with toRepoState := repoState }, hrun₂]
    rw [runSteps_restore, run_liftRepo, hrun]
  · obtain ⟨content, mtime, hl, hv⟩ := hhas r hr
    refine ⟨content, mtime, ?_, by rwa [hver] at hv⟩
    rw [hlook₂, if_neg fun hp => hout _ hp (List.mem_map_of_mem hr)]
    exact hl
  · rw [hlook₂, if_neg hp]
    exact hothers path hr

/-- After the restores and removals the disk has the files of the merge commit and
the untracked files. -/
theorem merged_of_unobstructed
    (hfree : Unobstructed repo.toLocalRepository state.toRepoState s t)
    (htimes : RestoresTimes s t) :
    ∃ state', (runSteps repo (.writeMarker t.id :: ((restores.map MergeStep.restore ++
        removes.map MergeStep.remove) ++ [.setHead t.id, .clearMarker]))).run state =
          .ok () state' ∧ Merged s t state state' := by
  obtain ⟨state₂, hrun, hrestored, hremoved, hothers⟩ := @runSteps_of_unobstructed db repo
    { state with mergeInProgress := some t.id } s t ht hfiles hversions restores removes hplan hfree
    htimes
  refine ⟨{ state₂ with head := t.id, mergeInProgress := none }, ?_, ?_, ?_, rfl, rfl⟩
  · rw [runSteps_writeMarker, runSteps_append hrun, runSteps_finish]
  · -- a file of the merge commit has the commit's content on the new disk
    have hpresent : ∀ path f content, (path, f) ∈ t.tree.files [] →
        state.versions f.hash = some content →
        ∃ mtime, state₂.disk.lookup path = some (.file content mtime) := by
      intro path f content hf hv
      by_cases hr : ⟨f, path⟩ ∈ restores
      · obtain ⟨content', mtime, hl, hv'⟩ := hrestored _ hr
        obtain rfl := Option.some.inj (hv.symm.trans hv')
        exact ⟨mtime, hl⟩
      · obtain ⟨g, hg, hh⟩ := hplan.kept path f hf hr
        obtain ⟨content', hl, -, hv'⟩ := hfiles path g hg
        rw [hh] at hv'
        obtain rfl := Option.some.inj (hv.symm.trans hv')
        have hout : path ∉ restores.map (·.path) := by
          intro hmem
          obtain ⟨r, hr', rfl⟩ := List.mem_map.mp hmem
          have heq := ht.file_eq hf (hplan.restored r hr')
          exact hr (heq ▸ hr')
        have hkeep : path ∉ removes := fun hp => ((hplan.removed path).mp hp).2 f hf
        rcases hothers path hkeep hout with h | ⟨h, -⟩
        · exact ⟨_, h.trans hl⟩
        · exact absurd (h.symm.trans hl) (by simp)
    -- so has an untracked file, which is the merge commit's or in no one's way
    have huntracked : ∀ path content mtime, Untracked state.disk s path content mtime →
        ∃ mtime, state₂.disk.lookup path = some (.file content mtime) := by
      intro path content mtime ⟨hl, hnone⟩
      by_cases hf : ∃ f, (path, f) ∈ t.tree.files []
      · obtain ⟨f, hf⟩ := hf
        exact hpresent path f content hf (hfree.content _ _ _ _ hf hl (.inr hnone))
      · have hout : path ∉ restores.map (·.path) := by
          intro hmem
          obtain ⟨r, hr, rfl⟩ := List.mem_map.mp hmem
          exact hf ⟨_, hplan.restored r hr⟩
        have hkeep : path ∉ removes := fun hp =>
          ((hplan.removed path).mp hp).1.elim fun g hg => hnone g hg
        rcases hothers path hkeep hout with h | ⟨h, -⟩
        · exact ⟨mtime, h.trans hl⟩
        · exact absurd (h.symm.trans hl) (by simp)
    intro path content
    constructor
    · rintro ⟨mtime, hl⟩
      have hl₂ : state₂.disk.lookup path = some (.file content mtime) := hl
      by_cases hf : ∃ f, (path, f) ∈ t.tree.files []
      · obtain ⟨f, hf⟩ := hf
        obtain ⟨content', hv⟩ := hversions path f hf
        obtain ⟨mtime', hl'⟩ := hpresent path f content' hf hv
        obtain ⟨rfl, -⟩ := FsEntry.file.inj (Option.some.inj (hl₂.symm.trans hl'))
        exact .inl ⟨f, hf, hv⟩
      · right
        have hout : path ∉ restores.map (·.path) := by
          intro hmem
          obtain ⟨r, hr, rfl⟩ := List.mem_map.mp hmem
          exact hf ⟨_, hplan.restored r hr⟩
        have hkeep : path ∉ removes := fun hp =>
          absurd (hl₂.symm.trans (hremoved path hp)) (by simp)
        have hl₀ : state.disk.lookup path = some (.file content mtime) := by
          rcases hothers path hkeep hout with h | ⟨-, h⟩
          · exact h.symm.trans hl₂
          · exact absurd (h.symm.trans hl₂) (by simp)
        refine ⟨mtime, hl₀, fun g hg => hkeep ((hplan.removed path).mpr ⟨⟨g, hg⟩, ?_⟩)⟩
        exact not_exists.mp hf
    · rintro (⟨f, hf, hv⟩ | ⟨mtime, hu⟩)
      · exact hpresent path f content hf hv
      · exact huntracked path content mtime hu
  · intro path content mtime ⟨hl, hnone⟩ hf
    have hout : path ∉ restores.map (·.path) := by
      intro hmem
      obtain ⟨r, hr, rfl⟩ := List.mem_map.mp hmem
      exact hf _ (hplan.restored r hr)
    have hkeep : path ∉ removes := fun hp =>
      ((hplan.removed path).mp hp).1.elim fun g hg => hnone g hg
    rcases hothers path hkeep hout with h | ⟨h, -⟩
    · exact h.trans hl
    · exact absurd (h.symm.trans hl) (by simp)

omit hfiles in
/-- A merge that reaches its target found nothing in its way. -/
theorem unobstructed_of_merged {state' : ClientState}
    (hrun : (runSteps repo (.writeMarker t.id :: ((restores.map MergeStep.restore ++
      removes.map MergeStep.remove) ++ [.setHead t.id, .clearMarker]))).run state = .ok () state')
    (hmerged : Merged s t state state') :
    Unobstructed repo.toLocalRepository state.toRepoState s t ∧ RestoresTimes s t := by
  rw [runSteps_writeMarker] at hrun
  obtain ⟨state₃, hchanges, hfinish⟩ := runSteps_append_ok hrun
  obtain ⟨state₂, hrestore, hremove⟩ := runSteps_append_ok hchanges
  have hdisk : state'.disk = state₃.disk := by
    rw [runSteps_finish] at hfinish
    injection hfinish with _ hfinish
    rw [← hfinish]
  obtain ⟨-, -, -, hlook⟩ := runSteps_remove_ok hremove
  rw [runSteps_restore, run_liftRepo] at hrestore
  cases hrepo : (restoreFiles repo.toLocalRepository restores).run state.toRepoState with
  | error e repoState =>
      rw [show ({ state with mergeInProgress := some t.id } : ClientState).toRepoState =
        state.toRepoState from rfl, hrepo] at hrestore
      cases hrestore
  | ok _ repoState =>
      rw [show ({ state with mergeInProgress := some t.id } : ClientState).toRepoState =
        state.toRepoState from rfl, hrepo] at hrestore
      injection hrestore with _ hrestore
      have hdisk₂ : state₂.disk = repoState.disk := by rw [← hrestore]
      have htimes : RestoresTimes s t := by
        intro path f hf hne
        by_contra htime
        have hin : ⟨f, path⟩ ∈ restores := by
          by_contra hout
          obtain ⟨g, hg, hh⟩ := hplan.kept path f hf hout
          exact hne g hg hh
        exact htime (hasTime_of_restoreFiles hrepo _ hin)
      -- a file of the merge commit was there before the removals
      have hfile : ∀ path f, (path, f) ∈ t.tree.files [] → ∃ content mtime,
          repoState.disk.lookup path = some (.file content mtime) ∧
            state.versions f.hash = some content ∧
            state'.disk.lookup path = some (.file content mtime) := by
        intro path f hf
        obtain ⟨content, hv⟩ := hversions path f hf
        obtain ⟨mtime, hl⟩ := (hmerged.files path content).mpr (.inl ⟨f, hf, hv⟩)
        refine ⟨content, mtime, ?_, hv, hl⟩
        have hl₃ := hlook path
        rw [← hdisk, hl] at hl₃
        split at hl₃
        · cases hl₃
        · rw [← hdisk₂, ← hl₃]
      refine ⟨⟨fun path f hf hdir => ?_, fun path f hf q rest hrest hq content mtime hl => ?_,
        fun path f content mtime hf hl hor => ?_⟩, htimes⟩
      · have hl : state.disk.lookup path = some .dir := by simpa [WorkingTree.isDir] using hdir
        obtain ⟨content, mtime, hl', -⟩ := hfile path f hf
        exact absurd ((restoreFiles_keeps_dir hrepo hl).symm.trans hl') (by simp)
      · obtain ⟨content', mtime', hl', -⟩ := hfile path f hf
        obtain ⟨c, m, hq'⟩ := restoreFiles_keeps_file hrepo ⟨content, mtime, hl⟩
        have hdir := @WorkingTree.isDir_of_isPrefix repoState.disk q _ hrest (by rw [← hq, hl']; simp)
        exact absurd (hq'.symm.trans hdir) (by simp)
      · obtain ⟨content', mtime', hl', hv, hlast⟩ := hfile path f hf
        rcases hor with hstat | hnone
        · have hkeep := restoreFiles_keeps hrepo hl fun r hr hp => by
            have := ht.file_eq (hp ▸ hplan.restored r hr) hf
            rw [this]
            exact hstat
          obtain ⟨rfl, -⟩ := FsEntry.file.inj (Option.some.inj (hkeep.symm.trans hl'))
          exact hv
        · obtain ⟨m, hl₁⟩ := (hmerged.files path content).mpr (.inr ⟨mtime, hl, hnone⟩)
          obtain ⟨rfl, -⟩ := FsEntry.file.inj (Option.some.inj (hl₁.symm.trans hlast))
          exact hv

end Run

/-! ## The merge -/

theorem fastForwardMerge_run {fuel : ℕ} (hid : s.id ≠ t.id) (isResume : Bool) :
    (fastForwardMerge repo db fuel s.id t.id (.present isResume)).run state =
      match planFastForward repo db fuel state.disk s.id t.id isResume with
      | .error e => .error e state
      | .ok steps =>
          match (runSteps repo steps).run state with
          | .ok _ state' => .ok (some t.id) state'
          | .error e state' => .error e state' := by
  simp only [fastForwardMerge, hid, if_false, LocalCheckout.writesToDisk, Bool.not_true,
    Bool.false_eq_true, LocalCheckout.isResume, EStateM.run_bind, EStateM.run_get]
  cases planFastForward repo db fuel state.disk s.id t.id isResume with
  | error e => rfl
  | ok steps =>
      simp only [EStateM.run_bind]
      cases (runSteps repo steps).run state <;> rfl

/-- A merge that fails once it has begun to write leaves its marker behind. -/
theorem marker_of_error {id : MerkleHash} {restores : List FileToRestore} {removes : List PathBuf}
    {e : OxenError} {state' : ClientState}
    (h : (runSteps repo (.writeMarker id :: ((restores.map MergeStep.restore ++
      removes.map MergeStep.remove) ++ [.setHead id, .clearMarker]))).run state =
        .error e state') : state'.mergeInProgress = some id := by
  rw [runSteps_writeMarker] at h
  obtain ⟨state₁, hrun | ⟨e₁, hrun⟩, -, hmarker⟩ := @runSteps_files repo
    { state with mergeInProgress := some id }
    (restores.map MergeStep.restore ++ removes.map MergeStep.remove) (by
      intro step hstep
      rcases List.mem_append.mp hstep with hstep | hstep
      · obtain ⟨entry, -, rfl⟩ := List.mem_map.mp hstep
        exact .inl ⟨entry, rfl⟩
      · obtain ⟨path, -, rfl⟩ := List.mem_map.mp hstep
        exact .inr ⟨path, rfl⟩)
  · rw [runSteps_append hrun, runSteps_finish] at h
    cases h
  · rw [runSteps_append_error hrun] at h
    injection h with _ h
    rw [← h, hmarker]

/-- A merge onto the same commit has nothing to do. -/
private theorem fastForwards_same {fuel : ℕ} (hhead : state.head = s.id) (hmarker : state.mergeInProgress = none)
    (hfiles : HasFiles state.toRepoState s) (hid : s.id = t.id) :
    FastForwards repo fuel s t state := by
  have htree : s.tree = t.tree := s.stored_tree.eq_of_hash t.stored_tree rfl rfl hid
  have hrun : (fastForwardMerge repo db fuel s.id t.id (.present false)).run state =
      .ok none state := by
    simp [fastForwardMerge, hid]
  rw [FastForwards, hrun]
  refine ⟨fun path content => ?_, fun path content mtime hu _ => hu.1, hhead.trans hid, hmarker⟩
  rw [← htree]
  constructor
  · rintro ⟨mtime, hl⟩
    by_cases hg : ∃ g, (path, g) ∈ s.tree.files []
    · obtain ⟨g, hg⟩ := hg
      obtain ⟨content', hl', -, hv⟩ := hfiles path g hg
      obtain ⟨rfl, -⟩ := FsEntry.file.inj (Option.some.inj (hl.symm.trans hl'))
      exact .inl ⟨g, hg, hv⟩
    · exact .inr ⟨mtime, hl, not_exists.mp hg⟩
  · rintro (⟨f, hf, hv⟩ | ⟨mtime, hl, -⟩)
    · obtain ⟨content', hl', -, hv'⟩ := hfiles path f hf
      obtain rfl := Option.some.inj (hv.symm.trans hv')
      exact ⟨_, hl'⟩
    · exact ⟨mtime, hl⟩

private theorem canFastForward_same (hfiles : HasFiles state.toRepoState s) (hid : s.id = t.id) :
    CanFastForward repo state.toRepoState s t := by
  have htree : s.tree = t.tree := s.stored_tree.eq_of_hash t.stored_tree rfl rfl hid
  have hon : ∀ path f, (path, f) ∈ t.tree.files [] → ∃ content,
      state.disk.lookup path = some (.file content f.lastModified) ∧
        state.versions f.hash = some content := by
    intro path f hf
    obtain ⟨content, hl, -, hv⟩ := hfiles path f (htree ▸ hf)
    exact ⟨content, hl, hv⟩
  refine ⟨fun parent g cs hr => absurd hr (not_fromReaches_of_id_eq hid),
    fun path f hnew => absurd (htree ▸ hnew.1) (hnew.2 f), .inr ⟨⟨?_, ?_, ?_⟩, ?_⟩⟩
  · intro path f hf hdir
    obtain ⟨content, hl, -⟩ := hon path f hf
    simp [WorkingTree.isDir, hl] at hdir
  · intro path f hf q rest hrest hq content mtime hl
    obtain ⟨content', hl', -⟩ := hon path f hf
    have hdir := @WorkingTree.isDir_of_isPrefix state.disk q _ hrest (by rw [← hq, hl']; simp)
    exact absurd (hl.symm.trans hdir) (by simp)
  · intro path f content mtime hf hl _
    obtain ⟨content', hl', hv⟩ := hon path f hf
    obtain ⟨rfl, -⟩ := FsEntry.file.inj (Option.some.inj (hl.symm.trans hl'))
    exact hv
  · intro path f hf hne
    exact absurd rfl (hne f (htree ▸ hf))

/-- From a working tree with the base commit's files and any untracked files, a
fast-forward merge reaches its target or refuses to overwrite an untracked file,
exactly when the base commit's times can be loaded, the local copies of new files can
be read, and one of them differs or nothing is in the way of the files to write. -/
theorem fastForwards_iff (repo : MergeRepository) (s t : CommitTree db) (state : ClientState)
    {fuel : ℕ} (hfs : s.tree.size ≤ fuel) (hft : t.tree.size ≤ fuel) (hs : UniquePaths [] s.tree)
    (ht : UniquePaths [] t.tree) (hplace : SharedInPlace s t) (hhead : state.head = s.id)
    (hmarker : state.mergeInProgress = none) (hfiles : HasFiles state.toRepoState s)
    (hversions : HasVersions state.toRepoState t) :
    FastForwards repo fuel s t state ↔ CanFastForward repo state.toRepoState s t := by
  by_cases hid : s.id = t.id
  · exact iff_of_true (fastForwards_same hhead hmarker hfiles hid)
      (canFastForward_same hfiles hid)
  rw [FastForwards, fastForwardMerge_run hid, planFastForward_eq hfs hft]
  have hids : (some s).map (·.id) ≠ some t.id := fun h => hid (Option.some.inj h)
  by_cases hload : loadPanics (some s) t = true
  · rw [if_pos hload]
    obtain ⟨_, parent, g, cs, ⟨⟩, hr, htime⟩ := (loadPanics_iff hids).mp hload
    refine iff_of_false ?_ fun h => by simp [h.1 parent g cs hr] at htime
    rintro ⟨⟨paths, hpaths⟩, -⟩
    cases hpaths
  rw [if_neg hload]
  have hloaded : ∀ parent g cs,
      FromReaches t.tree.containerHashes s.tree parent (.mk (.file g) cs) → g.hasTime = true := by
    intro parent g cs hr
    by_contra htime
    exact hload ((loadPanics_iff hids).mpr
      ⟨s, parent, g, cs, rfl, hr, Bool.eq_false_iff.mpr htime⟩)
  have hok := @walkMergeCommit_isOk_iff db repo state s t hs ht hplace hid hfiles
  cases hw : walkMergeCommit repo state.disk (partialNodes (some s) t) (commonNodes (some s) t)
      false t.tree with
  | error e =>
      -- the first walk fails, and not for a conflict
      have hnot : ¬ ∀ path f, NewFile s t path f →
          ∃ b, repo.shouldRestoreFile state.disk none f path = .ok b := by
        rw [← hok, hw]
        simp
      have hnoConflict := walkMergeCommit_error hs ht hplace hid hfiles hw
      refine iff_of_false ?_ fun h => hnot h.2.1
      rintro ⟨⟨paths, hpaths⟩, -⟩
      exact hnoConflict paths hpaths
  | ok results =>
      have hread := hok.mp ⟨results, hw⟩
      by_cases hc : results.cannotOverwriteEntries = []
      · obtain ⟨baseResults, hbase, hbc, hplan⟩ :=
          planned_of_clean hs ht hplace hid hfiles hload hw hc
        have hnone : ¬ ∃ path f, NewFile s t path f ∧
            repo.shouldRestoreFile state.disk none f path = .ok false := by
          rintro ⟨path, f, hnew, hb⟩
          have := (mem_mergeConflicts_of_clean hs ht hplace hid hfiles hw).mpr ⟨f, hnew, hb⟩
          simp [hc] at this
        simp only [hc, hbase, hbc, ne_eq, not_true_eq_false, if_false]
        rw [fastForwardSteps_append]
        constructor
        · intro h
          refine ⟨hloaded, hread, .inr ?_⟩
          cases hrun : (runSteps repo (.writeMarker t.id :: ((results.entriesToRestore.map
              MergeStep.restore ++ (baseResults.entriesToRestore.map (·.path)).map
                MergeStep.remove) ++ [.setHead t.id, .clearMarker]))).run state with
          | error e state' =>
              rw [hrun] at h
              obtain ⟨-, hstate, -⟩ := h
              have hleft := marker_of_error hrun
              rw [hstate, hmarker] at hleft
              cases hleft
          | ok _ state' =>
              rw [hrun] at h
              exact unobstructed_of_merged ht hversions hplan hrun h
        · rintro ⟨-, -, hfalse | ⟨hfree, htimes⟩⟩
          · exact absurd hfalse hnone
          · obtain ⟨state', hrun, hmerged⟩ :=
              merged_of_unobstructed ht hfiles hversions hplan hfree htimes
            rw [hrun]
            exact hmerged
      · obtain ⟨path, hmem⟩ := List.exists_mem_of_ne_nil _ hc
        obtain ⟨f, hnew, hb⟩ :=
          (mem_mergeConflicts_of_clean hs ht hplace hid hfiles hw).mp hmem
        obtain ⟨content, mtime, hl⟩ := file_of_shouldRestoreFile_false hb
        simp only [hc, ne_eq, not_false_eq_true, if_true]
        exact iff_of_true
          ⟨⟨_, rfl⟩, trivial, path, f, content, mtime, hnew.1, hl, hnew.2⟩
          ⟨hloaded, hread, .inl ⟨path, f, hnew, hb⟩⟩

namespace FastForwardExample

open Example CleanExample

/-- Files here have no metadata of their own. -/
def mergeRepo : MergeRepository := { Example.repo with metadataHash := fun _ _ => .ok none }

/-- The files `a` and `d` as committed. -/
def atFiles : ClientState := { fileState with head := fileCommit.id, mergeInProgress := none }

theorem hasFiles_atFiles : HasFiles atFiles.toRepoState fileCommit := fun path f hf => by
  obtain ⟨content, hl, hlen, hv⟩ := fileState_clean.file path f hf
  exact ⟨content, hl, hlen, hv⟩

end FastForwardExample

theorem fastForwards_iff_example :
    FastForwards FastForwardExample.mergeRepo 10 Example.fileCommit Example.dirCommit
        FastForwardExample.atFiles ↔
      CanFastForward FastForwardExample.mergeRepo FastForwardExample.atFiles.toRepoState
        Example.fileCommit Example.dirCommit :=
  fastForwards_iff FastForwardExample.mergeRepo Example.fileCommit Example.dirCommit
    FastForwardExample.atFiles (by decide) (by decide) (by decide) (by decide)
    (by decide) rfl rfl FastForwardExample.hasFiles_atFiles
    (.of_forall (by decide))

/-- A file does not give way to a directory: the merge of a clean tree fails after
it has written its marker. -/
theorem not_fastForwards :
    (UniquePaths [] Example.fileCommit.tree ∧ UniquePaths [] Example.dirCommit.tree ∧
      SharedInPlace Example.fileCommit Example.dirCommit ∧
      HasFiles FastForwardExample.atFiles.toRepoState Example.fileCommit ∧
      HasVersions FastForwardExample.atFiles.toRepoState Example.dirCommit) ∧
    ¬ FastForwards FastForwardExample.mergeRepo 10 Example.fileCommit Example.dirCommit
      FastForwardExample.atFiles := by
  refine ⟨⟨by decide, by decide, by decide,
    FastForwardExample.hasFiles_atFiles, .of_forall (by decide)⟩, fun h => ?_⟩
  have hfails : (match (fastForwardMerge FastForwardExample.mergeRepo Example.nodes 10
      Example.fileCommit.id Example.dirCommit.id (.present false)).run FastForwardExample.atFiles with
    | .error e state' => decide (e = .fileError ["d"] ∧ state'.mergeInProgress = some 0xcb)
    | .ok _ _ => false) = true := by decide
  rw [FastForwards] at h
  cases hrun : (fastForwardMerge FastForwardExample.mergeRepo Example.nodes 10
      Example.fileCommit.id Example.dirCommit.id (.present false)).run FastForwardExample.atFiles with
  | ok _ state' => simp [hrun] at hfails
  | error e state' =>
      rw [hrun] at h hfails
      obtain ⟨⟨paths, rfl⟩, -⟩ := h
      simp at hfails

end Oxen
