import Oxen.Model.FastForward
import Oxen.Verification.Checkout.Restore

/-! What the writes of a merge do to the working tree, HEAD and the marker. -/

namespace Oxen

variable {repo : MergeRepository} {state : ClientState}

theorem runSteps_nil : (runSteps repo []).run state = .ok () state := rfl

theorem runSteps_cons {step : MergeStep} {rest : List MergeStep} :
    (runSteps repo (step :: rest)).run state =
      match (step.run repo).run state with
      | .ok _ state' => (runSteps repo rest).run state'
      | .error e state' => .error e state' := by
  rw [runSteps, EStateM.run_bind]
  cases (step.run repo).run state <;> rfl

theorem runSteps_append {steps rest : List MergeStep} {state' : ClientState}
    (h : (runSteps repo steps).run state = .ok () state') :
    (runSteps repo (steps ++ rest)).run state = (runSteps repo rest).run state' := by
  induction steps generalizing state with
  | nil =>
      rw [runSteps_nil] at h
      injection h with _ h
      rw [h, List.nil_append]
  | cons step steps ih =>
      rw [runSteps_cons] at h
      rw [List.cons_append, runSteps_cons]
      cases hstep : (step.run repo).run state with
      | error e state₁ => simp [hstep] at h
      | ok _ state₁ =>
          rw [hstep] at h
          exact ih h

theorem runSteps_append_error {steps rest : List MergeStep} {e : OxenError} {state' : ClientState}
    (h : (runSteps repo steps).run state = .error e state') :
    (runSteps repo (steps ++ rest)).run state = .error e state' := by
  induction steps generalizing state with
  | nil => cases h
  | cons step steps ih =>
      rw [runSteps_cons] at h
      rw [List.cons_append, runSteps_cons]
      cases hstep : (step.run repo).run state with
      | error e₁ state₁ =>
          rw [hstep] at h
          exact h
      | ok _ state₁ =>
          rw [hstep] at h
          exact ih h

/-- A run of two parts that succeeds is a run of each. -/
theorem runSteps_append_ok {steps rest : List MergeStep} {state' : ClientState}
    (h : (runSteps repo (steps ++ rest)).run state = .ok () state') :
    ∃ state₁, (runSteps repo steps).run state = .ok () state₁ ∧
      (runSteps repo rest).run state₁ = .ok () state' := by
  induction steps generalizing state with
  | nil => exact ⟨state, rfl, h⟩
  | cons step steps ih =>
      rw [List.cons_append, runSteps_cons] at h
      cases hstep : (step.run repo).run state with
      | error e state₁ => simp [hstep] at h
      | ok _ state₁ =>
          rw [hstep] at h
          obtain ⟨state₂, hrun, hrest⟩ := ih h
          exact ⟨state₂, by rw [runSteps_cons, hstep]; exact hrun, hrest⟩

/-! ## Restores -/

theorem run_liftRepo {α : Type} {x : RepoM α} :
    (liftRepo x).run state =
      match x.run state.toRepoState with
      | .ok a repoState => .ok a { state with toRepoState := repoState }
      | .error e repoState => .error e { state with toRepoState := repoState } := rfl

/-- The restores of a merge are those of a checkout. -/
theorem runSteps_restore (files : List FileToRestore) :
    (runSteps repo (files.map MergeStep.restore)).run state =
      (liftRepo (restoreFiles repo.toLocalRepository files)).run state := by
  induction files generalizing state with
  | nil => rfl
  | cons r rest ih =>
      rw [List.map_cons, runSteps_cons, MergeStep.run, run_liftRepo, run_liftRepo, restoreFiles,
        EStateM.run_bind]
      cases hrun : (restoreFile repo.toLocalRepository r.fileNode r.path).run state.toRepoState with
      | error e repoState => rfl
      | ok _ repoState =>
          simp only
          rw [ih, run_liftRepo]

section Kinds

variable {repo : LocalRepository} {state state' : RepoState}

theorem WorkingTree.createDirAll_keeps {disk disk' : WorkingTree} {done rest : PathBuf}
    (h : disk.createDirAll done rest = .ok disk') {path : PathBuf} {entry : FsEntry}
    (hl : disk.lookup path = some entry) : disk'.lookup path = some entry := by
  induction rest generalizing disk done with
  | nil =>
      obtain rfl := Except.ok.inj h
      exact hl
  | cons name rest ih =>
      unfold createDirAll at h
      split at h
      · exact ih h hl
      · cases h
      · rename_i hnone
        split at h
        · refine ih h ?_
          rw [lookup_put, if_neg]
          · exact hl
          · rintro rfl
            rw [hnone] at hl
            cases hl
        · cases h

/-- A restore that succeeds skips its file or writes the stored version to it, and
keeps every entry at another path. -/
theorem restoreFile_ok {f : FileNode} {path : PathBuf}
    (h : (restoreFile repo f path).run state = .ok () state') :
    state' = state ∧ StatMatches repo state.disk path f.lastModified f.numBytes ∨
      ¬ StatMatches repo state.disk path f.lastModified f.numBytes ∧
        state'.versions = state.versions ∧
        (∃ content, state.versions f.hash = some content ∧
          state'.disk.lookup path = some (.file content f.lastModified)) ∧
        state.disk.lookup path ≠ some .dir ∧
        ∀ other ≠ path, ∀ entry, state.disk.lookup other = some entry →
          state'.disk.lookup other = some entry := by
  have ht := hasTime_of_restoreFile h
  by_cases hstat : StatMatches repo state.disk path f.lastModified f.numBytes
  · rw [restoreFile_skip ht hstat] at h
    injection h with _ h
    exact .inl ⟨h.symm, hstat⟩
  right
  rw [restoreFile_write ht hstat, EStateM.run_bind] at h
  cases hcreate : (changeDisk (·.createDirAll [] path.dropLast)).run state with
  | error e state₁ => simp [hcreate] at h
  | ok _ state₁ =>
      rw [hcreate] at h
      obtain ⟨hdirs, hver₁⟩ := changeDisk_run_eq_ok hcreate
      cases hv : state.versions f.hash with
      | none => simp [hv] at h
      | some content =>
          simp only [hv] at h
          obtain ⟨hwrite, hver₂⟩ := changeDisk_run_eq_ok h
          unfold WorkingTree.writeFile at hwrite
          split at hwrite
          · rename_i hput
            have hdisk := Except.ok.inj hwrite
            refine ⟨hstat, hver₂.trans hver₁, ⟨content, rfl, ?_⟩, fun hl => ?_,
              fun other hne entry hl => ?_⟩
            · rw [← hdisk, WorkingTree.lookup_put, if_pos rfl]
            · exact hput.2 (WorkingTree.createDirAll_keeps hdirs hl)
            · rw [← hdisk, WorkingTree.lookup_put, if_neg hne]
              exact WorkingTree.createDirAll_keeps hdirs hl
          · cases hwrite

/-- What every restore keeps, a list of restores keeps. -/
theorem restoreFiles_invariant {files : List FileToRestore} {keeps : RepoState → Prop}
    (hstep : ∀ r ∈ files, ∀ before after, keeps before →
      (restoreFile repo r.fileNode r.path).run before = .ok () after → keeps after)
    (h : (restoreFiles repo files).run state = .ok () state') (hstart : keeps state) :
    keeps state' := by
  induction files generalizing state with
  | nil =>
      have heq : (EStateM.Result.ok () state : EStateM.Result OxenError RepoState Unit) =
        .ok () state' := h
      injection heq with _ heq
      rwa [← heq]
  | cons r rest ih =>
      rw [restoreFiles, EStateM.run_bind] at h
      cases hrun : (restoreFile repo r.fileNode r.path).run state with
      | error e state₁ => simp [hrun] at h
      | ok _ state₁ =>
          rw [hrun] at h
          exact ih (fun r' hr' => hstep r' (List.mem_cons_of_mem r hr')) h
            (hstep r (by simp) state state₁ hstart hrun)

/-- Restores keep every entry at whose path they find the size and time they want. -/
theorem restoreFiles_keeps {files : List FileToRestore}
    (h : (restoreFiles repo files).run state = .ok () state') {path : PathBuf} {entry : FsEntry}
    (hl : state.disk.lookup path = some entry)
    (hstat : ∀ r ∈ files, r.path = path →
      StatMatches repo state.disk path r.fileNode.lastModified r.fileNode.numBytes) :
    state'.disk.lookup path = some entry := by
  refine @restoreFiles_invariant repo state state' files
    (fun s => s.disk.lookup path = some entry) ?_ h hl
  intro r hr before after hbefore hrun
  rcases restoreFile_ok hrun with ⟨rfl, -⟩ | ⟨hnot, -, -, -, hkeep⟩
  · exact hbefore
  · refine hkeep path (fun hp => ?_) entry hbefore
    obtain ⟨metadata, hmeta, hm⟩ := hstat r hr hp.symm
    refine hnot ⟨metadata, ?_, hm⟩
    rw [← hp, ← hmeta]
    simp only [LocalRepository.metadata, hbefore, hl]

theorem restoreFiles_keeps_dir {files : List FileToRestore}
    (h : (restoreFiles repo files).run state = .ok () state') {path : PathBuf}
    (hl : state.disk.lookup path = some .dir) : state'.disk.lookup path = some .dir := by
  refine @restoreFiles_invariant repo state state' files
    (fun s => s.disk.lookup path = some .dir) ?_ h hl
  intro r _ before after hbefore hrun
  rcases restoreFile_ok hrun with ⟨rfl, -⟩ | ⟨-, -, -, hdir, hkeep⟩
  · exact hbefore
  · refine hkeep path ?_ .dir hbefore
    rintro rfl
    exact hdir hbefore

/-- A file stays a file while others are restored. -/
theorem restoreFiles_keeps_file {files : List FileToRestore}
    (h : (restoreFiles repo files).run state = .ok () state') {path : PathBuf}
    (hl : ∃ content mtime, state.disk.lookup path = some (.file content mtime)) :
    ∃ content mtime, state'.disk.lookup path = some (.file content mtime) := by
  refine @restoreFiles_invariant repo state state' files
    (fun s => ∃ content mtime, s.disk.lookup path = some (.file content mtime)) ?_ h hl
  rintro r _ before after ⟨content, mtime, hbefore⟩ hrun
  rcases restoreFile_ok hrun with ⟨rfl, -⟩ | ⟨-, -, ⟨content', -, hnew⟩, -, hkeep⟩
  · exact ⟨content, mtime, hbefore⟩
  · by_cases hp : path = r.path
    · exact ⟨content', _, hp ▸ hnew⟩
    · exact ⟨content, mtime, hkeep path hp _ hbefore⟩

end Kinds

/-! ## Removals -/

/-- A removal that succeeds takes a file away and nothing else. -/
theorem removeStep_ok {path : PathBuf} {state' : ClientState}
    (h : ((MergeStep.remove path).run repo).run state = .ok () state') :
    (∃ content mtime, state.disk.lookup path = some (.file content mtime)) ∧
      state'.versions = state.versions ∧ state'.head = state.head ∧
      state'.mergeInProgress = state.mergeInProgress ∧
      ∀ other, state'.disk.lookup other = if other = path then none else state.disk.lookup other := by
  rw [MergeStep.run, run_liftRepo] at h
  cases hrun : (changeDisk (·.removeFile path)).run state.toRepoState with
  | error e repoState => simp [hrun] at h
  | ok _ repoState =>
      rw [hrun] at h
      injection h with _ h
      subst h
      obtain ⟨hremove, hver⟩ := changeDisk_run_eq_ok hrun
      have hremove' : state.disk.removeFile path = .ok repoState.disk := hremove
      cases hl : state.disk.lookup path with
      | none =>
          unfold WorkingTree.removeFile at hremove'
          split at hremove'
          · rename_i hfile
            exact absurd (hl.symm.trans hfile) (by simp)
          · cases hremove'
      | some entry =>
          cases entry with
          | dir =>
              unfold WorkingTree.removeFile at hremove'
              split at hremove'
              · rename_i hfile
                exact absurd (hl.symm.trans hfile) (by simp)
              · cases hremove'
          | file content mtime =>
              obtain ⟨disk', hok, hlook⟩ := WorkingTree.removeFile_of_file hl
              obtain rfl := Except.ok.inj (hok.symm.trans hremove')
              exact ⟨⟨content, mtime, rfl⟩, hver, rfl, rfl, hlook⟩

/-- Removing distinct files succeeds and takes away just them. -/
theorem runSteps_remove {paths : List PathBuf} (hnodup : paths.Nodup)
    (hfile : ∀ path ∈ paths, ∃ content mtime, state.disk.lookup path = some (.file content mtime)) :
    ∃ state', (runSteps repo (paths.map MergeStep.remove)).run state = .ok () state' ∧
      state'.versions = state.versions ∧ state'.head = state.head ∧
      state'.mergeInProgress = state.mergeInProgress ∧
      ∀ other, state'.disk.lookup other =
        if other ∈ paths then none else state.disk.lookup other := by
  induction paths generalizing state with
  | nil => exact ⟨state, rfl, rfl, rfl, rfl, by simp⟩
  | cons path rest ih =>
      obtain ⟨hout, hnodup⟩ := List.nodup_cons.mp hnodup
      obtain ⟨content, mtime, hl⟩ := hfile path (by simp)
      obtain ⟨disk₁, hremove, hlook₁⟩ := WorkingTree.removeFile_of_file hl
      have hstep : ((MergeStep.remove path).run repo).run state =
          .ok () { state with disk := disk₁ } := by
        rw [MergeStep.run, run_liftRepo, changeDisk_run_ok hremove]
      obtain ⟨state₂, hrun, hver, hhead, hmarker, hlook₂⟩ :=
        @ih { state with disk := disk₁ } hnodup fun other ho => by
          rw [hlook₁, if_neg (by rintro rfl; exact hout ho)]
          exact hfile other (by simp [ho])
      refine ⟨state₂, ?_, hver, hhead, hmarker, fun other => ?_⟩
      · rw [List.map_cons, runSteps_cons, hstep]
        exact hrun
      · rw [hlook₂, hlook₁]
        by_cases hp : other = path
        · simp [hp]
        · simp [hp]

/-- Removals that succeed create and change nothing. -/
theorem runSteps_remove_ok {paths : List PathBuf} {state' : ClientState}
    (h : (runSteps repo (paths.map MergeStep.remove)).run state = .ok () state') :
    state'.versions = state.versions ∧ state'.head = state.head ∧
      state'.mergeInProgress = state.mergeInProgress ∧
      ∀ other, state'.disk.lookup other =
        if other ∈ paths then none else state.disk.lookup other := by
  induction paths generalizing state with
  | nil =>
      rw [List.map_nil, runSteps_nil] at h
      injection h with _ h
      subst h
      exact ⟨rfl, rfl, rfl, by simp⟩
  | cons path rest ih =>
      rw [List.map_cons, runSteps_cons] at h
      cases hstep : ((MergeStep.remove path).run repo).run state with
      | error e state₁ => simp [hstep] at h
      | ok _ state₁ =>
          rw [hstep] at h
          obtain ⟨-, hver₁, hhead₁, hmarker₁, hlook₁⟩ := removeStep_ok hstep
          obtain ⟨hver, hhead, hmarker, hlook⟩ := ih h
          refine ⟨hver.trans hver₁, hhead.trans hhead₁, hmarker.trans hmarker₁, fun other => ?_⟩
          rw [hlook, hlook₁]
          by_cases hp : other = path
          · simp [hp]
          · simp [hp]

end Oxen
