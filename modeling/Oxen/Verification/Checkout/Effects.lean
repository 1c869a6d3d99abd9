import Oxen.Model.Checkout

/-! What each mutation of a checkout does to the disk and to the version store. -/

namespace Oxen

/-- No stored version is lost or changed. -/
def VersionStore.Extends (versions versions' : VersionStore) : Prop :=
  ∀ hash content, versions hash = some content → versions' hash = some content

theorem VersionStore.Extends.refl (versions : VersionStore) : versions.Extends versions :=
  fun _ _ h => h

theorem VersionStore.Extends.trans {a b c : VersionStore} (hab : a.Extends b)
    (hbc : b.Extends c) : a.Extends c :=
  fun hash content h => hbc hash content (hab hash content h)

theorem VersionStore.extends_store (versions : VersionStore) (hash : MerkleHash)
    (content : Content) : versions.Extends (versions.store hash content) := by
  intro h c hc
  unfold VersionStore.store
  split
  · exact hc
  · rename_i hn
    rwa [Function.update_of_ne]
    rintro rfl
    simp [hc] at hn

theorem changeDisk_run_ok {change : WorkingTree → Except OxenError WorkingTree}
    {state : RepoState} {disk : WorkingTree} (h : change state.disk = .ok disk) :
    (changeDisk change).run state = .ok () { state with disk } := by
  simp [changeDisk, h]

namespace WorkingTree

theorem content_eq_some_iff {disk : WorkingTree} {path : PathBuf} {content : Content} :
    disk.content path = some content ↔ ∃ mtime, disk.lookup path = some (.file content mtime) := by
  unfold WorkingTree.content
  split
  · rename_i c m h
    simp [h]
  · rename_i h
    simp only [reduceCtorEq, false_iff, not_exists]
    exact fun mtime hl => h content mtime hl

end WorkingTree

theorem storeVersionFromPath_run {hash : MerkleHash} {path : PathBuf} {state : RepoState}
    {content : Content} (h : state.disk.content path = some content) :
    (storeVersionFromPath hash path).run state =
      .ok () { state with versions := state.versions.store hash content } := by
  rcases WorkingTree.content_eq_some_iff.mp h with ⟨mtime, hl⟩
  simp [storeVersionFromPath, hl]

theorem applyDirReplacement_run (repo : LocalRepository) {replacement : DirReplacement}
    {state : RepoState} (h : state.disk.lookup replacement.fullPath ≠ some .dir) :
    ∃ state', (applyDirReplacement repo replacement).run state = .ok () state' ∧
      (∀ path, state'.disk.lookup path =
        if path = replacement.fullPath then none else state.disk.lookup path) ∧
      state.versions.Extends state'.versions := by
  cases hl : state.disk.lookup replacement.fullPath with
  | none =>
      refine ⟨state, by simp [applyDirReplacement, WorkingTree.pathExists, hl], ?_, .refl _⟩
      intro path
      split
      · rename_i hp
        rw [hp, hl]
      · rfl
  | some entry =>
      cases entry with
      | dir => exact absurd hl h
      | file content mtime =>
          obtain ⟨disk', hremove, hlook⟩ := WorkingTree.removeFile_of_file hl
          have hcontent := WorkingTree.content_eq_some_iff.mpr ⟨mtime, hl⟩
          have hexists : state.disk.pathExists replacement.fullPath = true := by
            simp [WorkingTree.pathExists, hl]
          by_cases hr : repo.isRemoteMode = true
          · cases hf : replacement.fromHash with
            | none =>
                exact ⟨{ state with disk := disk' },
                  by simp [applyDirReplacement, hexists, hr, hf, changeDisk, hremove],
                  hlook, .refl _⟩
            | some fromHash =>
                exact ⟨{ disk := disk', versions := state.versions.store fromHash content },
                  by simp [applyDirReplacement, hexists, hr, hf, changeDisk, hremove,
                    storeVersionFromPath_run hcontent],
                  hlook, VersionStore.extends_store _ _ _⟩
          · exact ⟨{ state with disk := disk' },
              by simp [applyDirReplacement, hexists, hr, changeDisk, hremove], hlook, .refl _⟩

theorem applyDirReplacements_run (repo : LocalRepository) {replacements : List DirReplacement}
    {state : RepoState}
    (h : ∀ r ∈ replacements, state.disk.lookup r.fullPath ≠ some .dir) :
    ∃ state', (applyDirReplacements repo replacements).run state = .ok () state' ∧
      (∀ path, state'.disk.lookup path =
        if path ∈ replacements.map (·.fullPath) then none else state.disk.lookup path) ∧
      state.versions.Extends state'.versions := by
  induction replacements generalizing state with
  | nil => exact ⟨state, rfl, by simp, .refl _⟩
  | cons replacement rest ih =>
      obtain ⟨state₁, hrun₁, hlook₁, hver₁⟩ :=
        applyDirReplacement_run repo (h replacement (by simp))
      have hrest : ∀ r ∈ rest, state₁.disk.lookup r.fullPath ≠ some .dir := by
        intro r hr
        rw [hlook₁]
        split
        · simp
        · exact h r (by simp [hr])
      obtain ⟨state₂, hrun₂, hlook₂, hver₂⟩ := ih hrest
      refine ⟨state₂, by simp [applyDirReplacements, hrun₁, hrun₂], fun path => ?_,
        hver₁.trans hver₂⟩
      rw [hlook₂, hlook₁]
      by_cases hp : path = replacement.fullPath
      · simp [hp]
      · simp [hp]

/-- A removal takes away the entry at its path unless a directory still holds
other entries, and leaves every other path alone. -/
theorem removePath_run (path : PathBuf) (state : RepoState) :
    ∃ state', (removePath path).run state = .ok () state' ∧ state'.versions = state.versions ∧
      (∀ other, state'.disk.lookup other = state.disk.lookup other ∨
        other = path ∧ state'.disk.lookup other = none) ∧
      (state.disk.lookup path ≠ some .dir → state'.disk.lookup path = none) := by
  unfold removePath
  by_cases h : state.disk.lookup path ≠ some .dir ∨ state.disk.isEmptyDir path
  · refine ⟨{ state with disk := state.disk.erase path h }, by simp [h], rfl, fun other => ?_,
      fun hdir => ?_⟩
    · rw [WorkingTree.lookup_erase]
      split
      · rename_i hr
        simp [hr]
      · split
        · rename_i ho
          exact .inr ⟨ho, rfl⟩
        · exact .inl rfl
    · have hne : path ≠ [] := by
        rintro rfl
        exact hdir state.disk.lookup_nil
      rw [WorkingTree.lookup_erase, if_neg hne, if_pos rfl]
  · exact ⟨state, by simp [h], rfl, fun other => .inl rfl,
      fun hdir => absurd (Or.inl hdir) h⟩

/-- Removals drop the files they name and never create or change anything. -/
theorem removePaths_run (paths : List PathBuf) (state : RepoState) :
    ∃ state', (removePaths paths).run state = .ok () state' ∧ state'.versions = state.versions ∧
      (∀ other, state'.disk.lookup other = state.disk.lookup other ∨
        other ∈ paths ∧ state'.disk.lookup other = none) ∧
      ∀ path ∈ paths, state.disk.lookup path ≠ some .dir → state'.disk.lookup path = none := by
  induction paths generalizing state with
  | nil => exact ⟨state, rfl, rfl, fun other => .inl rfl, by simp⟩
  | cons path rest ih =>
      obtain ⟨state₁, hrun₁, hver₁, hlook₁, hgone₁⟩ := removePath_run path state
      obtain ⟨state₂, hrun₂, hver₂, hlook₂, hgone₂⟩ := ih state₁
      have hnone : ∀ other, state₁.disk.lookup other = none → state₂.disk.lookup other = none := by
        intro other h
        rcases hlook₂ other with h₂ | h₂
        · rw [h₂, h]
        · exact h₂.2
      refine ⟨state₂, by simp [removePaths, hrun₁, hrun₂], hver₂.trans hver₁, fun other => ?_, ?_⟩
      · rcases hlook₂ other with h₂ | h₂
        · rcases hlook₁ other with h₁ | h₁
          · exact .inl (h₂.trans h₁)
          · exact .inr ⟨by simp [h₁.1], h₂.trans h₁.2⟩
        · exact .inr ⟨List.mem_cons_of_mem _ h₂.1, h₂.2⟩
      · intro other hother hdir
        rcases List.mem_cons.mp hother with rfl | hother
        · exact hnone other (hgone₁ hdir)
        · rcases hlook₁ other with h₁ | h₁
          · exact hgone₂ other hother (by rwa [h₁])
          · exact hnone other h₁.2

/-- Storing files changes the version store only. -/
theorem storeFiles_run {files : List (MerkleHash × PathBuf)} {state : RepoState}
    (h : ∀ file ∈ files, ∃ content, state.disk.content file.2 = some content) :
    ∃ state', (storeFiles files).run state = .ok () state' ∧ state'.disk = state.disk ∧
      state.versions.Extends state'.versions := by
  induction files generalizing state with
  | nil => exact ⟨state, rfl, rfl, .refl _⟩
  | cons file rest ih =>
      obtain ⟨content, hc⟩ := h file (by simp)
      obtain ⟨state₂, hrun, hdisk, hver⟩ :=
        @ih { state with versions := state.versions.store file.1 content }
          fun f hf => h f (by simp [hf])
      exact ⟨state₂, by simp [storeFiles, storeVersionFromPath_run hc, hrun], hdisk,
        (VersionStore.extends_store _ _ _).trans hver⟩

/-- The removals of a cleanup that found no conflict. -/
def applyCleanup (repo : LocalRepository) (candidates : CleanupCandidates) : RepoM Unit := do
  if repo.isRemoteMode then
    storeFiles candidates.filesToStore
  removePaths candidates.pathsToRemove

/-- A cleanup that can read what it backs up succeeds and only removes. -/
theorem applyCleanup_run (repo : LocalRepository) {candidates : CleanupCandidates}
    {state : RepoState}
    (h : ∀ file ∈ candidates.filesToStore, ∃ content, state.disk.content file.2 = some content) :
    ∃ state', (applyCleanup repo candidates).run state = .ok () state' ∧
      state.versions.Extends state'.versions ∧
      (∀ other, state'.disk.lookup other = state.disk.lookup other ∨
        other ∈ candidates.pathsToRemove ∧ state'.disk.lookup other = none) ∧
      ∀ path ∈ candidates.pathsToRemove, state.disk.lookup path ≠ some .dir →
        state'.disk.lookup path = none := by
  by_cases hr : repo.isRemoteMode = true
  · obtain ⟨state₁, hrun₁, hdisk, hver₁⟩ := storeFiles_run h
    obtain ⟨state₂, hrun₂, hver₂, hlook, hgone⟩ := removePaths_run candidates.pathsToRemove state₁
    rw [hdisk] at hlook hgone
    exact ⟨state₂, by simp [applyCleanup, hr, hrun₁, hrun₂], hver₂ ▸ hver₁, hlook, hgone⟩
  · obtain ⟨state₂, hrun₂, hver₂, hlook, hgone⟩ := removePaths_run candidates.pathsToRemove state
    exact ⟨state₂, by simp [applyCleanup, hr, hrun₂], hver₂ ▸ .refl _, hlook, hgone⟩

theorem cleanupRemovedFiles_run (repo : LocalRepository) (fromNode : MerkleTreeNode)
    (commonNodes : List MerkleHash) (seenPaths : List PathBuf) (onConflict : OnConflict)
    (state : RepoState) :
    (cleanupRemovedFiles repo fromNode commonNodes seenPaths onConflict).run state =
      match walkFromTree { repo, disk := state.disk, commonNodes, seenPaths, onConflict }
          fromNode with
      | .error e => .error e state
      | .ok candidates =>
          if candidates.cannotOverwriteEntries ≠ [] then
            .error (.cannotOverwriteFiles candidates.cannotOverwriteEntries) state
          else (applyCleanup repo candidates).run state := by
  simp only [cleanupRemovedFiles, EStateM.run_bind, EStateM.run_get]
  cases walkFromTree { repo, disk := state.disk, commonNodes, seenPaths, onConflict } fromNode with
  | error e => rfl
  | ok candidates =>
      by_cases hc : candidates.cannotOverwriteEntries ≠ []
      · simp [hc]
      · simp only [hc, if_false]
        rfl

end Oxen
