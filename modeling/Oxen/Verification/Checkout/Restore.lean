import Oxen.Verification.Checkout.Effects
import Oxen.Verification.Checkout.Verdicts

/-! Restoring the files of a checkout one after the other. -/

namespace Oxen

/-- The disk has the stored version of the file at the path. -/
def HasVersion (state : RepoState) (path : PathBuf) (f : FileNode) : Prop :=
  ∃ content mtime, state.disk.lookup path = some (.file content mtime) ∧
    state.versions f.hash = some content

namespace WorkingTree

/-- Creating a directory and its ancestors succeeds when no file is in the way,
and adds directories only. -/
theorem createDirAll_run {disk : WorkingTree} {done rest : PathBuf}
    (hdone : disk.lookup done = some .dir)
    (hfree : ∀ q, q <+: rest → ∀ content mtime, disk.lookup (done ++ q) ≠ some (.file content mtime)) :
    ∃ disk', disk.createDirAll done rest = .ok disk' ∧ disk'.lookup (done ++ rest) = some .dir ∧
      ∀ path, disk'.lookup path = disk.lookup path ∨
        disk.lookup path = none ∧ disk'.lookup path = some .dir ∧
          ∃ q, q <+: rest ∧ path = done ++ q := by
  induction rest generalizing disk done with
  | nil => exact ⟨disk, rfl, by simpa using hdone, fun path => .inl rfl⟩
  | cons name rest ih =>
      have hfree' : ∀ q, q <+: rest → ∀ content mtime,
          disk.lookup (done ++ [name] ++ q) ≠ some (.file content mtime) := by
        intro q hq
        simpa using hfree (name :: q) (List.cons_prefix_cons.mpr ⟨rfl, hq⟩)
      unfold createDirAll
      split
      · rename_i hl
        obtain ⟨disk', hrun, hdir, hlook⟩ := ih hl hfree'
        refine ⟨disk', hrun, by simpa using hdir, fun path => ?_⟩
        rcases hlook path with h | ⟨hnone, h, q, hq, rfl⟩
        · exact .inl h
        · exact .inr ⟨hnone, h, name :: q, List.cons_prefix_cons.mpr ⟨rfl, hq⟩, by simp⟩
      · rename_i content mtime hl
        exact absurd hl (hfree [name] (by simp) content mtime)
      · rename_i hl
        rw [dif_pos hdone]
        have hput := @lookup_put disk (done ++ [name]) .dir (by simp [hdone, hl])
        obtain ⟨disk', hrun, hdir, hlook⟩ := @ih (disk.put (done ++ [name]) .dir _) (done ++ [name])
          (by rw [hput, if_pos rfl]) (by
            intro q hq content mtime
            rw [hput]
            split
            · simp
            · exact hfree' q hq content mtime)
        refine ⟨disk', hrun, by simpa using hdir, fun path => ?_⟩
        have hfirst : [name] <+: name :: rest := by simp
        rcases hlook path with h | ⟨hnone, h, q, hq, rfl⟩
        · rw [hput] at h
          by_cases hp : path = done ++ [name]
          · subst hp
            exact .inr ⟨hl, by rw [h, if_pos rfl], [name], hfirst, rfl⟩
          · exact .inl (by rw [h, if_neg hp])
        · rw [hput] at hnone
          split at hnone
          · cases hnone
          · exact .inr ⟨hnone, h, name :: q, List.cons_prefix_cons.mpr ⟨rfl, hq⟩, by simp⟩

end WorkingTree

/-- No file is created or changed at the path. -/
def AddsNoFile (disk disk' : WorkingTree) (path : PathBuf) : Prop :=
  ∀ content mtime, disk'.lookup path = some (.file content mtime) →
    disk.lookup path = some (.file content mtime)

theorem WorkingTree.createDirAll_addsNoFile {disk disk' : WorkingTree} {done rest : PathBuf}
    (h : disk.createDirAll done rest = .ok disk') (path : PathBuf) : AddsNoFile disk disk' path := by
  induction rest generalizing disk done with
  | nil =>
      obtain rfl := Except.ok.inj h
      exact fun _ _ hl => hl
  | cons name rest ih =>
      unfold createDirAll at h
      split at h
      · exact ih h
      · cases h
      · split at h
        · intro content mtime hl
          have hput := ih h content mtime hl
          rw [lookup_put] at hput
          split at hput
          · cases hput
          · exact hput
        · cases h

theorem WorkingTree.writeFile_addsNoFile {disk disk' : WorkingTree} {path : PathBuf}
    {content : Content} {mtime : FileTime} (h : disk.writeFile path content mtime = .ok disk')
    {other : PathBuf} (hne : other ≠ path) : AddsNoFile disk disk' other := by
  unfold writeFile at h
  split at h
  · obtain rfl := Except.ok.inj h
    intro content' mtime' hl
    rwa [lookup_put, if_neg hne] at hl
  · cases h

theorem changeDisk_run_eq_ok {change : WorkingTree → Except OxenError WorkingTree}
    {state state' : RepoState} (h : (changeDisk change).run state = .ok () state') :
    change state.disk = .ok state'.disk ∧ state'.versions = state.versions := by
  cases hd : change state.disk with
  | error e => simp [changeDisk, hd] at h
  | ok disk =>
      rw [changeDisk_run_ok hd] at h
      injection h with _ h
      subst h
      exact ⟨rfl, rfl⟩

/-- A file can be brought to its stored version: it has one, no file stands in
the way of a directory above it, no directory is at its path, a copy on disk that
passes for the version is the version, and its time can be computed. -/
structure CanRestore (state : RepoState) (repo : LocalRepository) (r : FileToRestore) : Prop where
  path_ne : r.path ≠ []
  not_dir : state.disk.lookup r.path ≠ some .dir
  not_blocked : ∀ q rest, rest ≠ [] → r.path = q ++ rest →
    ∀ content mtime, state.disk.lookup q ≠ some (.file content mtime)
  has_content : ∃ content, state.versions r.fileNode.hash = some content
  stat : StatMatches repo state.disk r.path r.fileNode.lastModified r.fileNode.numBytes →
    HasVersion state r.path r.fileNode
  has_time : r.fileNode.hasTime = true

theorem restoreFile_panics {f : FileNode} (h : f.hasTime = false) (repo : LocalRepository)
    (path : PathBuf) (state : RepoState) :
    (restoreFile repo f path).run state = .error .panicked state := by
  unfold restoreFile
  rewrite [EStateM.run_bind, EStateM.run_get]
  dsimp only
  rewrite [h]
  rfl

theorem restoreFile_skip {repo : LocalRepository} {f : FileNode} {path : PathBuf} {state : RepoState}
    (ht : f.hasTime = true) (h : StatMatches repo state.disk path f.lastModified f.numBytes) :
    (restoreFile repo f path).run state = .ok () state := by
  obtain ⟨metadata, hm, hmtime, hlen⟩ := h
  simp [restoreFile, ht, hm, hmtime, hlen]

theorem restoreFile_write {repo : LocalRepository} {f : FileNode} {path : PathBuf}
    {state : RepoState} (ht : f.hasTime = true)
    (h : ¬ StatMatches repo state.disk path f.lastModified f.numBytes) :
    (restoreFile repo f path).run state =
      (do
        changeDisk (·.createDirAll [] path.dropLast)
        match state.versions f.hash with
        | none => throw (.fileError path)
        | some content => changeDisk (·.writeFile path content f.lastModified) :
        RepoM Unit).run state := by
  have hany : ((repo.metadata state.disk path).any fun metadata =>
      metadata.len = f.numBytes ∧ repo.withinTolerance metadata.mtime f.lastModified) = false := by
    rw [Option.any_eq_false]
    intro metadata hm
    simpa using fun hlen hmtime => h ⟨metadata, hm, hmtime, hlen⟩
  unfold restoreFile
  rewrite [EStateM.run_bind, EStateM.run_get]
  dsimp only
  rewrite [ht, hany]
  rfl

/-- A restore that succeeds has computed the time of the file. -/
theorem hasTime_of_restoreFile {repo : LocalRepository} {f : FileNode} {path : PathBuf}
    {state state' : RepoState} (h : (restoreFile repo f path).run state = .ok () state') :
    f.hasTime = true := by
  by_contra htime
  rw [restoreFile_panics (Bool.eq_false_iff.mpr htime)] at h
  cases h

section Restore

variable {repo : LocalRepository} {state : RepoState}

/-- Restoring a file changes its own path and adds directories above it. -/
theorem restoreFile_run {r : FileToRestore} (h : CanRestore state repo r) :
    ∃ state', (restoreFile repo r.fileNode r.path).run state = .ok () state' ∧
      state'.versions = state.versions ∧ HasVersion state' r.path r.fileNode ∧
      ∀ path ≠ r.path, state'.disk.lookup path = state.disk.lookup path ∨
        state.disk.lookup path = none ∧ state'.disk.lookup path = some .dir ∧
          ∃ rest ≠ [], r.path = path ++ rest := by
  by_cases hstat : StatMatches repo state.disk r.path r.fileNode.lastModified r.fileNode.numBytes
  · exact ⟨state, restoreFile_skip h.has_time hstat, rfl, h.stat hstat, fun path _ => .inl rfl⟩
  obtain ⟨content, hcontent⟩ := h.has_content
  have hsplit := List.dropLast_append_getLast h.path_ne
  have hfree : ∀ q, q <+: r.path.dropLast → ∀ content mtime,
      state.disk.lookup ([] ++ q) ≠ some (.file content mtime) := by
    rintro q ⟨rest, hrest⟩
    rw [← hrest, List.append_assoc] at hsplit
    exact h.not_blocked q _ (by simp) hsplit.symm
  obtain ⟨disk₁, hcreate, hparent, hlook⟩ :=
    WorkingTree.createDirAll_run state.disk.lookup_nil hfree
  have hnotdir : disk₁.lookup r.path ≠ some .dir := by
    rcases hlook r.path with hl | ⟨-, -, q, hq, hp⟩
    · rw [hl]
      exact h.not_dir
    · have hle := hq.length_le
      rw [show q = r.path by simpa using hp.symm, List.length_dropLast] at hle
      have hpos := List.length_pos_of_ne_nil h.path_ne
      omega
  have hput : disk₁.lookup r.path.dropLast = some .dir ∧ disk₁.lookup r.path ≠ some .dir :=
    ⟨by simpa using hparent, hnotdir⟩
  refine ⟨{ state with disk := disk₁.put r.path (.file content r.fileNode.lastModified) hput },
    ?_, rfl, ⟨content, _, by rw [WorkingTree.lookup_put, if_pos rfl], hcontent⟩, fun path hne => ?_⟩
  · rw [restoreFile_write h.has_time hstat, EStateM.run_bind, changeDisk_run_ok hcreate]
    simp only [hcontent]
    exact changeDisk_run_ok (by simp [WorkingTree.writeFile, hput])
  · simp only [WorkingTree.lookup_put, if_neg hne]
    rcases hlook path with hl | ⟨hnone, hdir, q, ⟨rest, hrest⟩, rfl⟩
    · exact .inl hl
    · refine .inr ⟨hnone, hdir, rest ++ [r.path.getLast h.path_ne], by simp, ?_⟩
      rw [← List.append_assoc, hrest, hsplit]

/-- A successful restore creates a file at its own path only. -/
theorem restoreFile_addsNoFile {f : FileNode} {path : PathBuf} {state' : RepoState}
    (h : (restoreFile repo f path).run state = .ok () state') {other : PathBuf}
    (hne : other ≠ path) : AddsNoFile state.disk state'.disk other := by
  have ht := hasTime_of_restoreFile h
  by_cases hstat : StatMatches repo state.disk path f.lastModified f.numBytes
  · rw [restoreFile_skip ht hstat] at h
    injection h with _ h
    subst h
    exact fun _ _ hl => hl
  rw [restoreFile_write ht hstat, EStateM.run_bind] at h
  cases hcreate : (changeDisk (·.createDirAll [] path.dropLast)).run state with
  | error e state₁ => simp [hcreate] at h
  | ok _ state₁ =>
      rw [hcreate] at h
      obtain ⟨hdirs, -⟩ := changeDisk_run_eq_ok hcreate
      cases hv : state.versions f.hash with
      | none => simp [hv] at h
      | some content =>
          simp only [hv] at h
          obtain ⟨hwrite, -⟩ := changeDisk_run_eq_ok h
          intro content' mtime hl
          exact WorkingTree.createDirAll_addsNoFile hdirs other content' mtime
            (WorkingTree.writeFile_addsNoFile hwrite hne content' mtime hl)

theorem restoreFiles_addsNoFile {files : List FileToRestore} {state' : RepoState}
    (h : (restoreFiles repo files).run state = .ok () state') {other : PathBuf}
    (hne : other ∉ files.map (·.path)) : AddsNoFile state.disk state'.disk other := by
  induction files generalizing state with
  | nil =>
      have heq : (EStateM.Result.ok () state : EStateM.Result OxenError RepoState Unit) =
        .ok () state' := h
      injection heq with _ heq
      subst heq
      exact fun _ _ hl => hl
  | cons r rest ih =>
      obtain ⟨hr, hrest⟩ : other ≠ r.path ∧ other ∉ rest.map (·.path) := by simpa using hne
      rw [restoreFiles, EStateM.run_bind] at h
      cases hrun : (restoreFile repo r.fileNode r.path).run state with
      | error e state₁ => simp [hrun] at h
      | ok _ state₁ =>
          rw [hrun] at h
          intro content mtime hl
          exact restoreFile_addsNoFile hrun hr content mtime (ih h hrest content mtime hl)

theorem hasTime_of_restoreFiles {files : List FileToRestore} {state' : RepoState}
    (h : (restoreFiles repo files).run state = .ok () state') :
    ∀ r ∈ files, r.fileNode.hasTime = true := by
  induction files generalizing state with
  | nil =>
      intro r hr
      cases hr
  | cons file rest ih =>
      rw [restoreFiles, EStateM.run_bind] at h
      cases hrun : (restoreFile repo file.fileNode file.path).run state with
      | error e state₁ => simp [hrun] at h
      | ok _ state₁ =>
          rw [hrun] at h
          intro r hr
          rcases List.mem_cons.mp hr with rfl | hr
          · exact hasTime_of_restoreFile hrun
          · exact ih h r hr

/-- No file to restore lies below another, and a path names one file. -/
def Separate (files : List FileToRestore) : Prop :=
  ∀ r ∈ files, ∀ r' ∈ files, (r'.path = r.path → r' = r) ∧
    ∀ rest ≠ [], r'.path ≠ r.path ++ rest

/-- Restoring one file leaves the others restorable. -/
theorem CanRestore.of_restoreFile {r r' : FileToRestore} {state' : RepoState}
    (h : CanRestore state repo r') (hver : state'.versions = state.versions)
    (hhas : HasVersion state' r.path r.fileNode)
    (hlook : ∀ path ≠ r.path, state'.disk.lookup path = state.disk.lookup path ∨
      state.disk.lookup path = none ∧ state'.disk.lookup path = some .dir ∧
        ∃ rest ≠ [], r.path = path ++ rest)
    (heq : r'.path = r.path → r' = r) (hbelow : ∀ rest ≠ [], r'.path ≠ r.path ++ rest)
    (habove : ∀ rest ≠ [], r.path ≠ r'.path ++ rest) : CanRestore state' repo r' := by
  by_cases hp : r'.path = r.path
  · obtain rfl := heq hp
    obtain ⟨content, mtime, hl, hc⟩ := id hhas
    refine ⟨h.path_ne, by simp [hl], ?_, ⟨content, hc⟩, fun _ => hhas, h.has_time⟩
    intro q rest hrest hq content mtime
    rcases hlook q (by rw [hq]; simpa using hrest) with hl | ⟨-, hl, -⟩
    · rw [hl]
      exact h.not_blocked q rest hrest hq content mtime
    · simp [hl]
  · have hl : state'.disk.lookup r'.path = state.disk.lookup r'.path := by
      rcases hlook _ hp with hl | ⟨-, -, rest, hrest, hq⟩
      · exact hl
      · exact absurd hq (habove rest hrest)
    refine ⟨h.path_ne, by rw [hl]; exact h.not_dir, ?_, by rw [hver]; exact h.has_content, ?_,
      h.has_time⟩
    · intro q rest hrest hq content mtime
      by_cases hqr : q = r.path
      · exact absurd (hqr ▸ hq) (hbelow rest hrest)
      · rcases hlook q hqr with hl | ⟨-, hl, -⟩
        · rw [hl]
          exact h.not_blocked q rest hrest hq content mtime
        · simp [hl]
    · rintro ⟨metadata, hm, hmatch⟩
      have hm' : repo.metadata state.disk r'.path = some metadata := by
        rw [← hm]
        simp only [LocalRepository.metadata, hl]
      obtain ⟨content, mtime, hfile, hc⟩ := h.stat ⟨metadata, hm', hmatch⟩
      exact ⟨content, mtime, hl.trans hfile, by rw [hver]; exact hc⟩

/-- Restoring separate files brings each to its version and otherwise only adds
directories. -/
theorem restoreFiles_run {files : List FileToRestore} (hsep : Separate files)
    (h : ∀ r ∈ files, CanRestore state repo r) :
    ∃ state', (restoreFiles repo files).run state = .ok () state' ∧
      state'.versions = state.versions ∧ (∀ r ∈ files, HasVersion state' r.path r.fileNode) ∧
      ∀ path ∉ files.map (·.path), state'.disk.lookup path = state.disk.lookup path ∨
        state.disk.lookup path = none ∧ state'.disk.lookup path = some .dir := by
  induction files generalizing state with
  | nil => exact ⟨state, rfl, rfl, by simp, fun path _ => .inl rfl⟩
  | cons r rest ih =>
      obtain ⟨state₁, hrun₁, hver₁, hhas₁, hlook₁⟩ := restoreFile_run (h r (by simp))
      have hcan : ∀ r' ∈ rest, CanRestore state₁ repo r' := by
        intro r' hr'
        have hmem := List.mem_cons_of_mem r hr'
        have hr := hsep r (by simp) r' hmem
        exact (h r' hmem).of_restoreFile hver₁ hhas₁ hlook₁ hr.1 hr.2
          (hsep r' hmem r (by simp)).2
      obtain ⟨state₂, hrun₂, hver₂, hhas₂, hlook₂⟩ :=
        ih (fun r hr r' hr' => hsep r (by simp [hr]) r' (by simp [hr'])) hcan
      refine ⟨state₂, by simp [restoreFiles, hrun₁, hrun₂], hver₂.trans hver₁, ?_, ?_⟩
      · intro r' hr'
        rcases List.mem_cons.mp hr' with rfl | hr'
        · by_cases hp : r'.path ∈ rest.map (·.path)
          · obtain ⟨r'', hmem, hpath⟩ := List.mem_map.mp hp
            obtain rfl := (hsep r' (by simp) r'' (by simp [hmem])).1 hpath
            exact hhas₂ r'' hmem
          · obtain ⟨content, mtime, hl, hc⟩ := hhas₁
            refine ⟨content, mtime, ?_, by rw [hver₂]; exact hc⟩
            rcases hlook₂ _ hp with hl₂ | ⟨hnone, -⟩
            · exact hl₂.trans hl
            · simp [hl] at hnone
        · exact hhas₂ r' hr'
      · intro path hp
        obtain ⟨hne, hp⟩ : path ≠ r.path ∧ path ∉ rest.map (·.path) := by simpa using hp
        rcases hlook₁ path hne with hl₁ | ⟨hnone, hdir, -⟩
        · rw [← hl₁]
          exact hlook₂ path hp
        · rcases hlook₂ path hp with hl₂ | ⟨hnone₂, -⟩
          · exact .inr ⟨hnone, hl₂.trans hdir⟩
          · simp [hdir] at hnone₂

end Restore

end Oxen
