import Oxen.Model.Checkout

/-! The verdicts of the target walk, in terms of the disk and the from tree. -/

namespace Oxen

/-- The error does not report local changes. -/
def NoConflict (e : OxenError) : Prop :=
  ∀ paths, e ≠ .cannotOverwriteFiles paths

/-- The path is on disk with this modification time and size. -/
def StatMatches (repo : LocalRepository) (disk : WorkingTree) (path : PathBuf)
    (mtime : FileTime) (len : Nat) : Prop :=
  ∃ metadata, repo.metadata disk path = some metadata ∧
    repo.withinTolerance metadata.mtime mtime = true ∧ metadata.len = len

/-- What is on disk at the path has a time that does not overflow in comparisons. -/
def ReadsTime (repo : LocalRepository) (disk : WorkingTree) (path : PathBuf) : Prop :=
  ∀ metadata, repo.metadata disk path = some metadata →
    repo.mtimeTolerance = 0 ∨ 0 ≤ metadata.mtime

/-- The disk has something where the target has a file, and a time overflows in the
comparison of the two. -/
def TimeOverflows (repo : LocalRepository) (disk : WorkingTree) (path : PathBuf)
    (f : FileNode) : Prop :=
  disk.lookup path ≠ none ∧ ¬ (f.hasTime = true ∧ ReadsTime repo disk path)

/-- A time overflows, or the disk has a directory where the target has a file, and
its metadata does not hide it. -/
def FileUnreadable (ctx : CheckoutContext) (path : PathBuf) (f : FileNode) : Prop :=
  TimeOverflows ctx.repo ctx.disk path f ∨
    ctx.disk.lookup path = some .dir ∧
      ¬ StatMatches ctx.repo ctx.disk path f.lastModified f.numBytes ∧
      ∀ node, ctx.partialNodes.lookup path = some node →
        ¬ StatMatches ctx.repo ctx.disk path node.lastModified node.size

/-- The disk has a file where the target has a directory and the from tree has a
file, and its time overflows in the comparison with the from tree's. -/
def DirUnreadable (ctx : CheckoutContext) (path : PathBuf) : Prop :=
  ∃ content mtime node, ctx.disk.lookup path = some (.file content mtime) ∧
    ctx.partialNodes.lookup path = some node ∧ mtime ≠ node.lastModified ∧
    ctx.repo.mtimeTolerance ≠ 0 ∧ mtime < 0

/-- The user's copy of a target file matches neither the target nor the from tree. -/
def FileDiverged (ctx : CheckoutContext) (path : PathBuf) (f : FileNode) : Prop :=
  (ctx.disk.lookup path = none ∧
    ∃ node, ctx.partialNodes.lookup path = some node ∧ node.hash ≠ f.hash) ∨
  ∃ content mtime, ctx.disk.lookup path = some (.file content mtime) ∧
    ¬ StatMatches ctx.repo ctx.disk path f.lastModified f.numBytes ∧
    ctx.repo.xxh3 content ≠ f.hash ∧
    ∀ node, ctx.partialNodes.lookup path = some node →
      ¬ StatMatches ctx.repo ctx.disk path node.lastModified node.size ∧
        node.hash ≠ ctx.repo.xxh3 content

/-- The disk has a file where the target has a directory, and the from tree has
a file there that the user has edited. -/
def DirDiverged (ctx : CheckoutContext) (path : PathBuf) : Prop :=
  ∃ content mtime node, ctx.disk.lookup path = some (.file content mtime) ∧
    ctx.partialNodes.lookup path = some node ∧
    ¬ StatMatches ctx.repo ctx.disk path node.lastModified node.size ∧
    node.hash ≠ ctx.repo.xxh3 content

theorem metadata_file (repo : LocalRepository) {disk : WorkingTree} {path : PathBuf}
    {content : Content} {mtime : FileTime} (h : disk.lookup path = some (.file content mtime)) :
    repo.metadata disk path = some { len := content.length, mtime } := by
  simp [LocalRepository.metadata, h]

theorem metadata_dir (repo : LocalRepository) {disk : WorkingTree} {path : PathBuf}
    (h : disk.lookup path = some .dir) :
    repo.metadata disk path = some (repo.dirMetadata path) := by
  simp [LocalRepository.metadata, h]

theorem metadata_none (repo : LocalRepository) {disk : WorkingTree} {path : PathBuf}
    (h : disk.lookup path = none) : repo.metadata disk path = none := by
  simp [LocalRepository.metadata, h]

/-! ## Comparing times -/

theorem max_sub_min_le_zero_iff (a b : Int) : max a b - min a b ≤ 0 ↔ a = b := by omega

theorem withinTolerance_self (repo : LocalRepository) (mtime : FileTime) :
    repo.withinTolerance mtime mtime = true := by
  simp [LocalRepository.withinTolerance]

theorem statMatches_self (repo : LocalRepository) (metadata : Metadata) :
    repo.statMatches metadata metadata.mtime metadata.len = .ok true := by
  simp [LocalRepository.statMatches, LocalRepository.mtimeMatches, Except.map]

theorem mtimeMatches_eq {repo : LocalRepository} {disk : FileTime}
    (h : repo.mtimeTolerance = 0 ∨ 0 ≤ disk) (node : FileTime) :
    repo.mtimeMatches disk node = .ok (repo.withinTolerance disk node) := by
  unfold LocalRepository.mtimeMatches
  by_cases heq : disk = node
  · rw [if_pos heq, heq, withinTolerance_self]
  rw [if_neg heq]
  by_cases hzero : repo.mtimeTolerance = 0
  · have hfar : repo.withinTolerance disk node = false := by
      simp only [LocalRepository.withinTolerance, hzero, decide_eq_false_iff_not]
      exact fun hle => heq ((max_sub_min_le_zero_iff disk node).mp hle)
    rw [if_pos hzero, hfar]
  · rw [if_neg hzero, if_neg (Int.not_lt.mpr (h.resolve_left hzero))]

theorem statMatches_eq {repo : LocalRepository} {disk : WorkingTree} {path : PathBuf}
    {metadata : Metadata} (hr : ReadsTime repo disk path)
    (h : repo.metadata disk path = some metadata) (mtime : FileTime) (len : Nat) :
    repo.statMatches metadata mtime len =
      .ok (repo.withinTolerance metadata.mtime mtime && metadata.len = len) := by
  rw [LocalRepository.statMatches, mtimeMatches_eq (hr metadata h), Except.map]

theorem matchesPartialNode_eq {repo : LocalRepository} {disk : WorkingTree} {path : PathBuf}
    {metadata : Metadata} (hr : ReadsTime repo disk path)
    (h : repo.metadata disk path = some metadata) (node : Option PartialNode) :
    matchesPartialNode repo metadata node =
      .ok (node.any fun node =>
        repo.withinTolerance metadata.mtime node.lastModified && metadata.len = node.size) := by
  cases node with
  | none => rfl
  | some node => exact statMatches_eq hr h _ _

/-- With a time of the target that can be computed, only the disk's can overflow. -/
theorem readsTime_of_mtimeMatches {repo : LocalRepository} {disk : WorkingTree} {path : PathBuf}
    {metadata : Metadata} {f : FileNode} {b : Bool} (ht : f.hasTime = true)
    (h : repo.metadata disk path = some metadata)
    (hm : repo.mtimeMatches metadata.mtime f.lastModified = .ok b) : ReadsTime repo disk path := by
  intro metadata' h'
  obtain rfl := Option.some.inj (h.symm.trans h')
  unfold LocalRepository.mtimeMatches at hm
  split at hm
  · rename_i heq
    exact .inr (heq ▸ FileNode.lastModified_nonneg ht)
  · split at hm
    · exact .inl ‹_›
    · split at hm
      · cases hm
      · exact .inr (Int.not_lt.mp ‹_›)

theorem mtimeMatches_ok {repo : LocalRepository} {disk node : FileTime} {b : Bool}
    (h : repo.mtimeMatches disk node = .ok b) : b = repo.withinTolerance disk node := by
  by_cases heq : disk = node
  · rw [LocalRepository.mtimeMatches, if_pos heq] at h
    rw [heq, withinTolerance_self, Except.ok.inj h]
  · have hreads : repo.mtimeTolerance = 0 ∨ 0 ≤ disk := by
      by_contra hnot
      rw [not_or, Int.not_le] at hnot
      rw [LocalRepository.mtimeMatches, if_neg heq, if_neg hnot.1, if_pos hnot.2] at h
      cases h
    rw [mtimeMatches_eq hreads] at h
    exact (Except.ok.inj h).symm

theorem mtimeMatches_error {repo : LocalRepository} {disk node : FileTime} {e : OxenError}
    (h : repo.mtimeMatches disk node = .error e) :
    e = .panicked ∧ disk ≠ node ∧ repo.mtimeTolerance ≠ 0 ∧ disk < 0 := by
  unfold LocalRepository.mtimeMatches at h
  split at h
  · cases h
  · split at h
    · cases h
    · split at h
      · cases h
        exact ⟨rfl, ‹_›, ‹_›, ‹_›⟩
      · cases h

theorem reads_of_not_overflows {repo : LocalRepository} {disk : WorkingTree} {path : PathBuf}
    {f : FileNode} {metadata : Metadata} (h : repo.metadata disk path = some metadata)
    (ht : ¬ TimeOverflows repo disk path f) : f.hasTime = true ∧ ReadsTime repo disk path := by
  by_contra hnot
  refine ht ⟨fun hl => ?_, hnot⟩
  rw [metadata_none repo hl] at h
  cases h

/-! ## Files -/

theorem targetFileVerdict_none {ctx : CheckoutContext} {path : PathBuf} {f : FileNode}
    (h : ctx.disk.lookup path = none) :
    targetFileVerdict ctx path f =
      match ctx.partialNodes.lookup path with
      | some node =>
          .ok (if node.hash = f.hash then .keep
            else if ctx.onConflict.isAbort then .conflict else .restore)
      | none => .ok .restore := by
  unfold targetFileVerdict
  rewrite [metadata_none _ h]
  rfl

theorem exists_metadata {repo : LocalRepository} {disk : WorkingTree} {path : PathBuf}
    (h : disk.lookup path ≠ none) : ∃ metadata, repo.metadata disk path = some metadata := by
  cases hl : disk.lookup path with
  | none => exact absurd hl h
  | some entry =>
      cases entry with
      | file content mtime => exact ⟨_, metadata_file repo hl⟩
      | dir => exact ⟨_, metadata_dir repo hl⟩

theorem targetFileVerdict_overflows {ctx : CheckoutContext} {path : PathBuf} {f : FileNode}
    (h : TimeOverflows ctx.repo ctx.disk path f) :
    targetFileVerdict ctx path f = .error .panicked := by
  obtain ⟨hl, hnot⟩ := h
  have hthere : ∃ metadata, ctx.repo.metadata ctx.disk path = some metadata := exists_metadata hl
  obtain ⟨metadata, hm⟩ := hthere
  unfold targetFileVerdict
  rw [hm]
  cases ht : f.hasTime with
  | false => simp [ht, bind, Except.bind]
  | true =>
      cases hmatch : ctx.repo.mtimeMatches metadata.mtime f.lastModified with
      | ok b => exact absurd ⟨ht, readsTime_of_mtimeMatches ht hm hmatch⟩ hnot
      | error e =>
          obtain rfl := (mtimeMatches_error hmatch).1
          simp [ht, LocalRepository.statMatches, hmatch, bind, Except.bind, Except.map]

/-- The comparison of a file with the disk when no time overflows. -/
theorem targetFileVerdict_readable {ctx : CheckoutContext} {path : PathBuf} {f : FileNode}
    {metadata : Metadata} (h : ctx.repo.metadata ctx.disk path = some metadata)
    (ht : ¬ TimeOverflows ctx.repo ctx.disk path f) :
    targetFileVerdict ctx path f =
      if ctx.repo.withinTolerance metadata.mtime f.lastModified = true ∧
          metadata.len = f.numBytes then .ok .keep
      else if (ctx.partialNodes.lookup path).any fun node =>
          ctx.repo.withinTolerance metadata.mtime node.lastModified && metadata.len = node.size then
        .ok .restore
      else
        (ctx.repo.getHashGivenMetadata ctx.disk path).map fun workingHash =>
          if workingHash = f.hash then .keep
          else if (ctx.partialNodes.lookup path).map (·.hash) = some workingHash then .restore
          else if ctx.onConflict.isAbort then .conflict else .restore := by
  obtain ⟨htime, hr⟩ := (reads_of_not_overflows h ht)
  unfold targetFileVerdict
  simp only [h, FileNode.computeTime_eq, htime, if_true, bind, Except.bind, statMatches_eq hr h,
    matchesPartialNode_eq hr h, pure, Except.pure, Bool.and_eq_true, decide_eq_true_eq]
  split
  · rfl
  · split
    · rfl
    · cases ctx.repo.getHashGivenMetadata ctx.disk path with
      | error e => rfl
      | ok workingHash =>
          simp only [Except.map]
          split_ifs <;> rfl

theorem targetFileVerdict_some {ctx : CheckoutContext} {path : PathBuf} {f : FileNode}
    {metadata : Metadata} (h : ctx.repo.metadata ctx.disk path = some metadata)
    (ht : ¬ TimeOverflows ctx.repo ctx.disk path f)
    (hf : ¬ StatMatches ctx.repo ctx.disk path f.lastModified f.numBytes)
    (hn : ∀ node, ctx.partialNodes.lookup path = some node →
      ¬ StatMatches ctx.repo ctx.disk path node.lastModified node.size) :
    targetFileVerdict ctx path f =
      (ctx.repo.getHashGivenMetadata ctx.disk path).map fun workingHash =>
        if workingHash = f.hash then .keep
        else if (ctx.partialNodes.lookup path).map (·.hash) = some workingHash then .restore
        else if ctx.onConflict.isAbort then .conflict else .restore := by
  have hf' : ¬ (ctx.repo.withinTolerance metadata.mtime f.lastModified = true ∧
      metadata.len = f.numBytes) := fun hm => hf ⟨metadata, h, hm⟩
  have hn' : ((ctx.partialNodes.lookup path).any fun node =>
      ctx.repo.withinTolerance metadata.mtime node.lastModified && metadata.len = node.size) =
        false := by
    rw [Option.any_eq_false]
    intro node hnode
    simpa using fun hm hlen => hn node hnode ⟨metadata, h, hm, hlen⟩
  rw [targetFileVerdict_readable h ht, if_neg hf', hn', if_neg Bool.false_ne_true]

theorem targetFileVerdict_keep {ctx : CheckoutContext} {path : PathBuf} {f : FileNode}
    (ht : ¬ TimeOverflows ctx.repo ctx.disk path f)
    (hf : StatMatches ctx.repo ctx.disk path f.lastModified f.numBytes) :
    targetFileVerdict ctx path f = .ok .keep := by
  obtain ⟨metadata, h, hm⟩ := hf
  rw [targetFileVerdict_readable h ht, if_pos hm]

theorem targetFileVerdict_restore {ctx : CheckoutContext} {path : PathBuf} {f : FileNode}
    (ht : ¬ TimeOverflows ctx.repo ctx.disk path f)
    (hf : ¬ StatMatches ctx.repo ctx.disk path f.lastModified f.numBytes) {node : PartialNode}
    (hnode : ctx.partialNodes.lookup path = some node)
    (hn : StatMatches ctx.repo ctx.disk path node.lastModified node.size) :
    targetFileVerdict ctx path f = .ok .restore := by
  obtain ⟨metadata, h, hm, hlen⟩ := hn
  have hf' : ¬ (ctx.repo.withinTolerance metadata.mtime f.lastModified = true ∧
      metadata.len = f.numBytes) := fun hm => hf ⟨metadata, h, hm⟩
  rw [targetFileVerdict_readable h ht, if_neg hf', hnode, if_pos (by simp [hm, hlen])]

theorem getHash_file {repo : LocalRepository} {disk : WorkingTree} {path : PathBuf}
    {content : Content} {mtime : FileTime} (h : disk.lookup path = some (.file content mtime)) :
    repo.getHashGivenMetadata disk path = .ok (repo.xxh3 content) := by
  simp [LocalRepository.getHashGivenMetadata, WorkingTree.content, h]

theorem getHash_dir {repo : LocalRepository} {disk : WorkingTree} {path : PathBuf}
    (h : disk.lookup path = some .dir) :
    repo.getHashGivenMetadata disk path =
      .error (.basicStr "Could not read file for hashing") := by
  simp [LocalRepository.getHashGivenMetadata, WorkingTree.content, h]

/-- The four ways a target file compares with the disk. -/
theorem targetFile_cases (ctx : CheckoutContext) (path : PathBuf) (f : FileNode) :
    ctx.disk.lookup path = none ∨
    StatMatches ctx.repo ctx.disk path f.lastModified f.numBytes ∨
    (¬ StatMatches ctx.repo ctx.disk path f.lastModified f.numBytes ∧
      ∃ node, ctx.partialNodes.lookup path = some node ∧
        StatMatches ctx.repo ctx.disk path node.lastModified node.size) ∨
    ((∃ entry, ctx.disk.lookup path = some entry) ∧
      ¬ StatMatches ctx.repo ctx.disk path f.lastModified f.numBytes ∧
      ∀ node, ctx.partialNodes.lookup path = some node →
        ¬ StatMatches ctx.repo ctx.disk path node.lastModified node.size) := by
  by_cases hl : ctx.disk.lookup path = none
  · exact .inl hl
  by_cases hf : StatMatches ctx.repo ctx.disk path f.lastModified f.numBytes
  · exact .inr (.inl hf)
  by_cases hn : ∃ node, ctx.partialNodes.lookup path = some node ∧
      StatMatches ctx.repo ctx.disk path node.lastModified node.size
  · exact .inr (.inr (.inl ⟨hf, hn⟩))
  · exact .inr (.inr (.inr ⟨Option.ne_none_iff_exists'.mp hl, hf,
      fun node hnode hm => hn ⟨node, hnode, hm⟩⟩))

theorem not_statMatches_of_none {repo : LocalRepository} {disk : WorkingTree} {path : PathBuf}
    (h : disk.lookup path = none) (mtime : FileTime) (len : Nat) :
    ¬ StatMatches repo disk path mtime len := by
  rintro ⟨metadata, hm, -⟩
  simp [metadata_none _ h] at hm

/-- The walk fails on a file exactly when its path is an unreadable directory or a
time overflows. -/
theorem targetFileVerdict_error_iff {ctx : CheckoutContext} {path : PathBuf} {f : FileNode} :
    (∃ e, targetFileVerdict ctx path f = .error e) ↔ FileUnreadable ctx path f := by
  by_cases ht : TimeOverflows ctx.repo ctx.disk path f
  · exact ⟨fun _ => .inl ht, fun _ => ⟨_, targetFileVerdict_overflows ht⟩⟩
  rw [FileUnreadable, or_iff_right ht]
  rcases targetFile_cases ctx path f with hl | hf | ⟨hf, node, hnode, hn⟩ | ⟨⟨entry, hl⟩, hf, hn⟩
  · rw [targetFileVerdict_none hl]
    cases ctx.partialNodes.lookup path <;> simp [hl]
  · simp [targetFileVerdict_keep ht hf, hf]
  · simp only [targetFileVerdict_restore ht hf hnode hn, reduceCtorEq, exists_false, false_iff]
    exact fun hu => hu.2.2 node hnode hn
  · cases entry with
    | dir =>
        have hm := metadata_dir ctx.repo hl
        simp only [targetFileVerdict_some hm ht hf hn, getHash_dir hl, Except.map]
        exact ⟨fun _ => ⟨hl, hf, hn⟩, fun _ => ⟨_, rfl⟩⟩
    | file content mtime =>
        have hm := metadata_file ctx.repo hl
        simp [targetFileVerdict_some hm ht hf hn, getHash_file hl, Except.map, hl]

/-- Under `abort` a file is a conflict exactly when the user's copy diverged and
could be compared. -/
theorem targetFileVerdict_conflict_iff {ctx : CheckoutContext} {path : PathBuf} {f : FileNode} :
    targetFileVerdict ctx path f = .ok .conflict ↔
      ctx.onConflict.isAbort = true ∧ FileDiverged ctx path f ∧
        ¬ TimeOverflows ctx.repo ctx.disk path f := by
  by_cases ht : TimeOverflows ctx.repo ctx.disk path f
  · simp [targetFileVerdict_overflows ht, ht]
  rw [and_iff_left ht]
  rcases targetFile_cases ctx path f with hl | hf | ⟨hf, node, hnode, hn⟩ | ⟨⟨entry, hl⟩, hf, hn⟩
  · rw [targetFileVerdict_none hl]
    cases hp : ctx.partialNodes.lookup path with
    | none => simp [FileDiverged, hl, hp]
    | some node =>
        by_cases hh : node.hash = f.hash <;> cases ha : ctx.onConflict.isAbort <;>
          simp [FileDiverged, hl, hp, hh]
  · simp only [targetFileVerdict_keep ht hf, Except.ok.injEq, reduceCtorEq, false_iff]
    rintro ⟨-, ⟨hl, -⟩ | ⟨_, _, -, hf', -⟩⟩
    · exact not_statMatches_of_none hl _ _ hf
    · exact hf' hf
  · simp only [targetFileVerdict_restore ht hf hnode hn, Except.ok.injEq, reduceCtorEq, false_iff]
    rintro ⟨-, ⟨hl, -⟩ | ⟨_, _, -, -, -, hn'⟩⟩
    · exact not_statMatches_of_none hl _ _ hn
    · exact (hn' node hnode).1 hn
  · cases entry with
    | dir =>
        have hm := metadata_dir ctx.repo hl
        simp [targetFileVerdict_some hm ht hf hn, getHash_dir hl, Except.map, FileDiverged, hl]
    | file content mtime =>
        have hm := metadata_file ctx.repo hl
        simp only [targetFileVerdict_some hm ht hf hn, getHash_file hl, Except.map]
        constructor
        · intro h
          split_ifs at h with hc hp ha <;> simp only [Except.ok.injEq, reduceCtorEq] at h
          refine ⟨ha, .inr ⟨content, mtime, hl, hf, hc, fun node hnode => ⟨hn node hnode, ?_⟩⟩⟩
          intro hh
          simp [hnode, hh] at hp
        · rintro ⟨ha, ⟨hl', -⟩ | ⟨c, m, hl', -, hc, hn'⟩⟩
          · simp [hl] at hl'
          · obtain ⟨rfl, rfl⟩ := FsEntry.file.inj (Option.some.inj (hl.symm.trans hl'))
            rw [if_neg hc, if_neg, if_pos ha]
            rintro hp
            obtain ⟨node, hnode, hh⟩ := Option.map_eq_some_iff.mp hp
            exact (hn' node hnode).2 hh

/-! ## Directories -/

/-- The comparison of a file with the from tree's, when no time overflows. -/
theorem matchesFromNode_eq {ctx : CheckoutContext} {path : PathBuf} {content : Content}
    {mtime : FileTime} {node : PartialNode}
    (h : ctx.disk.lookup path = some (.file content mtime))
    (ht : ¬ (mtime ≠ node.lastModified ∧ ctx.repo.mtimeTolerance ≠ 0 ∧ mtime < 0)) :
    matchesFromNode ctx path node = .ok (decide
      (ctx.repo.withinTolerance mtime node.lastModified = true ∧ content.length = node.size ∨
        ctx.repo.xxh3 content = node.hash)) := by
  unfold matchesFromNode
  rw [metadata_file ctx.repo h]
  cases hmatch : ctx.repo.mtimeMatches mtime node.lastModified with
  | error e => exact absurd (mtimeMatches_error hmatch).2 ht
  | ok matched =>
      have hwithin : matched = ctx.repo.withinTolerance mtime node.lastModified :=
        mtimeMatches_ok hmatch
      simp only [LocalRepository.statMatches, hmatch, hwithin, Except.map, bind, Except.bind, pure,
        Except.pure, Bool.and_eq_true, decide_eq_true_eq, getHash_file h]
      split_ifs with hm
      · simp [hm]
      · simp [hm]

theorem matchesFromNode_overflows {ctx : CheckoutContext} {path : PathBuf} {content : Content}
    {mtime : FileTime} {node : PartialNode}
    (h : ctx.disk.lookup path = some (.file content mtime))
    (ht : mtime ≠ node.lastModified ∧ ctx.repo.mtimeTolerance ≠ 0 ∧ mtime < 0) :
    matchesFromNode ctx path node = .error .panicked := by
  unfold matchesFromNode
  rw [metadata_file ctx.repo h]
  simp [LocalRepository.statMatches, LocalRepository.mtimeMatches, ht.1, ht.2.1, ht.2.2, Except.map,
    bind, Except.bind]

/-- The walk clears the path of a directory, replaces a file there, or under `abort`
reports the file the user has edited. It fails when the time of that file overflows. -/
theorem targetDirVerdict_file {ctx : CheckoutContext} {path : PathBuf} {content : Content}
    {mtime : FileTime} (h : ctx.disk.lookup path = some (.file content mtime)) :
    (DirUnreadable ctx path ∧ targetDirVerdict ctx path = .error .panicked) ∨
    (¬ DirUnreadable ctx path ∧ DirDiverged ctx path ∧ ctx.onConflict.isAbort = true ∧
      targetDirVerdict ctx path = .ok .conflict) ∨
    (¬ DirUnreadable ctx path ∧ ¬ (DirDiverged ctx path ∧ ctx.onConflict.isAbort = true) ∧
      ∃ fromHash, targetDirVerdict ctx path = .ok (.replace fromHash)) := by
  have hblocked : ctx.disk.pathExists path = true ∧ (!ctx.disk.isDir path) = true := by
    simp [WorkingTree.pathExists, WorkingTree.isDir, h]
  rw [targetDirVerdict, if_pos hblocked]
  cases hp : ctx.partialNodes.lookup path with
  | none =>
      refine .inr (.inr ⟨?_, ?_, none, rfl⟩)
      · rintro ⟨_, _, node, -, hn, -⟩
        simp [hp] at hn
      · rintro ⟨⟨_, _, node, -, hn, -⟩, -⟩
        simp [hp] at hn
  | some node =>
      by_cases ht : mtime ≠ node.lastModified ∧ ctx.repo.mtimeTolerance ≠ 0 ∧ mtime < 0
      · refine .inl ⟨⟨content, mtime, node, h, hp, ht⟩, ?_⟩
        simp only [matchesFromNode_overflows h ht, Except.map]
      have hreadable : ¬ DirUnreadable ctx path := by
        rintro ⟨c, m, node', hc, hn, hover⟩
        obtain rfl := Option.some.inj (hp.symm.trans hn)
        obtain ⟨rfl, rfl⟩ := FsEntry.file.inj (Option.some.inj (h.symm.trans hc))
        exact ht hover
      right
      have hmatch := matchesFromNode_eq h ht
      by_cases hm : StatMatches ctx.repo ctx.disk path node.lastModified node.size
      · refine .inr ⟨hreadable, ?_, some node.hash, ?_⟩
        · rintro ⟨⟨_, _, node', -, hn, hm', -⟩, -⟩
          obtain rfl := Option.some.inj (hp.symm.trans hn)
          exact hm' hm
        · obtain ⟨metadata, hmeta, hm⟩ := hm
          obtain rfl := Option.some.inj ((metadata_file ctx.repo h).symm.trans hmeta)
          simp only at hm
          simp [hmatch, hm, Except.map]
      · have hm' : ¬ (ctx.repo.withinTolerance mtime node.lastModified = true ∧
            content.length = node.size) := fun hm' => hm ⟨_, metadata_file _ h, hm'⟩
        by_cases hh : ctx.repo.xxh3 content = node.hash
        · refine .inr ⟨hreadable, ?_, some node.hash, by simp [hmatch, hh, Except.map]⟩
          rintro ⟨⟨c, m, node', hc, hn, -, hne⟩, -⟩
          obtain rfl := Option.some.inj (hp.symm.trans hn)
          obtain ⟨rfl, rfl⟩ := FsEntry.file.inj (Option.some.inj (h.symm.trans hc))
          exact hne hh.symm
        · have hd : DirDiverged ctx path := ⟨content, mtime, node, h, hp, hm, Ne.symm hh⟩
          have hdiffers := hmatch.trans
            (congrArg Except.ok (decide_eq_false (not_or.mpr ⟨hm', hh⟩)))
          cases ha : ctx.onConflict.isAbort with
          | true => exact .inl ⟨hreadable, hd, rfl, by simp [hdiffers, Except.map]⟩
          | false => exact .inr ⟨hreadable, by simp, some node.hash, by simp [hdiffers, Except.map]⟩

theorem targetDirVerdict_not_file {ctx : CheckoutContext} {path : PathBuf}
    (h : ∀ content mtime, ctx.disk.lookup path ≠ some (.file content mtime)) :
    targetDirVerdict ctx path = .ok .clear := by
  have hclear : ¬ (ctx.disk.pathExists path = true ∧ (!ctx.disk.isDir path) = true) := by
    cases hl : ctx.disk.lookup path with
    | none => simp [WorkingTree.pathExists, hl]
    | some entry =>
        cases entry with
        | dir => simp [WorkingTree.isDir, hl]
        | file content mtime => exact absurd hl (h content mtime)
  rw [targetDirVerdict, if_neg hclear]

end Oxen
