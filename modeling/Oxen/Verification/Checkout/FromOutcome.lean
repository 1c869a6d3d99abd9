import Oxen.Verification.Checkout.FromWalk
import Oxen.Verification.Checkout.Verdicts

/-! Outcomes of the from walk over the tree of a commit. -/

namespace Oxen

open MerkleTreeNode

variable {ctx : CleanupContext} {path : PathBuf} {f : FileNode}

theorem isModifiedFromNode_none {repo : LocalRepository} {disk : WorkingTree} {path : PathBuf}
    (h : disk.lookup path = none) (f : FileNode) :
    repo.isModifiedFromNode disk path f = .ok false := by
  simp [LocalRepository.isModifiedFromNode, h]

theorem isModifiedFromNode_congr {repo : LocalRepository} {disk disk' : WorkingTree}
    {path : PathBuf} (h : disk.lookup path = disk'.lookup path) (f : FileNode) :
    repo.isModifiedFromNode disk path f = repo.isModifiedFromNode disk' path f := by
  simp only [LocalRepository.isModifiedFromNode, LocalRepository.classifyModifiedFromNode,
    LocalRepository.metadata, LocalRepository.getHashGivenMetadata, WorkingTree.content, h]

theorem pathExists_of_isModified_ne {repo : LocalRepository} {disk : WorkingTree}
    (h : repo.isModifiedFromNode disk path f ≠ .ok false) : disk.pathExists path = true := by
  cases hl : disk.lookup path with
  | none => exact absurd (isModifiedFromNode_none hl f) h
  | some entry => simp [WorkingTree.pathExists, hl]

/-- A file fails the from walk when its modification check fails and is needed. -/
theorem visitFromFile_error_iff :
    (∃ e, visitFromFile ctx path f = .error e) ↔
      (path ∉ ctx.seenPaths ∨ ctx.repo.isRemoteMode = true) ∧
        ∃ e, ctx.repo.isModifiedFromNode ctx.disk path f = .error e := by
  cases hm : ctx.repo.isModifiedFromNode ctx.disk path f with
  | error e =>
      have hex := pathExists_of_isModified_ne (hm.trans_ne (by simp))
      by_cases hs : path ∈ ctx.seenPaths <;> cases hr : ctx.repo.isRemoteMode <;>
        simp [visitFromFile, hs, hex, hm, hr, Except.map]
  | ok m =>
      by_cases hs : path ∈ ctx.seenPaths <;> cases hr : ctx.repo.isRemoteMode <;>
        cases hex : ctx.disk.pathExists path <;>
          simp [visitFromFile, hs, hex, hm, hr, Except.map]

theorem visitFromFile_missing (h : ctx.disk.lookup path = none) :
    visitFromFile ctx path f = .ok {} := by
  have hex : ctx.disk.pathExists path = false := by simp [WorkingTree.pathExists, h]
  by_cases hs : path ∈ ctx.seenPaths <;> simp [visitFromFile, hs, hex]

/-- A file the target has at its path is at most backed up. -/
theorem visitFromFile_seen (hs : path ∈ ctx.seenPaths) {event : CleanupCandidates}
    (h : visitFromFile ctx path f = .ok event) :
    event.pathsToRemove = [] ∧ event.cannotOverwriteEntries = [] ∧
      ∀ entry ∈ event.filesToStore, entry.2 = path ∧ ctx.disk.pathExists path = true := by
  simp only [visitFromFile, hs, not_true_eq_false, if_false] at h
  split at h
  · rename_i hex
    cases hm : ctx.repo.isModifiedFromNode ctx.disk path f with
    | error e => simp [hm, Except.map] at h
    | ok m =>
        obtain rfl : _ = event := by simpa [hm, Except.map] using h
        cases m <;> simp [hex.1]
  · obtain rfl : _ = event := by simpa using h
    simp

theorem visitFromFile_outside (hs : path ∉ ctx.seenPaths) {m : Bool}
    (hex : ctx.disk.pathExists path = true)
    (hm : ctx.repo.isModifiedFromNode ctx.disk path f = .ok m) :
    visitFromFile ctx path f =
      .ok (if ctx.onConflict.isAbort ∧ m then { cannotOverwriteEntries := [path] }
        else
          { pathsToRemove := [path]
            filesToStore := if ctx.repo.isRemoteMode ∧ !m then [(f.hash, path)] else [] }) := by
  simp only [visitFromFile, hs, not_false_eq_true, if_true, hex, hm, Except.map]

/-- Under `abort` a file the target lacks is a conflict when the user edited it. -/
theorem mem_visitFromFile_conflicts_iff (ha : ctx.onConflict = .abort) {event : CleanupCandidates}
    (h : visitFromFile ctx path f = .ok event) {conflict : PathBuf} :
    conflict ∈ event.cannotOverwriteEntries ↔
      conflict = path ∧ path ∉ ctx.seenPaths ∧
        ctx.repo.isModifiedFromNode ctx.disk path f = .ok true := by
  by_cases hs : path ∈ ctx.seenPaths
  · simp [(visitFromFile_seen hs h).2.1, hs]
  cases hl : ctx.disk.lookup path with
  | none =>
      obtain rfl : {} = event := by simpa [visitFromFile_missing hl] using h
      simp [isModifiedFromNode_none hl]
  | some entry =>
      have hex : ctx.disk.pathExists path = true := by simp [WorkingTree.pathExists, hl]
      cases hm : ctx.repo.isModifiedFromNode ctx.disk path f with
      | error e => simp [visitFromFile, hs, hex, hm, Except.map] at h
      | ok m =>
          rw [visitFromFile_outside hs hex hm] at h
          obtain rfl := Except.ok.inj h
          cases m <;> simp [ha, OnConflict.isAbort, hs]

theorem classifyModifiedFromNode_error {repo : LocalRepository} {disk : WorkingTree}
    {entry : FsEntry} {metadata : Metadata} {mtimeMatched : Bool} {e : OxenError}
    (h : repo.classifyModifiedFromNode disk path f entry metadata mtimeMatched = .error e) :
    NoConflict e := by
  have hhash : ∀ e', repo.getHashGivenMetadata disk path = .error e' → NoConflict e' := by
    intro e' he paths
    unfold LocalRepository.getHashGivenMetadata at he
    split at he
    · cases he
    · rw [← Except.error.inj he]
      exact OxenError.noConfusion
  unfold LocalRepository.classifyModifiedFromNode at h
  cases hg : repo.getHashGivenMetadata disk path with
  | ok hash =>
      simp only [hg, Except.map] at h
      repeat' split at h
      all_goals cases h
  | error e' =>
      have he : e' = e := by
        simp only [hg, Except.map] at h
        (repeat' split at h) <;> simp_all
      exact he ▸ hhash e' hg

/-- A check that succeeds has compared the times. -/
theorem classify_of_isModifiedFromNode {repo : LocalRepository} {disk : WorkingTree}
    {entry : FsEntry} {metadata : Metadata} {b : Bool} (hl : disk.lookup path = some entry)
    (hmeta : repo.metadata disk path = some metadata)
    (h : repo.isModifiedFromNode disk path f = .ok b) :
    repo.classifyModifiedFromNode disk path f entry metadata
      (repo.withinTolerance metadata.mtime f.lastModified) = .ok b := by
  simp only [LocalRepository.isModifiedFromNode, hl, hmeta, FileNode.computeTime_eq] at h
  split at h
  · cases hmatch : repo.mtimeMatches metadata.mtime f.lastModified with
    | error e =>
        simp only [hmatch, bind, Except.bind] at h
        cases h
    | ok matched =>
        simp only [hmatch, bind, Except.bind] at h
        rwa [mtimeMatches_ok hmatch] at h
  · cases h

theorem isModifiedFromNode_error {repo : LocalRepository} {disk : WorkingTree} {e : OxenError}
    (h : repo.isModifiedFromNode disk path f = .error e) : NoConflict e := by
  unfold LocalRepository.isModifiedFromNode at h
  split at h
  · rename_i entry metadata _ _
    rw [FileNode.computeTime_eq] at h
    split at h
    · cases hmatch : repo.mtimeMatches metadata.mtime f.lastModified with
      | error e' =>
          simp only [hmatch, bind, Except.bind] at h
          rw [← Except.error.inj h, (mtimeMatches_error hmatch).1]
          exact fun _ => OxenError.noConfusion
      | ok matched =>
          simp only [hmatch, bind, Except.bind] at h
          exact classifyModifiedFromNode_error h
    · rw [← Except.error.inj h]
      exact fun _ => OxenError.noConfusion
  · cases h

theorem fromReaches_file_prune_iff {db : NodeStore} (t : CommitTree db) {seen : List MerkleHash}
    (hid : t.id ∉ seen) {parent : PathBuf} :
    (∃ cs, FromReaches (t.tree.loaded seen []).sharedHashes (t.tree.prune seen) parent
      (.mk (.file f) cs)) ↔ ∃ cs, FromReaches seen t.tree parent (.mk (.file f) cs) := by
  constructor
  · rintro ⟨cs, hr⟩
    obtain ⟨⟨n, ds⟩, heq, hr⟩ := (fromReaches_prune_iff t hid).mp hr
    have hn : EMerkleTreeNode.file f = n := by simpa using congrArg node heq
    exact ⟨ds, hn ▸ hr⟩
  · rintro ⟨cs, hr⟩
    refine ⟨[], (fromReaches_prune_iff t hid).mpr ⟨_, ?_, hr⟩⟩
    simp [prune_mk, EMerkleTreeNode.hasChildren]

/-- Loading a from tree panics when the time of a file that it reaches overflows. -/
theorem loaded_panicked_iff {db : NodeStore} (t : CommitTree db) {seen : List MerkleHash}
    (hid : t.id ∉ seen) :
    (t.tree.loaded seen []).panicked = true ↔
      ∃ parent f cs, FromReaches seen t.tree parent (.mk (.file f) cs) ∧ f.hasTime = false := by
  simp only [loaded, List.any_eq_true, Bool.not_eq_true']
  constructor
  · rintro ⟨⟨path, f⟩, hf, htime⟩
    obtain ⟨q, cs, hq, -⟩ := mem_files_iff.mp hf
    obtain ⟨⟨n, ds⟩, ho, heq⟩ := occurs_of_mem_prune hq
    obtain rfl : EMerkleTreeNode.file f = n := by simpa using congrArg node heq
    exact ⟨q, f, ds, Reaches.of_occurs (ho.mono fun _ _ h => h.2), htime⟩
  · rintro ⟨parent, f, cs, hr, htime⟩
    obtain ⟨cs', hr'⟩ := (fromReaches_file_prune_iff t hid).mpr ⟨cs, hr⟩
    obtain ⟨q, hq⟩ := hr'.exists_mem_subtrees
    exact ⟨(q ++ f.name, f), mem_files_iff.mpr ⟨q, cs', hq, rfl⟩, htime⟩

/-- The walk over the pruned tree of a commit reaches only its own commit node,
which has its root directory below it. -/
theorem root_of_reaches_prune {db : NodeStore} (t : CommitTree db) {seen : List MerkleHash}
    (hid : t.id ∉ seen) {parent : PathBuf} {c : CommitNode} {cs : List MerkleTreeNode}
    (h : FromReaches (t.tree.loaded seen []).sharedHashes (t.tree.prune seen) parent
      (.mk (.commit c) cs)) :
    ∃ d vnodes, cs = [.mk (.directory d) vnodes] := by
  obtain ⟨⟨n, ds⟩, heq, hr⟩ := (fromReaches_prune_iff t hid).mp h
  obtain rfl : EMerkleTreeNode.commit c = n := by simpa using congrArg node heq
  obtain ⟨-, htree⟩ := t.eq_root_of_commit_mem hr.mem_subtrees
  obtain ⟨d, vnodes, hroot, -⟩ := t.exists_root
  rw [htree, CommitTree.tree, hroot, prune_mk, if_pos ⟨rfl, hid⟩] at heq
  have hnode := node_prune seen (.mk (.directory d) vnodes)
  rcases hp : MerkleTreeNode.prune seen (.mk (.directory d) vnodes) with ⟨n, ds⟩
  rw [hp] at hnode
  obtain rfl : n = .directory d := hnode
  exact ⟨d, ds, by simpa [hp] using (MerkleTreeNode.mk.inj heq).2⟩

theorem getRootDir_error {t : MerkleTreeNode} {e : OxenError} (h : getRootDir t = .error e) :
    NoConflict e := by
  intro paths
  unfold getRootDir at h
  split at h
  · cases h
  all_goals
    rw [← Except.error.inj h]
    exact OxenError.noConfusion

/-- A failing from walk does not report conflicts. -/
theorem walkFromTree_error {root : MerkleTreeNode} {e : OxenError}
    (h : walkFromTree ctx root = .error e) : NoConflict e := by
  have hw : StackWalk.walk (visitFrom ctx) (2 * root.size) [.visit [] root] = .error e := by
    unfold walkFromTree at h
    rcases hw : StackWalk.walk (visitFrom ctx) (2 * root.size) [.visit [] root] with e' | events
    · simpa [hw, Except.map] using h
    · simp [hw, Except.map] at h
  obtain ⟨-, -, next, -, he⟩ := StackWalk.exists_of_walk_error hw
  match next with
  | .finalizeDir dirPath => cases he
  | .visit path (.mk (.vnode v) cs) => cases he
  | .visit path (.mk (.directory d) vnodes) =>
      rw [visitFrom_directory] at he
      split at he <;> cases he
  | .visit path (.mk (.commit c) cs) =>
      simp only [visitFrom] at he
      cases hr : getRootDir (.mk (.commit c) cs) with
      | ok root => simp [hr, Except.map] at he
      | error e' =>
          obtain rfl : e' = e := by simpa [hr, Except.map] using he
          exact getRootDir_error hr
  | .visit path (.mk (.file f) cs) =>
      rw [visitFrom_file] at he
      cases hv : visitFromFile ctx (path ++ f.name) f with
      | ok event => simp [hv, Except.map] at he
      | error e' =>
          obtain rfl : e' = e := by simpa [hv, Except.map] using he
          obtain ⟨-, e'', hm⟩ := visitFromFile_error_iff.mp ⟨e', hv⟩
          have hex := pathExists_of_isModified_ne (hm.trans_ne (by simp))
          have heq : e'' = e' := by
            unfold visitFromFile at hv
            simp only [hex, hm, Except.map] at hv
            (repeat' split at hv) <;> simp_all
          exact heq ▸ isModifiedFromNode_error hm

end Oxen
