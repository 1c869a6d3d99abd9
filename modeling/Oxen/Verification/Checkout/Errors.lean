import Oxen.Lib.ThrowsOnly
import Oxen.Verification.Checkout.Effects
import Oxen.Verification.Checkout.Verdicts

/-! The mutations of a checkout never report local changes. -/

namespace Oxen

open EStateM

theorem noConflict_fileError (path : PathBuf) : NoConflict (.fileError path) :=
  fun _ => OxenError.noConfusion

theorem noConflict_panicked : NoConflict .panicked :=
  fun _ => OxenError.noConfusion

theorem throwsOnly_changeDisk {change : WorkingTree → Except OxenError WorkingTree}
    (h : ∀ disk e, change disk = .error e → NoConflict e) :
    ThrowsOnly NoConflict (changeDisk change) := by
  refine .bind .get fun state => ?_
  cases hc : change state.disk with
  | ok disk => exact .set _
  | error e => exact .throw (h _ e hc)

theorem createDirAll_error {disk : WorkingTree} {done rest : List String} {e : OxenError}
    (h : disk.createDirAll done rest = .error e) : ∃ path, e = .fileError path := by
  induction rest generalizing disk done with
  | nil => simp [WorkingTree.createDirAll] at h
  | cons name rest ih =>
      unfold WorkingTree.createDirAll at h
      split at h
      · exact ih h
      · exact ⟨_, (Except.error.inj h).symm⟩
      · split at h
        · exact ih h
        · exact ⟨_, (Except.error.inj h).symm⟩

theorem writeFile_error {disk : WorkingTree} {path : PathBuf} {content : Content}
    {mtime : FileTime} {e : OxenError} (h : disk.writeFile path content mtime = .error e) :
    e = .fileError path := by
  unfold WorkingTree.writeFile at h
  split at h
  · cases h
  · exact (Except.error.inj h).symm

theorem throwsOnly_storeVersionFromPath (hash : MerkleHash) (path : PathBuf) :
    ThrowsOnly NoConflict (storeVersionFromPath hash path) := by
  refine .bind .get fun state => ?_
  split
  · exact .set _
  · split
    · exact .bind (.set _) fun _ => .throw (noConflict_fileError _)
    · exact .pure _
  · exact .throw (noConflict_fileError _)

theorem throwsOnly_storeFiles (files : List (MerkleHash × PathBuf)) :
    ThrowsOnly NoConflict (storeFiles files) := by
  induction files with
  | nil => exact .pure _
  | cons file rest ih => exact .bind (throwsOnly_storeVersionFromPath _ _) fun _ => ih

theorem throwsOnly_restoreFile (repo : LocalRepository) (f : FileNode) (path : PathBuf) :
    ThrowsOnly NoConflict (restoreFile repo f path) := by
  refine .bind .get fun state => ?_
  split
  · exact .throw noConflict_panicked
  · split
    · exact .pure _
    · refine .bind (throwsOnly_changeDisk fun disk e h => ?_) fun _ => ?_
      · obtain ⟨q, rfl⟩ := createDirAll_error h
        exact noConflict_fileError q
      split
      · exact .throw (noConflict_fileError _)
      · exact throwsOnly_changeDisk fun disk e h => writeFile_error h ▸ noConflict_fileError path

theorem throwsOnly_restoreFiles (repo : LocalRepository) (files : List FileToRestore) :
    ThrowsOnly NoConflict (restoreFiles repo files) := by
  induction files with
  | nil => exact .pure _
  | cons file rest ih => exact .bind (throwsOnly_restoreFile _ _ _) fun _ => ih

theorem throwsOnly_removePaths (paths : List PathBuf) :
    ThrowsOnly NoConflict (removePaths paths) := by
  induction paths with
  | nil => exact .pure _
  | cons path rest ih =>
      refine .bind (.bind .get fun state => ?_) fun _ => ih
      split
      · exact .set _
      · exact .pure _

theorem throwsOnly_applyCleanup (repo : LocalRepository) (candidates : CleanupCandidates) :
    ThrowsOnly NoConflict (applyCleanup repo candidates) := by
  unfold applyCleanup
  split
  · exact .bind (throwsOnly_storeFiles _) fun _ => throwsOnly_removePaths _
  · exact throwsOnly_removePaths _

end Oxen
