import Oxen.Verification.Checkout.Effects
import Oxen.Verification.Checkout.FromOutcome
import Oxen.Verification.Checkout.TargetOutcome
import Oxen.Verification.Tree.FileMap

/-! A checkout between two stored commits, with the loads carried out. -/

namespace Oxen

open MerkleTreeNode

variable {db : NodeStore}

/-- The topmost containers of the from tree that the target tree has too. -/
def commonNodes (source : Option (CommitTree db)) (target : CommitTree db) : List MerkleHash :=
  (source.map fun s => (s.tree.loaded target.tree.containerHashes []).sharedHashes).getD []

/-- The files of the from tree outside the shared containers. -/
def partialNodes (source : Option (CommitTree db)) (target : CommitTree db) :
    KeyedMap.Map PathBuf PartialNode :=
  KeyedMap.insertAll ∅
    ((source.map fun s => (s.tree.loaded target.tree.containerHashes []).partialNodes).getD [])

/-- Loading the from tree meets a file whose time cannot be computed. -/
def loadPanics (source : Option (CommitTree db)) (target : CommitTree db) : Bool :=
  (source.map fun s => s.tree.loaded target.tree.containerHashes []).any (·.panicked)

/-- Between equal commits no file of the from tree is within reach. -/
theorem not_fromReaches_of_id_eq {s target : CommitTree db} (h : s.id = target.id)
    {path : PathBuf} {f : FileNode} {cs : List MerkleTreeNode} :
    ¬ FromReaches target.tree.containerHashes s.tree path (.mk (.file f) cs) := by
  have htree : s.tree = target.tree :=
    s.stored_tree.eq_of_hash target.stored_tree rfl rfl h
  intro hr
  cases hr with
  | child hp hd _ _ _ =>
      refine hd ((mem_containerHashes_iff []).mpr ⟨_, _, htree ▸ hp.mem_subtrees, rfl, rfl⟩)

theorem loadPanics_iff {source : Option (CommitTree db)} {target : CommitTree db}
    (hid : source.map (·.id) ≠ some target.id) :
    loadPanics source target = true ↔ ∃ s parent f cs, source = some s ∧
      FromReaches target.tree.containerHashes s.tree parent (.mk (.file f) cs) ∧
        f.hasTime = false := by
  cases source with
  | none => simp [loadPanics]
  | some s =>
      have hseen : s.id ∉ target.tree.containerHashes := fun h =>
        hid (congrArg some (CommitTree.mem_containerHashes_commit h))
      simp [loadPanics, loaded_panicked_iff s hseen]

def checkoutContext (repo : LocalRepository) (disk : WorkingTree)
    (source : Option (CommitTree db)) (target : CommitTree db) (onConflict : OnConflict) :
    CheckoutContext where
  repo := repo
  disk := disk
  commonNodes := commonNodes source target
  partialNodes := partialNodes source target
  onConflict := onConflict

/-- The mutations of a checkout, in the order they are carried out. -/
def applyCheckout (repo : LocalRepository) (source : Option (CommitTree db))
    (target : CommitTree db) (onConflict : OnConflict) (results : CheckoutResult) :
    RepoM Unit := do
  applyDirReplacements repo results.dirReplacements
  if let some s := source then
    cleanupRemovedFiles repo (s.tree.prune target.tree.containerHashes)
      (commonNodes source target) results.seenPaths onConflict
  restoreFiles repo results.filesToRestore

theorem load_target (target : CommitTree db) {fuel : ℕ} (hf : target.tree.size ≤ fuel) :
    rootWithChildrenAndNodeHashes db [] fuel target.id =
      some { tree := target.tree, uniqueHashes := target.tree.containerHashes } := by
  rw [target.load_nodeHashes [] hf]
  simp [loaded, target.stored_tree.prune_nil]

section

variable (repo : LocalRepository) {source : Option (CommitTree db)} {target : CommitTree db}
  {fuel : ℕ} (onConflict : OnConflict) (state : RepoState)

theorem setWorkingRepoToCommit_same (hf : target.tree.size ≤ fuel)
    (h : source.map (·.id) = some target.id) :
    (setWorkingRepoToCommit repo db fuel target.id (source.map (·.id)) onConflict).run state =
      .ok () state := by
  simp [setWorkingRepoToCommit, load_target target hf, h]

/-- A checkout is a load, a walk of the target tree, a check for conflicts and the
mutations. -/
theorem setWorkingRepoToCommit_run (hf : target.tree.size ≤ fuel)
    (hs : ∀ s, source = some s → s.tree.size ≤ fuel)
    (h : source.map (·.id) ≠ some target.id) :
    (setWorkingRepoToCommit repo db fuel target.id (source.map (·.id)) onConflict).run state =
      if loadPanics source target then .error .panicked state
      else
        match walkTargetTree (checkoutContext repo state.disk source target onConflict)
            target.tree with
        | .error e => .error e state
        | .ok results =>
            if results.cannotOverwriteEntries ≠ [] then
              .error (.cannotOverwriteFiles results.cannotOverwriteEntries) state
            else (applyCheckout repo source target onConflict results).run state := by
  have hload : (source.map (·.id)).bind
      (rootWithChildrenAndPartialNodes db target.tree.containerHashes fuel) =
        source.map fun s => s.tree.loaded target.tree.containerHashes [] := by
    cases source with
    | none => rfl
    | some s => exact s.load_partialNodes _ (hs s rfl)
  have hcommon : ((source.map fun s => s.tree.loaded target.tree.containerHashes []).map
      (·.sharedHashes)).getD [] = commonNodes source target := by
    cases source <;> rfl
  have hpartial : KeyedMap.insertAll ∅
      (((source.map fun s => s.tree.loaded target.tree.containerHashes []).map
        (·.partialNodes)).getD []) = partialNodes source target := by
    cases source <;> rfl
  simp only [setWorkingRepoToCommit, load_target target hf, h, if_false, hload, hcommon, hpartial]
  rw [show ((source.map fun s => s.tree.loaded target.tree.containerHashes []).any (·.panicked)) =
    loadPanics source target from rfl]
  cases loadPanics source target with
  | true => rfl
  | false =>
      simp only [Bool.false_eq_true, if_false, EStateM.run_bind, EStateM.run_get]
      rw [show (⟨repo, state.disk, commonNodes source target, partialNodes source target,
        onConflict⟩ : CheckoutContext) =
          checkoutContext repo state.disk source target onConflict from rfl]
      cases walkTargetTree (checkoutContext repo state.disk source target onConflict) target.tree with
      | error e => rfl
      | ok results =>
          by_cases hc : results.cannotOverwriteEntries ≠ []
          · simp [hc]
          · simp only [hc, if_false]
            cases source with
            | none => rfl
            | some s => rfl

end

/-! ## What the target walk leads to -/

section

variable (disk : WorkingTree) (source : Option (CommitTree db)) (target : CommitTree db)

/-- The nodes of the target that a checkout compares with the disk. -/
def Compared (path : PathBuf) (node : MerkleTreeNode) : Prop :=
  TargetReaches disk (commonNodes source target) target.tree path node

/-- The path is a file on disk and a directory of the target. -/
def BlocksDir (path : PathBuf) : Prop :=
  (∃ parent d vnodes, Compared disk source target parent (.mk (.directory d) vnodes) ∧
    path = parent ++ d.name) ∧
  ∃ content mtime, disk.lookup path = some (.file content mtime)

/-- A file of the from tree that the target does not have at its path. -/
def Leftover (s : CommitTree db) (path : PathBuf) (f : FileNode) : Prop :=
  (∃ parent cs, FromReaches target.tree.containerHashes s.tree parent (.mk (.file f) cs) ∧
    path = parent ++ f.name) ∧
  ¬ ∃ parent g cs, Compared disk source target parent (.mk (.file g) cs) ∧
    path = parent ++ g.name

end

section Walked

variable {repo : LocalRepository} {onConflict : OnConflict} {state : RepoState}
  {source : Option (CommitTree db)} {target : CommitTree db} {results : CheckoutResult}
  (hw : walkTargetTree (checkoutContext repo state.disk source target onConflict) target.tree =
    .ok results)
  (hc : results.cannotOverwriteEntries = [])

include hw hc

theorem mem_seenPaths_iff_compared {path : PathBuf} :
    path ∈ results.seenPaths ↔
      ∃ parent f cs, Compared state.disk source target parent (.mk (.file f) cs) ∧
        path = parent ++ f.name := by
  rw [mem_seenPaths_iff hw]
  constructor
  · rintro ⟨parent, f, cs, hv, hp, -⟩
    exact ⟨parent, f, cs, TargetVisits.reaches hv, hp⟩
  · rintro ⟨parent, f, cs, hr, rfl⟩
    have hv := visits_of_reaches hw hc hr
    exact ⟨parent, f, cs, hv, rfl, fileVerdict_of_walk hw hv⟩

theorem mem_replaced_iff_blocksDir {path : PathBuf} :
    path ∈ results.dirReplacements.map (·.fullPath) ↔
      BlocksDir state.disk source target path := by
  rw [List.mem_map]
  constructor
  · rintro ⟨replacement, hmem, rfl⟩
    obtain ⟨parent, d, vnodes, hv, hp, hverdict⟩ := (mem_dirReplacements_iff hw).mp hmem
    refine ⟨⟨parent, d, vnodes, TargetVisits.reaches hv, hp⟩, ?_⟩
    by_contra hnot
    rw [targetDirVerdict_not_file fun content mtime hl => hnot ⟨content, mtime, hl⟩] at hverdict
    cases hverdict
  · rintro ⟨⟨parent, d, vnodes, hr, rfl⟩, content, mtime, hl⟩
    have hv := visits_of_reaches hw hc hr
    rcases targetDirVerdict_file (show (checkoutContext repo state.disk source target
        onConflict).disk.lookup (parent ++ d.name) = _ from hl) with
      ⟨hu, -⟩ | ⟨-, -, -, hverdict⟩ | ⟨-, -, fromHash, hverdict⟩
    · obtain ⟨verdict, hverdict⟩ := dirVerdict_of_walk hw hv
      obtain ⟨e, he⟩ := targetDirVerdict_error_iff.mpr hu
      exact absurd (he.symm.trans hverdict) (by simp)
    · have := (mem_cannotOverwriteEntries_iff hw).mpr
        (.inr ⟨parent, d, vnodes, hv, rfl, hverdict⟩)
      simp [hc] at this
    · exact ⟨⟨parent ++ d.name, fromHash⟩,
        (mem_dirReplacements_iff hw).mpr ⟨parent, d, vnodes, hv, rfl, hverdict⟩, rfl⟩

/-- After the target walk succeeds, the files in the way of directories go. -/
theorem applyDirReplacements_of_walk :
    ∃ state', (applyDirReplacements repo results.dirReplacements).run state = .ok () state' ∧
      (∀ path, (BlocksDir state.disk source target path ∧ state'.disk.lookup path = none) ∨
        (¬ BlocksDir state.disk source target path ∧
          state'.disk.lookup path = state.disk.lookup path)) ∧
      state.versions.Extends state'.versions := by
  have hfile : ∀ r ∈ results.dirReplacements, state.disk.lookup r.fullPath ≠ some .dir := by
    intro r hr
    obtain ⟨-, content, mtime, hl⟩ :=
      (mem_replaced_iff_blocksDir hw hc).mp (List.mem_map_of_mem hr)
    simp [hl]
  obtain ⟨state', hrun, hlook, hver⟩ := applyDirReplacements_run repo hfile
  refine ⟨state', hrun, fun path => ?_, hver⟩
  rw [← mem_replaced_iff_blocksDir hw hc, hlook]
  by_cases hp : path ∈ results.dirReplacements.map (·.fullPath)
  · exact .inl ⟨hp, if_pos hp⟩
  · exact .inr ⟨hp, if_neg hp⟩

end Walked

namespace Example

/-- One commit has the files `a` and `d`, the other a directory `d` in their place. -/
def fileRoot : List MerkleTreeNode :=
  [dir [] 0xa0 [file "a" [1] 1, file "d" [2] 2]]

def dirRoot : List MerkleTreeNode :=
  [dir [] 0xb0 [dir ["d"] 0xb2 [file "x" [3] 3]]]

def nodes : NodeStore :=
  .ofTrees [.mk (.commit { hash := 0xca }) fileRoot, .mk (.commit { hash := 0xcb }) dirRoot]

def fileCommit : CommitTree nodes where
  commit := { hash := 0xca }
  children := fileRoot
  stored := by decide
  shape := by decide

def dirCommit : CommitTree nodes where
  commit := { hash := 0xcb }
  children := dirRoot
  stored := by decide
  shape := by decide

end Example

end Oxen
