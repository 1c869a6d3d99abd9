import Oxen.Lib.Keeps
import Oxen.Lib.Runs
import Oxen.Model.RemoteCheckout
import Oxen.Verification.Checkout.Clean
import Oxen.Verification.Checkout.FromOutcome
import Oxen.Verification.Checkout.TargetOutcome

/-! A version store stays content-addressed when a checkout stores only files with
the content that HEAD records for them. -/

namespace Oxen

open EStateM MerkleTreeNode

/-- Every stored version has content that hashes to its name. -/
def ContentAddressed (repo : LocalRepository) (versions : VersionStore) : Prop :=
  ∀ hash content, versions hash = some content → repo.xxh3 content = hash

/-- What is at the path may be stored under the hash: the version exists already, or
the path is a file with that content or nothing. -/
def Storable (repo : LocalRepository) (state : RepoState) (hash : MerkleHash) (path : PathBuf) :
    Prop :=
  state.versions hash = none → state.disk.lookup path ≠ none →
    ∃ content, state.disk.content path = some content ∧ repo.xxh3 content = hash

/-- A file that is not stored yet and has the recorded size and time has the
recorded content. -/
def Unspoiled (repo : LocalRepository) (state : RepoState) (path : PathBuf) (f : FileNode) : Prop :=
  state.versions f.hash = none →
    StatMatches repo state.disk path f.lastModified f.numBytes →
      ∃ content, state.disk.content path = some content ∧ repo.xxh3 content = f.hash

/-- Entries only go away on disk, and versions only come. -/
structure Shrinks (state state' : RepoState) : Prop where
  disk : ∀ path, state'.disk.lookup path = state.disk.lookup path ∨
    state'.disk.lookup path = none
  versions : ∀ hash, state'.versions hash = none → state.versions hash = none

theorem Shrinks.refl (state : RepoState) : Shrinks state state where
  disk _ := .inl rfl
  versions _ h := h

theorem Shrinks.trans {a b c : RepoState} (hab : Shrinks a b) (hbc : Shrinks b c) :
    Shrinks a c where
  disk path := by
    rcases hbc.disk path with h | h
    · rw [h]
      exact hab.disk path
    · exact .inr h
  versions hash h := hab.versions hash (hbc.versions hash h)

theorem WorkingTree.content_congr {disk disk' : WorkingTree} {path : PathBuf}
    (h : disk'.lookup path = disk.lookup path) : disk'.content path = disk.content path := by
  rw [content, content, h]

theorem VersionStore.store_eq_none {versions : VersionStore} {hash other : MerkleHash}
    {content : Content} (h : versions.store hash content other = none) : versions other = none := by
  cases ho : versions other with
  | none => rfl
  | some c =>
      have hext := versions.extends_store hash content other c ho
      rw [h] at hext
      cases hext

section

variable {repo : LocalRepository} {state state' : RepoState}

theorem Storable.mono {hash : MerkleHash} {path : PathBuf} (h : Storable repo state hash path)
    (hs : Shrinks state state') : Storable repo state' hash path := by
  intro hnone hlook
  rcases hs.disk path with hp | hp
  · rw [WorkingTree.content_congr hp]
    apply h (hs.versions hash hnone)
    rwa [hp] at hlook
  · exact absurd hp hlook

theorem Unspoiled.mono {path : PathBuf} {f : FileNode} (h : Unspoiled repo state path f)
    (hs : Shrinks state state') : Unspoiled repo state' path f := by
  intro hnone hstat
  rcases hstat with ⟨metadata, hm, hmatch⟩
  rcases hs.disk path with hp | hp
  · rw [WorkingTree.content_congr hp]
    apply h (hs.versions f.hash hnone)
    refine ⟨metadata, ?_, hmatch⟩
    rw [← hm, LocalRepository.metadata, LocalRepository.metadata, hp]
  · rw [metadata_none repo hp] at hm
    cases hm

theorem ContentAddressed.store {versions : VersionStore} (h : ContentAddressed repo versions)
    {hash : MerkleHash} {content : Content}
    (hc : versions hash = none → repo.xxh3 content = hash) :
    ContentAddressed repo (versions.store hash content) := by
  intro other found hfound
  rw [VersionStore.store] at hfound
  split at hfound
  · exact h other found hfound
  · rename_i hnone
    by_cases ho : other = hash
    · subst ho
      rw [Function.update_self] at hfound
      obtain rfl := Option.some.inj hfound
      apply hc
      simpa using hnone
    · rw [Function.update_of_ne ho] at hfound
      exact h other found hfound

/-! ## Storing -/

/-- What the action does keeps the store content-addressed, entries only go away on
disk, and versions only come. -/
def Shrinking (repo : LocalRepository) (action : RepoM Unit) (state : RepoState) : Prop :=
  ContentAddressed repo (after action state).versions ∧ Shrinks state (after action state)

/-- Two such actions in a row, the second from wherever the first one ends. -/
theorem Shrinking.bind {action : RepoM Unit} {next : Unit → RepoM Unit}
    (h : Shrinking repo action state)
    (hnext : ∀ state', ContentAddressed repo state'.versions → Shrinks state state' →
      Shrinking repo (next ()) state') : Shrinking repo (action >>= next) state := by
  rcases after_bind_cases action next state with ⟨a, -, hafter⟩ | ⟨-, hafter⟩
  · have hrest := hnext _ h.1 h.2
    rw [Shrinking, hafter]
    exact ⟨hrest.1, h.2.trans hrest.2⟩
  · rw [Shrinking, hafter]
    exact h

theorem Shrinking.pure (ha : ContentAddressed repo state.versions) :
    Shrinking repo (pure ()) state :=
  ⟨ha, .refl state⟩

variable (ha : ContentAddressed repo state.versions)
include ha

theorem shrinking_storeVersionFromPath {hash : MerkleHash} {path : PathBuf}
    (h : Storable repo state hash path) :
    Shrinking repo (storeVersionFromPath hash path) state := by
  have hshrinks : ∀ content,
      Shrinks state { state with versions := state.versions.store hash content } :=
    fun content => ⟨fun _ => .inl rfl, fun _ => VersionStore.store_eq_none⟩
  rw [Shrinking, storeVersionFromPath, after_get_bind]
  split
  · rename_i content mtime hl
    refine ⟨ha.store fun hnone => ?_, hshrinks content⟩
    rcases h hnone (by simp [hl]) with ⟨found, hfound, hhash⟩
    rw [WorkingTree.content, hl] at hfound
    obtain rfl := Option.some.inj hfound
    exact hhash
  · rename_i hl
    split
    · rename_i hnone
      rcases h (by simpa using hnone) (by simp [hl]) with ⟨found, hfound, -⟩
      rw [WorkingTree.content, hl] at hfound
      cases hfound
    · exact ⟨ha, .refl state⟩
  · exact ⟨ha, .refl state⟩

theorem shrinking_storeFiles {files : List (MerkleHash × PathBuf)}
    (h : ∀ file ∈ files, Storable repo state file.1 file.2) :
    Shrinking repo (storeFiles files) state := by
  induction files generalizing state with
  | nil => exact .pure ha
  | cons file rest ih =>
      apply (shrinking_storeVersionFromPath ha (h file (by simp))).bind
      intro state' ha' hs
      exact ih ha' fun entry hentry => (h entry (by simp [hentry])).mono hs

theorem shrinking_storeWorkingFiles {nodes : List (PathBuf × PartialNode)}
    (h : ∀ node ∈ nodes, Storable repo state node.2.hash node.1) :
    Shrinking repo (RemoteMode.storeWorkingFiles nodes) state := by
  induction nodes generalizing state with
  | nil => exact .pure ha
  | cons node rest ih =>
      have hrest : ∀ state', ContentAddressed repo state'.versions → Shrinks state state' →
          Shrinking repo (RemoteMode.storeWorkingFiles rest) state' :=
        fun state' ha' hs => ih ha' fun entry hentry => (h entry (by simp [hentry])).mono hs
      rw [RemoteMode.storeWorkingFiles, Shrinking, after_get_bind]
      split
      · exact (shrinking_storeVersionFromPath ha (h node (by simp))).bind hrest
      · exact hrest state ha (.refl state)

theorem shrinking_removeFile (path : PathBuf) :
    Shrinking repo (changeDisk (·.removeFile path)) state := by
  cases hr : state.disk.removeFile path with
  | error e =>
      have hrun : (changeDisk (·.removeFile path)).run state = .error e state := by
        simp [changeDisk, hr]
      rw [Shrinking, after_of_error hrun]
      exact ⟨ha, .refl state⟩
  | ok disk =>
      rw [Shrinking, after_of_ok (changeDisk_run_ok hr)]
      refine ⟨ha, ?_, fun _ h => h⟩
      intro other
      unfold WorkingTree.removeFile at hr
      split at hr
      · obtain rfl := Except.ok.inj hr
        rw [WorkingTree.lookup_erase]
        split
        · rename_i ho
          simp [ho]
        · split
          · exact .inr rfl
          · exact .inl rfl
      · cases hr

theorem shrinking_applyDirReplacement {replacement : DirReplacement}
    (h : ∀ hash, replacement.fromHash = some hash →
      Storable repo state hash replacement.fullPath) :
    Shrinking repo (applyDirReplacement repo replacement) state := by
  rw [applyDirReplacement, Shrinking, after_get_bind]
  split
  · split
    · cases hf : replacement.fromHash with
      | none => exact shrinking_removeFile ha _
      | some hash =>
          exact (shrinking_storeVersionFromPath ha (h hash hf)).bind
            fun state' ha' _ => shrinking_removeFile ha' _
    · exact shrinking_removeFile ha _
  · exact ⟨ha, .refl state⟩

theorem shrinking_applyDirReplacements {replacements : List DirReplacement}
    (h : ∀ r ∈ replacements, ∀ hash, r.fromHash = some hash →
      Storable repo state hash r.fullPath) :
    Shrinking repo (applyDirReplacements repo replacements) state := by
  induction replacements generalizing state with
  | nil => exact .pure ha
  | cons replacement rest ih =>
      apply (shrinking_applyDirReplacement ha (h replacement (by simp))).bind
      intro state' ha' hs
      exact ih ha' fun r hr hash hhash => (h r (by simp [hr]) hash hhash).mono hs

theorem shrinking_removePaths (paths : List PathBuf) :
    Shrinking repo (removePaths paths) state := by
  rcases removePaths_run paths state with ⟨state', hrun, hver, hlook, -⟩
  rw [Shrinking, after_of_ok hrun, hver]
  refine ⟨ha, fun other => ?_, fun hash h => hver ▸ h⟩
  rcases hlook other with h | h
  · exact .inl h
  · exact .inr h.2

omit ha in
theorem exists_content_of_hash {path : PathBuf} {hash : MerkleHash}
    (h : repo.getHashGivenMetadata state.disk path = .ok hash) :
    ∃ content, state.disk.content path = some content ∧ repo.xxh3 content = hash := by
  rw [LocalRepository.getHashGivenMetadata] at h
  split at h
  · rename_i content hc
    exact ⟨content, hc, Except.ok.inj h⟩
  · cases h

omit ha in
/-- A file that its check finds unmodified may be stored. -/
theorem storable_of_not_modified {path : PathBuf} {f : FileNode}
    (hu : Unspoiled repo state path f)
    (hm : repo.isModifiedFromNode state.disk path f = .ok false) :
    Storable repo state f.hash path := by
  intro hnone hlook
  have hmeta : ∃ metadata, repo.metadata state.disk path = some metadata := by
    rw [LocalRepository.metadata]
    split <;> simp_all
  rcases hmeta with ⟨metadata, hmeta⟩
  by_cases hstat : StatMatches repo state.disk path f.lastModified f.numBytes
  · exact hu hnone hstat
  · have hhash : ∃ hash, repo.getHashGivenMetadata state.disk path = .ok hash ∧ f.hash = hash := by
      cases hl : state.disk.lookup path with
      | none => exact absurd hl hlook
      | some entry =>
          have hnot : ¬ (metadata.len = f.numBytes ∧
              repo.withinTolerance metadata.mtime f.lastModified = true) :=
            fun h => hstat ⟨metadata, hmeta, h.2, h.1⟩
          have hclassify := classify_of_isModifiedFromNode hl hmeta hm
          cases hg : repo.getHashGivenMetadata state.disk path with
          | error e =>
              simp only [LocalRepository.classifyModifiedFromNode, hg, Except.map] at hclassify
              (repeat' split at hclassify) <;> simp_all
          | ok hash =>
              refine ⟨hash, rfl, ?_⟩
              simp only [LocalRepository.classifyModifiedFromNode, hg, Except.map] at hclassify
              (repeat' split at hclassify) <;> simp_all
    rcases hhash with ⟨hash, hg, rfl⟩
    exact exists_content_of_hash hg

omit ha in
/-- A file in the way of a directory that its check finds unmodified may be stored. -/
theorem storable_of_matchesFromNode {ctx : CheckoutContext} {path : PathBuf} {f : FileNode}
    (hrepo : ctx.repo = repo) (hdisk : ctx.disk = state.disk)
    (hu : Unspoiled repo state path f)
    (hm : matchesFromNode ctx path f.toPartialNode = .ok true) :
    Storable repo state f.hash path := by
  subst hrepo
  intro hnone hlook
  by_cases hstat : StatMatches ctx.repo state.disk path f.lastModified f.numBytes
  · exact hu hnone hstat
  · rw [matchesFromNode, hdisk] at hm
    split at hm
    · cases hm
    · rename_i metadata hmeta
      cases hmatch : ctx.repo.mtimeMatches metadata.mtime f.lastModified with
      | error e =>
          simp [LocalRepository.statMatches, FileNode.toPartialNode, hmatch, Except.map, bind,
            Except.bind] at hm
      | ok matched =>
          have hno : ¬ (ctx.repo.withinTolerance metadata.mtime f.lastModified = true ∧
              metadata.len = f.numBytes) := fun hm => hstat ⟨metadata, hmeta, hm⟩
          simp only [LocalRepository.statMatches, FileNode.toPartialNode, hmatch,
            mtimeMatches_ok hmatch, Except.map, bind, Except.bind] at hm
          split at hm
          · rename_i hboth
            rw [Bool.and_eq_true_iff] at hboth
            exact absurd ⟨hboth.1, of_decide_eq_true hboth.2⟩ hno
          · cases hg : ctx.repo.getHashGivenMetadata state.disk path with
            | error e => simp [hg] at hm
            | ok hash =>
                simp only [hg] at hm
                have hhash : hash = f.hash := of_decide_eq_true (Except.ok.inj hm)
                exact hhash ▸ exists_content_of_hash hg

end

/-! ## Checking out -/

/-- The hashes of the directories and virtual nodes below a commit. -/
def CommitTree.rootHashes {db : NodeStore} (t : CommitTree db) : List MerkleHash :=
  t.children.flatMap containerHashes

section Cleanup

variable {repo : LocalRepository} {state : RepoState} {db : NodeStore}
  (ha : ContentAddressed repo state.versions) (s : CommitTree db) {seen : List MerkleHash}
  (hu : ∀ x ∈ (s.tree.prune seen).files [], Unspoiled repo state x.1 x.2)

/-- What a walk of the pruned tree reaches lies in it at the walk's path. -/
theorem mem_subtrees_prune_of_reaches {pass : PathBuf → MerkleHash → Prop} {path : PathBuf}
    {node : MerkleTreeNode} (h : Reaches pass (s.tree.prune seen) path node) :
    (path, node) ∈ (s.tree.prune seen).subtrees [] := by
  induction h with
  | root => exact self_mem_subtrees [] _
  | rootDir _ ih => exact child_mem_subtrees ih (List.mem_singleton.mpr rfl)
  | @child path d vnodes vnode child _ _ hv _ hc ih =>
      have hchild := child_mem_subtrees ih hv
      rcases mem_subtrees_of_prune ih with ⟨⟨n, ds⟩, hfull, heq⟩
      obtain rfl : EMerkleTreeNode.directory d = n := by simpa using congrArg MerkleTreeNode.node heq
      rw [prune_mk] at heq
      split at heq
      · obtain rfl := (MerkleTreeNode.mk.inj heq).2
        rcases List.mem_map.mp hv with ⟨full, hmem, rfl⟩
        rcases s.eq_vnode_of_mem hfull hmem with ⟨m, cs, rfl⟩
        rcases hp : MerkleTreeNode.prune seen (.mk (.vnode m) cs) with ⟨k, es⟩
        have hk := node_prune seen (.mk (.vnode m) cs)
        rw [hp] at hk hchild hc
        obtain rfl : k = .vnode m := hk
        exact child_mem_subtrees hchild hc
      · obtain rfl := (MerkleTreeNode.mk.inj heq).2
        cases hv

/-- Only unmodified files are backed up, under the hash recorded for them. -/
theorem mem_filesToStore_visitFromFile {ctx : CleanupContext} {path : PathBuf} {f : FileNode}
    {event : CleanupCandidates} (h : visitFromFile ctx path f = .ok event)
    {entry : MerkleHash × PathBuf} (he : entry ∈ event.filesToStore) :
    entry = (f.hash, path) ∧ ctx.repo.isModifiedFromNode ctx.disk path f = .ok false := by
  cases hm : ctx.repo.isModifiedFromNode ctx.disk path f with
  | error e =>
      simp only [visitFromFile, hm, Except.map] at h
      (repeat' split at h) <;> first | (obtain rfl := Except.ok.inj h; simp at he) | cases h
  | ok modified =>
      simp only [visitFromFile, hm, Except.map] at h
      cases modified <;> (repeat' split at h) <;>
        (obtain rfl := Except.ok.inj h; simp_all)

include ha hu in
/-- A cleanup stores only what may be stored. -/
theorem shrinking_cleanupRemovedFiles (common : List MerkleHash) (seenPaths : List PathBuf)
    (onConflict : OnConflict) :
    Shrinking repo (cleanupRemovedFiles repo (s.tree.prune seen) common seenPaths onConflict)
      state := by
  have hrun := cleanupRemovedFiles_run repo (s.tree.prune seen) common seenPaths onConflict state
  cases hw : walkFromTree { repo, disk := state.disk, commonNodes := common, seenPaths, onConflict }
      (s.tree.prune seen) with
  | error e =>
      rw [hw] at hrun
      rw [Shrinking, after_of_error hrun]
      exact ⟨ha, .refl state⟩
  | ok candidates =>
      rw [hw] at hrun
      by_cases hc : candidates.cannotOverwriteEntries ≠ []
      · simp only [hc, ne_eq, not_false_eq_true, if_true] at hrun
        rw [Shrinking, after_of_error hrun]
        exact ⟨ha, .refl state⟩
      · simp only [hc, if_false] at hrun
        have hafter : after (cleanupRemovedFiles repo (s.tree.prune seen) common seenPaths
            onConflict) state = after (applyCleanup repo candidates) state := by
          rw [after, hrun, after]
        rw [Shrinking, hafter]
        have hstore : ∀ file ∈ candidates.filesToStore, Storable repo state file.1 file.2 := by
          intro file hfile
          rcases (mem_filesToStore_iff hw).mp hfile with ⟨path, f, cs, event, hr, hok, hmem⟩
          rcases mem_filesToStore_visitFromFile hok hmem with ⟨rfl, hm⟩
          have hf := mem_files_iff.mpr ⟨path, cs, mem_subtrees_prune_of_reaches s hr, rfl⟩
          exact storable_of_not_modified (hu _ hf) hm
        rw [applyCleanup]
        split
        · exact (shrinking_storeFiles ha hstore).bind
            fun state' ha' _ => shrinking_removePaths ha' _
        · exact shrinking_removePaths ha _

end Cleanup

/-- The files in the way of directories that a walk of the target replaces are stored
only when they may be. -/
theorem storable_of_walkTargetTree {repo : LocalRepository} {state : RepoState}
    {common : List MerkleHash} {partialNodes : KeyedMap.Map PathBuf PartialNode}
    (hnodes : ∀ path node, partialNodes.lookup path = some node →
      ∃ f : FileNode, node = f.toPartialNode ∧ Unspoiled repo state path f)
    {targetRoot : MerkleTreeNode} {results : CheckoutResult}
    (hw : walkTargetTree
      { repo, disk := state.disk, commonNodes := common, partialNodes, onConflict := .abort }
      targetRoot = .ok results) :
    ∀ r ∈ results.dirReplacements, ∀ hash, r.fromHash = some hash →
      Storable repo state hash r.fullPath := by
  intro r hr hash hhash
  rcases (mem_dirReplacements_iff hw).mp hr with ⟨path, d, vnodes, -, -, hverdict⟩
  rw [targetDirVerdict] at hverdict
  split at hverdict
  · split at hverdict
    · rw [hhash] at hverdict
      cases hverdict
    · rename_i node hnode
      rcases hnodes r.fullPath node hnode with ⟨f, rfl, hu⟩
      cases hm : matchesFromNode
          { repo, disk := state.disk, commonNodes := common, partialNodes, onConflict := .abort }
          r.fullPath f.toPartialNode with
      | error e =>
          rw [hm] at hverdict
          cases hverdict
      | ok unmodified =>
          rw [hm] at hverdict
          cases unmodified with
          | false => cases hverdict
          | true =>
              obtain rfl : f.hash = hash := by
                simpa [Except.map, hhash, FileNode.toPartialNode] using hverdict
              exact storable_of_matchesFromNode rfl rfl hu hm
  · cases hverdict

/-! ## Restoring -/

section Restore

variable {repo : LocalRepository} {state : RepoState}

/-- Versions stay, and a file that was not on disk before has the content of one of
the versions of the files to restore at its path. -/
structure WritesVersions (files : List FileToRestore) (state state' : RepoState) : Prop where
  versions : state'.versions = state.versions
  disk : ∀ path content mtime, state'.disk.lookup path = some (.file content mtime) →
    state.disk.lookup path = some (.file content mtime) ∨
      ∃ r ∈ files, r.path = path ∧ state.versions r.fileNode.hash = some content

theorem WritesVersions.refl (files : List FileToRestore) (state : RepoState) :
    WritesVersions files state state where
  versions := rfl
  disk _ _ _ h := .inl h

theorem WritesVersions.trans {files files' : List FileToRestore} {a b c : RepoState}
    (hab : WritesVersions files a b) (hbc : WritesVersions files' b c) :
    WritesVersions (files ++ files') a c where
  versions := hbc.versions.trans hab.versions
  disk path content mtime h := by
    rcases hbc.disk path content mtime h with hb | ⟨r, hr, hp, hv⟩
    · rcases hab.disk path content mtime hb with ha | ⟨r, hr, hp, hv⟩
      · exact .inl ha
      · exact .inr ⟨r, List.mem_append_left _ hr, hp, hv⟩
    · rw [hab.versions] at hv
      exact .inr ⟨r, List.mem_append_right _ hr, hp, hv⟩

theorem writesVersions_changeDisk {change : WorkingTree → Except OxenError WorkingTree}
    {files : List FileToRestore}
    (h : ∀ disk, change state.disk = .ok disk → ∀ path content mtime,
      disk.lookup path = some (.file content mtime) →
        state.disk.lookup path = some (.file content mtime) ∨
          ∃ r ∈ files, r.path = path ∧ state.versions r.fileNode.hash = some content) :
    WritesVersions files state (after (changeDisk change) state) := by
  cases hc : change state.disk with
  | error e =>
      have hrun : (changeDisk change).run state = .error e state := by simp [changeDisk, hc]
      rw [after_of_error hrun]
      exact .refl files state
  | ok disk =>
      rw [after_of_ok (changeDisk_run_ok hc)]
      exact ⟨rfl, h disk hc⟩

theorem writesVersions_restoreFile (fileNode : FileNode) (path : PathBuf) :
    WritesVersions [⟨fileNode, path⟩] state (after (restoreFile repo fileNode path) state) := by
  by_cases ht : fileNode.hasTime = true
  swap
  · rw [after_of_error (restoreFile_panics (Bool.eq_false_iff.mpr ht) repo path state)]
    exact .refl _ state
  by_cases hstat : StatMatches repo state.disk path fileNode.lastModified fileNode.numBytes
  · rw [after_of_ok (restoreFile_skip ht hstat)]
    exact .refl _ state
  · rw [after, restoreFile_write ht hstat, ← after]
    have hdirs : WritesVersions [] state (after (changeDisk (·.createDirAll [] path.dropLast)) state) :=
      writesVersions_changeDisk fun disk hd other content mtime hl =>
        .inl (WorkingTree.createDirAll_addsNoFile hd other content mtime hl)
    rcases after_bind_cases (changeDisk (·.createDirAll [] path.dropLast)) _ state with
      ⟨a, -, hafter⟩ | ⟨-, hafter⟩
    · rw [hafter]
      apply hdirs.trans
      cases hv : state.versions fileNode.hash with
      | none => exact .refl _ _
      | some content =>
          apply writesVersions_changeDisk
          intro disk hd other found mtime hl
          by_cases ho : other = path
          · right
            refine ⟨_, List.mem_singleton.mpr rfl, ho.symm, ?_⟩
            rw [hdirs.versions, hv]
            unfold WorkingTree.writeFile at hd
            split at hd
            · obtain rfl := Except.ok.inj hd
              rw [WorkingTree.lookup_put, if_pos ho] at hl
              cases hl
              rfl
            · cases hd
          · exact .inl (WorkingTree.writeFile_addsNoFile hd ho found mtime hl)
    · rw [hafter]
      refine ⟨hdirs.versions, fun other content mtime hl => ?_⟩
      rcases hdirs.disk other content mtime hl with hold | ⟨r, hr, -⟩
      · exact .inl hold
      · exact absurd hr List.not_mem_nil

theorem writesVersions_bind {files files' : List FileToRestore} {action : RepoM Unit}
    {next : Unit → RepoM Unit} (h : WritesVersions files state (after action state))
    (hnext : ∀ state', WritesVersions files' state' (after (next ()) state')) :
    WritesVersions (files ++ files') state (after (action >>= next) state) := by
  rcases after_bind_cases action next state with ⟨a, -, hafter⟩ | ⟨-, hafter⟩
  · rw [hafter]
    exact h.trans (hnext _)
  · rw [hafter]
    exact h.trans (.refl files' _)

theorem writesVersions_restoreFiles (files : List FileToRestore) :
    WritesVersions files state (after (restoreFiles repo files) state) := by
  induction files generalizing state with
  | nil => exact .refl [] state
  | cons file rest ih =>
      exact writesVersions_bind (writesVersions_restoreFile file.fileNode file.path) fun _ => ih

theorem writesVersions_restorePresentFiles (files : List FileToRestore) :
    WritesVersions files state (after (restorePresentFiles repo files) state) := by
  induction files generalizing state with
  | nil => exact .refl [] state
  | cons file rest ih =>
      rw [restorePresentFiles, after_get_bind]
      split
      · exact writesVersions_bind (writesVersions_restoreFile file.fileNode file.path)
          fun _ => ih
      · exact (WritesVersions.refl [file] state).trans ih

end Restore

end Oxen
