import Oxen.Verification.Checkout.Errors
import Oxen.Verification.Checkout.Reached
import Oxen.Verification.FastForward.Steps
import Oxen.Verification.FastForward.Walks

/-! What a fast-forward merge plans for a working tree with the files of the base
commit and any untracked files. -/

namespace Oxen

open MerkleTreeNode

variable {db : NodeStore}

namespace CommitTree

variable (t : CommitTree db)

theorem walkable (shared : List MerkleHash) : Walkable shared t.tree where
  commit path c cs hr := by
    obtain ⟨-, htree⟩ := t.eq_root_of_commit_mem hr.mem_subtrees
    obtain ⟨d, vnodes, hroot, -⟩ := t.exists_root
    exact ⟨d, vnodes, (MerkleTreeNode.mk.inj htree).2.trans hroot⟩
  vnode _ _ _ := Reaches.not_vnode

theorem walkable_prune {seen : List MerkleHash} (hid : t.id ∉ seen) :
    Walkable (t.tree.loaded seen []).sharedHashes (t.tree.prune seen) where
  commit _ _ _ hr := root_of_reaches_prune t hid hr
  vnode path v cs hr := by
    obtain ⟨⟨n, ds⟩, heq, hr⟩ := (fromReaches_prune_iff t hid).mp hr
    obtain rfl : EMerkleTreeNode.vnode v = n := by simpa using congrArg node heq
    exact Reaches.not_vnode hr

theorem vnodes_of_mem_prune {seen : List MerkleHash} {path : PathBuf} {d : DirNode}
    {vnodes : List MerkleTreeNode}
    (h : (path, MerkleTreeNode.mk (.directory d) vnodes) ∈ (t.tree.prune seen).subtrees []) :
    ∀ vnode ∈ vnodes, ∃ v cs, vnode = .mk (.vnode v) cs := by
  intro vnode hv
  obtain ⟨full, hfull, heq⟩ := mem_subtrees_of_prune h
  obtain ⟨n, ds⟩ := full
  obtain rfl : EMerkleTreeNode.directory d = n := by simpa using congrArg node heq
  rw [prune_mk] at heq
  split at heq
  · obtain ⟨-, rfl⟩ := MerkleTreeNode.mk.inj heq
    obtain ⟨u, hu, rfl⟩ := List.mem_map.mp hv
    obtain ⟨v, es, rfl⟩ := t.eq_vnode_of_mem hfull hu
    have hnode := node_prune seen (.mk (.vnode v) es)
    rcases hp : MerkleTreeNode.prune seen (.mk (.vnode v) es) with ⟨m, fs⟩
    rw [hp] at hnode
    obtain rfl : m = .vnode v := hnode
    exact ⟨v, fs, rfl⟩
  · rw [(MerkleTreeNode.mk.inj heq).2] at hv
    cases hv

end CommitTree

theorem MerkleTreeNode.files_prune_sublist (seen : List MerkleHash) (path : PathBuf)
    (t : MerkleTreeNode) : ((t.prune seen).files path).Sublist (t.files path) := by
  induction t generalizing path with
  | mk n cs ih =>
      rw [prune_mk]
      split
      · rename_i hn
        rw [files_mk hn.1, files_mk hn.1, List.flatMap_map]
        exact List.Sublist.flatMap_right cs fun c hc => ih c hc _
      · cases n with
        | file f =>
            rw [files_file]
            exact List.singleton_sublist.mpr
              (mem_files_iff.mpr ⟨path, cs, self_mem_subtrees path _, rfl⟩)
        | directory d => exact (@files_mk (.directory d) rfl path []) ▸ List.nil_sublist _
        | vnode v => exact (@files_mk (.vnode v) rfl path []) ▸ List.nil_sublist _
        | commit c => exact (@files_mk (.commit c) rfl path []) ▸ List.nil_sublist _

variable {repo : MergeRepository} {state : ClientState} {s t : CommitTree db}

/-- A regular file on disk that the commit does not have. -/
def Untracked (disk : WorkingTree) (s : CommitTree db) (path : PathBuf) (content : Content)
    (mtime : FileTime) : Prop :=
  disk.lookup path = some (.file content mtime) ∧ ∀ g, (path, g) ∉ s.tree.files []

/-- The files of the commit are on disk with their recorded contents, sizes and
modification times. -/
def HasFiles (state : RepoState) (s : CommitTree db) : Prop :=
  ∀ path f, (path, f) ∈ s.tree.files [] → ∃ content,
    state.disk.lookup path = some (.file content f.lastModified) ∧
      content.length = f.numBytes ∧ state.versions f.hash = some content

theorem HasFiles.statMatches {repo : LocalRepository} {state : RepoState} (h : HasFiles state s)
    {path : PathBuf} {f : FileNode} (hf : (path, f) ∈ s.tree.files []) :
    ∃ metadata, repo.metadata state.disk path = some metadata ∧
      repo.statMatches metadata f.lastModified f.numBytes = .ok true := by
  obtain ⟨content, hl, hlen, -⟩ := h path f hf
  refine ⟨_, metadata_file repo hl, ?_⟩
  rw [← hlen]
  exact statMatches_self repo { len := content.length, mtime := f.lastModified }

/-- A file of the merge commit at a path where the base commit has none. -/
def NewFile (s t : CommitTree db) (path : PathBuf) (f : FileNode) : Prop :=
  (path, f) ∈ t.tree.files [] ∧ ∀ g, (path, g) ∉ s.tree.files []

/-! ## Verdicts -/

theorem shouldRestoreFile_of_statMatches {disk : WorkingTree} {path : PathBuf} {f : FileNode}
    {metadata : Metadata} (ht : f.hasTime = true) (hm : repo.metadata disk path = some metadata)
    (hstat : repo.statMatches metadata f.lastModified f.numBytes = .ok true) :
    repo.shouldRestoreFile disk none f path = .ok true := by
  simp [MergeRepository.shouldRestoreFile, hm, ht, hstat, bind, Except.bind, pure, Except.pure]

/-- A local file that diverges is what makes a restore unwanted. -/
theorem file_of_shouldRestoreFile_false {disk : WorkingTree} {path : PathBuf} {f : FileNode}
    (h : repo.shouldRestoreFile disk none f path = .ok false) :
    ∃ content mtime, disk.lookup path = some (.file content mtime) := by
  cases hl : disk.lookup path with
  | none => simp [MergeRepository.shouldRestoreFile, metadata_none _ hl] at h
  | some entry =>
      cases entry with
      | file content mtime => exact ⟨content, mtime, rfl⟩
      | dir =>
          exfalso
          simp only [MergeRepository.shouldRestoreFile, metadata_dir _ hl, FileNode.computeTime_eq,
            MergeRepository.fileCombinedHash, getHash_dir hl, bind, Except.bind, pure,
            Except.pure] at h
          split at h
          · cases h
          · split at h
            · cases h
            · split at h <;> cases h

theorem noConflict_basicStr (message : String) : NoConflict (.basicStr message) :=
  fun _ => OxenError.noConfusion

theorem fileCombinedHash_error {disk : WorkingTree} {path : PathBuf} {e : OxenError}
    (h : repo.fileCombinedHash disk path = .error e) : NoConflict e := by
  unfold MergeRepository.fileCombinedHash LocalRepository.getHashGivenMetadata at h
  split at h
  · rename_i hhash
    split at hhash
    · cases hhash
    · exact Except.error.inj h ▸ Except.error.inj hhash ▸ noConflict_basicStr _
  · split at h
    · exact Except.error.inj h ▸ noConflict_basicStr _
    · cases h

theorem statMatches_error {metadata : Metadata} {mtime : FileTime} {len : Nat} {e : OxenError}
    (h : repo.statMatches metadata mtime len = .error e) : NoConflict e := by
  unfold LocalRepository.statMatches at h
  cases hmatch : repo.mtimeMatches metadata.mtime mtime with
  | ok matched => simp [hmatch, Except.map] at h
  | error e' =>
      rw [hmatch] at h
      rw [← Except.error.inj h, (mtimeMatches_error hmatch).1]
      exact noConflict_panicked

/-- The comparison with a file of the merge commit does not report conflicts by failing. -/
theorem shouldRestoreFile_error {disk : WorkingTree} {path : PathBuf} {f : FileNode} {e : OxenError}
    (h : repo.shouldRestoreFile disk none f path = .error e) : NoConflict e := by
  unfold MergeRepository.shouldRestoreFile at h
  cases hm : repo.metadata disk path with
  | none => simp [hm] at h
  | some metadata =>
      simp only [hm, FileNode.computeTime_eq, bind, Except.bind, pure, Except.pure] at h
      cases htime : f.hasTime with
      | false =>
          simp only [htime, Bool.false_eq_true, if_false] at h
          exact Except.error.inj h ▸ noConflict_panicked
      | true =>
          cases hstat : repo.statMatches metadata f.lastModified f.numBytes with
          | error e' =>
              simp only [htime, if_true, hstat] at h
              exact Except.error.inj h ▸ statMatches_error hstat
          | ok matched =>
              simp only [htime, if_true, hstat] at h
              cases hc : repo.fileCombinedHash disk path with
              | error e' =>
                  simp only [hc] at h
                  split at h
                  · cases h
                  · exact Except.error.inj h ▸ fileCombinedHash_error hc
              | ok hash =>
                  simp only [hc] at h
                  split at h <;> cases h

theorem mergeFileVerdict_none {disk : WorkingTree} {baseFiles : KeyedMap.Map PathBuf PartialNode}
    {path : PathBuf} {f : FileNode} (h : baseFiles.lookup path = none) :
    mergeFileVerdict repo disk baseFiles false path f =
      (repo.shouldRestoreFile disk none f path).map restoreVerdict := by
  simp [mergeFileVerdict, h]

theorem mergeFileVerdict_some {disk : WorkingTree} {baseFiles : KeyedMap.Map PathBuf PartialNode}
    {path : PathBuf} {f : FileNode} {node : PartialNode} {metadata : Metadata}
    (h : baseFiles.lookup path = some node) (hm : repo.metadata disk path = some metadata)
    (hstat : repo.statMatches metadata node.lastModified node.size = .ok true) :
    mergeFileVerdict repo disk baseFiles false path f =
      .ok (if f.hash = node.hash then .keep else .restore) := by
  by_cases hh : f.hash = node.hash
  · simp [mergeFileVerdict, h, hh]
  · simp [mergeFileVerdict, h, hh, MergeRepository.shouldRestorePartialNode, hm, hstat,
      Except.map, restoreVerdict, bind, Except.bind, pure, Except.pure]

/-! ## The plan -/

/-- The two walks of a merge between stored commits, with the loads carried out. -/
theorem planFastForward_eq {fuel : ℕ} (hfs : s.tree.size ≤ fuel) (hft : t.tree.size ≤ fuel)
    (disk : WorkingTree) (isResume : Bool) :
    planFastForward repo db fuel disk s.id t.id isResume =
      if loadPanics (some s) t then .error .panicked
      else
        match walkMergeCommit repo disk (partialNodes (some s) t) (commonNodes (some s) t) isResume
            t.tree with
        | .error e => .error e
        | .ok mergeTreeResults =>
            if mergeTreeResults.cannotOverwriteEntries ≠ [] then
              .error (.cannotOverwriteFiles mergeTreeResults.cannotOverwriteEntries)
            else
              match walkBaseDir repo disk (commonNodes (some s) t) mergeTreeResults.seenFiles
                  isResume (s.tree.prune t.tree.containerHashes) with
              | .error e => .error e
              | .ok baseTreeResults =>
                  if baseTreeResults.cannotOverwriteEntries ≠ [] then
                    .error (.cannotOverwriteFiles baseTreeResults.cannotOverwriteEntries)
                  else .ok (fastForwardSteps t.id mergeTreeResults baseTreeResults) := by
  simp only [planFastForward, load_target t hft, s.load_partialNodes _ hfs]
  rfl

/-- What a merge from `s` to `t` plans to write: it restores the files of `t` that `s`
does not have with the same content, and removes the files of `s` that `t` does not
have. -/
structure Planned (s t : CommitTree db) (restores : List FileToRestore)
    (removes : List PathBuf) : Prop where
  restored : ∀ r ∈ restores, (r.path, r.fileNode) ∈ t.tree.files []
  changed : ∀ r ∈ restores, ∀ g, (r.path, g) ∈ s.tree.files [] → g.hash ≠ r.fileNode.hash
  kept : ∀ path f, (path, f) ∈ t.tree.files [] → ⟨f, path⟩ ∉ restores →
    ∃ g, (path, g) ∈ s.tree.files [] ∧ g.hash = f.hash
  removed : ∀ path, path ∈ removes ↔
    (∃ g, (path, g) ∈ s.tree.files []) ∧ ∀ f, (path, f) ∉ t.tree.files []
  nodup : removes.Nodup

section Plan

variable (hs : UniquePaths [] s.tree) (ht : UniquePaths [] t.tree) (hplace : SharedInPlace s t)
  (hid : s.id ≠ t.id) (hfiles : HasFiles state.toRepoState s)

variable (repo) in
theorem mergeFileVerdict_new {disk : WorkingTree} {path : PathBuf} {f : FileNode}
    (h : NewFile s t path f) :
    mergeFileVerdict repo disk (partialNodes (some s) t) false path f =
      (repo.shouldRestoreFile disk none f path).map restoreVerdict := by
  refine mergeFileVerdict_none (Option.eq_none_iff_forall_ne_some.mpr fun node hn => ?_)
  obtain ⟨g, hg, -⟩ := file_of_partialNodes hn
  exact h.2 g hg

include hs ht hplace hid hfiles in
variable (repo) in
/-- A file that both commits have is restored exactly when its content changes. -/
theorem mergeFileVerdict_tracked {parent : PathBuf} {f g : FileNode} {cs : List MerkleTreeNode}
    (hr : FromReaches (commonNodes (some s) t) t.tree parent (.mk (.file f) cs))
    (hg : (parent ++ f.name, g) ∈ s.tree.files []) :
    mergeFileVerdict repo state.disk (partialNodes (some s) t) false (parent ++ f.name) f =
      .ok (if f.hash = g.hash then .keep else .restore) := by
  obtain rfl := t.children_file hr.mem_subtrees
  obtain ⟨q, cs, hq, hpath⟩ := mem_files_iff.mp hg
  obtain rfl := s.children_file hq
  rcases outside_or_common hplace hq with ho | ⟨r, u, hu, hc, hcommon, hf⟩
  · have hn := partialNodes_of_outside hs ho
    rw [← hpath] at hn
    obtain ⟨metadata, hm, hstat⟩ := hfiles.statMatches hg
    exact mergeFileVerdict_some hn hm hstat
  · -- a file below a common container is out of reach
    exfalso
    have hgt : (parent ++ f.name, g) ∈ t.tree.files [] :=
      mem_files_iff.mpr ⟨q, [], mem_subtrees_trans hu hf, hpath⟩
    obtain rfl := ht.file_eq (mem_files_iff.mpr ⟨parent, [], hr.mem_subtrees, rfl⟩) hgt
    obtain rfl := parent_eq hr.mem_subtrees hq hpath
    have hroot : t.id ∉ commonNodes (some s) t := fun hmem =>
      hid (CommitTree.mem_containerHashes_commit (mem_commonNodes hmem).1).symm
    exact (hr.occurs hroot).pass_of_mem ht hu hf hc hcommon

include hs hplace hid

/-- The walk of the merge commit gets to every file but those the base commit has too. -/
theorem merged_or_shared {path : PathBuf} {f : FileNode} (hf : (path, f) ∈ t.tree.files []) :
    (∃ parent cs, FromReaches (commonNodes (some s) t) t.tree parent (.mk (.file f) cs) ∧
      path = parent ++ f.name) ∨
    (path, f) ∈ s.tree.files [] ∧
      ¬ ∃ parent g cs, FromReaches t.tree.containerHashes s.tree parent (.mk (.file g) cs) ∧
        path = parent ++ g.name := by
  obtain ⟨q, cs, hq, rfl⟩ := mem_files_iff.mp hf
  obtain rfl := t.children_file hq
  rcases @reached_or_shared db s t (fun _ hash => hash ∉ commonNodes (some s) t)
    (fun _ _ h => not_not.mp h) hs hplace hid q f hq with hr | ⟨hsq, hnot⟩
  · exact .inl ⟨q, [], hr, rfl⟩
  · refine .inr ⟨mem_files_iff.mpr ⟨q, [], hsq, rfl⟩, ?_⟩
    rintro ⟨parent, g, cs, hr, hp⟩
    obtain rfl := hs.file_eq (mem_files_iff.mpr ⟨q, [], hsq, rfl⟩)
      (mem_files_iff.mpr ⟨parent, cs, hr.mem_subtrees, hp⟩)
    obtain rfl := parent_eq hsq hr.mem_subtrees hp
    obtain rfl := s.children_file hr.mem_subtrees
    exact hnot hr

theorem NewFile.reached {path : PathBuf} {f : FileNode} (h : NewFile s t path f) :
    ∃ parent cs, FromReaches (commonNodes (some s) t) t.tree parent (.mk (.file f) cs) ∧
      path = parent ++ f.name :=
  (merged_or_shared hs hplace hid h.1).resolve_right fun hf => h.2 f hf.1

include ht hfiles

/-- The first walk fails only on a new file whose local copy cannot be read. -/
theorem walkMergeCommit_isOk_iff :
    (∃ results, walkMergeCommit repo state.disk (partialNodes (some s) t) (commonNodes (some s) t)
      false t.tree = .ok results) ↔
      ∀ path f, NewFile s t path f →
        ∃ b, repo.shouldRestoreFile state.disk none f path = .ok b := by
  rw [walkMergeCommit, walkUnshared_isOk_iff (t.walkable _)]
  constructor
  · intro h path f hnew
    obtain ⟨parent, cs, hr, rfl⟩ := hnew.reached hs hplace hid
    obtain ⟨verdict, hok⟩ := h parent f cs hr
    rw [mergeFileVerdict_new repo hnew] at hok
    cases hb : repo.shouldRestoreFile state.disk none f (parent ++ f.name) with
    | error e => simp [hb, Except.map] at hok
    | ok b => exact ⟨b, rfl⟩
  · intro h parent f cs hr
    have hf : (parent ++ f.name, f) ∈ t.tree.files [] :=
      mem_files_iff.mpr ⟨parent, cs, hr.mem_subtrees, rfl⟩
    by_cases hnew : ∃ g, (parent ++ f.name, g) ∈ s.tree.files []
    · obtain ⟨g, hg⟩ := hnew
      exact ⟨_, mergeFileVerdict_tracked repo hs ht hplace hid hfiles hr hg⟩
    · have hnew' : NewFile s t (parent ++ f.name) f := ⟨hf, not_exists.mp hnew⟩
      obtain ⟨b, hb⟩ := h _ f hnew'
      exact ⟨restoreVerdict b, by rw [mergeFileVerdict_new repo hnew', hb]; rfl⟩

/-- The failure of the first walk is not a refusal. -/
theorem walkMergeCommit_error {e : OxenError}
    (hw : walkMergeCommit repo state.disk (partialNodes (some s) t) (commonNodes (some s) t)
      false t.tree = .error e) : NoConflict e := by
  obtain ⟨parent, f, cs, hr, he⟩ := exists_of_walkUnshared_error (t.walkable _) hw
  have hf : (parent ++ f.name, f) ∈ t.tree.files [] :=
    mem_files_iff.mpr ⟨parent, cs, hr.mem_subtrees, rfl⟩
  by_cases hnew : ∃ g, (parent ++ f.name, g) ∈ s.tree.files []
  · obtain ⟨g, hg⟩ := hnew
    have hok := mergeFileVerdict_tracked repo hs ht hplace hid hfiles hr hg
    exact absurd (he.symm.trans hok) (by simp)
  · rw [mergeFileVerdict_new repo ⟨hf, not_exists.mp hnew⟩] at he
    cases hb : repo.shouldRestoreFile state.disk none f (parent ++ f.name) with
    | ok b => simp [hb, Except.map] at he
    | error e' =>
        obtain rfl : e' = e := by simpa [hb, Except.map] using he
        exact shouldRestoreFile_error hb

theorem mem_mergeConflicts_of_clean {results : MergeResult}
    (hw : walkMergeCommit repo state.disk (partialNodes (some s) t) (commonNodes (some s) t)
      false t.tree = .ok results) {path : PathBuf} :
    path ∈ results.cannotOverwriteEntries ↔
      ∃ f, NewFile s t path f ∧ repo.shouldRestoreFile state.disk none f path = .ok false := by
  rw [mem_mergeConflicts_iff (t.walkable _) hw]
  constructor
  · rintro ⟨parent, f, cs, hr, rfl, hok⟩
    have hf : (parent ++ f.name, f) ∈ t.tree.files [] :=
      mem_files_iff.mpr ⟨parent, cs, hr.mem_subtrees, rfl⟩
    have hnew : NewFile s t (parent ++ f.name) f := by
      refine ⟨hf, fun g hg => ?_⟩
      have hok' := mergeFileVerdict_tracked repo hs ht hplace hid hfiles hr hg
      have heq := Except.ok.inj (hok.symm.trans hok')
      split at heq <;> cases heq
    refine ⟨f, hnew, ?_⟩
    rw [mergeFileVerdict_new repo hnew] at hok
    cases hb : repo.shouldRestoreFile state.disk none f (parent ++ f.name) with
    | error e => simp [hb, Except.map] at hok
    | ok b => cases b <;> simp_all [Except.map, restoreVerdict]
  · rintro ⟨f, hnew, hb⟩
    obtain ⟨parent, cs, hr, rfl⟩ := hnew.reached hs hplace hid
    refine ⟨parent, f, cs, hr, rfl, ?_⟩
    rw [mergeFileVerdict_new repo hnew, hb]
    rfl

omit ht hfiles in
/-- Of the files that the second walk reaches, the first has seen those that the merged commit
has. -/
theorem mem_seenFiles_iff_of_fromReaches {results : MergeResult}
    (hw : walkMergeCommit repo state.disk (partialNodes (some s) t) (commonNodes (some s) t)
      false t.tree = .ok results) {parent : PathBuf} {g : FileNode} {cs : List MerkleTreeNode}
    (hr : FromReaches t.tree.containerHashes s.tree parent (.mk (.file g) cs)) :
    parent ++ g.name ∈ results.seenFiles ↔ ∃ f, (parent ++ g.name, f) ∈ t.tree.files [] := by
  rw [mem_seenFiles_iff (t.walkable _) hw]
  constructor
  · rintro ⟨parent', f, cs', hr', hp⟩
    exact ⟨f, mem_files_iff.mpr ⟨parent', cs', hr'.mem_subtrees, hp⟩⟩
  · rintro ⟨f, hf⟩
    rcases merged_or_shared hs hplace hid hf with ⟨parent', cs', hr', hp⟩ | ⟨-, hnot⟩
    · exact ⟨parent', f, cs', hr', hp⟩
    · exact absurd ⟨parent, g, cs, hr, rfl⟩ hnot

omit hs ht hplace in
/-- The second walk finds every file as the base commit has it. -/
theorem baseFileVerdict_of_fromReaches (hload : ¬ loadPanics (some s) t = true)
    (seenFiles : List PathBuf) {parent : PathBuf} {g : FileNode} {cs : List MerkleTreeNode}
    (hr : FromReaches t.tree.containerHashes s.tree parent (.mk (.file g) cs)) :
    baseFileVerdict repo state.disk seenFiles false (parent ++ g.name) g =
      .ok (if parent ++ g.name ∈ seenFiles then .keep else .restore) := by
  have hg : (parent ++ g.name, g) ∈ s.tree.files [] :=
    mem_files_iff.mpr ⟨parent, cs, hr.mem_subtrees, rfl⟩
  obtain ⟨content, hl, -⟩ := hfiles _ g hg
  have hex : state.disk.pathExists (parent ++ g.name) = true := by
    simp [WorkingTree.pathExists, hl]
  obtain ⟨metadata, hm, hstat⟩ :=
    @HasFiles.statMatches db s repo.toLocalRepository state.toRepoState hfiles _ g hg
  have htime : g.hasTime = true := by
    by_contra htime
    exact hload ((@loadPanics_iff db (some s) t fun h => hid (Option.some.inj h)).mpr
      ⟨s, parent, g, cs, rfl, hr, Bool.eq_false_iff.mpr htime⟩)
  by_cases hin : parent ++ g.name ∈ seenFiles
  · simp [baseFileVerdict, hin]
  · simp [baseFileVerdict, hin, hex, Except.map, restoreVerdict,
      shouldRestoreFile_of_statMatches htime hm hstat]

/-- Once the first walk has found no conflict, the second finds none either, and
the two walks make a plan. -/
theorem planned_of_clean (hload : ¬ loadPanics (some s) t = true) {results : MergeResult}
    (hw : walkMergeCommit repo state.disk (partialNodes (some s) t) (commonNodes (some s) t)
      false t.tree = .ok results) (hc : results.cannotOverwriteEntries = []) :
    ∃ baseResults, walkBaseDir repo state.disk (commonNodes (some s) t) results.seenFiles false
        (s.tree.prune t.tree.containerHashes) = .ok baseResults ∧
      baseResults.cannotOverwriteEntries = [] ∧
      Planned s t results.entriesToRestore (baseResults.entriesToRestore.map (·.path)) := by
  have hseen := CommitTree.mem_containerHashes_commit.mt hid
  have hwalk := s.walkable_prune hseen
  have hverdict : ∀ {parent g cs},
      FromReaches t.tree.containerHashes s.tree parent (.mk (.file g) cs) →
      baseFileVerdict repo state.disk results.seenFiles false (parent ++ g.name) g =
        .ok (if parent ++ g.name ∈ results.seenFiles then .keep else .restore) := fun hr =>
    baseFileVerdict_of_fromReaches hid hfiles hload _ hr
  have hprune : ∀ {parent g},
      (∃ cs, FromReaches (commonNodes (some s) t) (s.tree.prune t.tree.containerHashes) parent
        (.mk (.file g) cs)) ↔
      ∃ cs, FromReaches t.tree.containerHashes s.tree parent (.mk (.file g) cs) :=
    fromReaches_file_prune_iff s hseen
  obtain ⟨baseResults, hbase⟩ := (@walkUnshared_isOk_iff _
      (baseFileVerdict repo state.disk results.seenFiles false) (.ok {}) _ hwalk).mpr
        fun parent g cs hr => by
    obtain ⟨cs', hr'⟩ := hprune.mp ⟨cs, hr⟩
    exact ⟨_, hverdict hr'⟩
  refine ⟨baseResults, hbase, ?_, ?_, ?_, ?_, ?_, ?_⟩
  · rw [List.eq_nil_iff_forall_not_mem]
    intro path hmem
    obtain ⟨parent, g, cs, hr, rfl, hok⟩ := (mem_mergeConflicts_iff hwalk hbase).mp hmem
    obtain ⟨cs', hr'⟩ := hprune.mp ⟨cs, hr⟩
    rw [hverdict hr'] at hok
    split at hok <;> cases hok
  · rintro ⟨f, path⟩ hmem
    obtain ⟨⟨parent, cs, hr, rfl⟩, -⟩ := (mem_entriesToRestore_iff (t.walkable _) hw).mp hmem
    exact mem_files_iff.mpr ⟨parent, cs, hr.mem_subtrees, rfl⟩
  · rintro ⟨f, path⟩ hmem g hg hh
    obtain ⟨⟨parent, cs, hr, rfl⟩, hok⟩ := (mem_entriesToRestore_iff (t.walkable _) hw).mp hmem
    have hkeep := mergeFileVerdict_tracked repo hs ht hplace hid hfiles hr hg
    rw [if_pos hh.symm] at hkeep
    exact absurd (hok.symm.trans hkeep) (by simp)
  · intro path f hf hnot
    rcases merged_or_shared hs hplace hid hf with hr | ⟨hshared, -⟩
    · rw [mem_entriesToRestore_iff (t.walkable _) hw] at hnot
      by_cases hnew : ∃ g, (path, g) ∈ s.tree.files []
      · obtain ⟨g, hg⟩ := hnew
        refine ⟨g, hg, ?_⟩
        by_contra hh
        obtain ⟨parent, cs, hreach, rfl⟩ := id hr
        have hok := mergeFileVerdict_tracked repo hs ht hplace hid hfiles hreach hg
        rw [if_neg (Ne.symm hh)] at hok
        exact hnot ⟨hr, hok⟩
      · exfalso
        have hnew' : NewFile s t path f := ⟨hf, not_exists.mp hnew⟩
        obtain ⟨b, hb⟩ :=
          (walkMergeCommit_isOk_iff hs ht hplace hid hfiles).mp ⟨results, hw⟩ path f hnew'
        cases b with
        | true => exact hnot ⟨hr, by rw [mergeFileVerdict_new repo hnew', hb]; rfl⟩
        | false =>
            have := (mem_mergeConflicts_of_clean hs ht hplace hid hfiles hw).mpr ⟨f, hnew', hb⟩
            simp [hc] at this
    · exact ⟨f, hshared, rfl⟩
  · intro path
    rw [List.mem_map]
    constructor
    · rintro ⟨⟨g, _⟩, hmem, rfl⟩
      obtain ⟨⟨parent, cs, hr, rfl⟩, hok⟩ := (mem_entriesToRestore_iff hwalk hbase).mp hmem
      obtain ⟨cs', hr'⟩ := hprune.mp ⟨cs, hr⟩
      rw [hverdict hr'] at hok
      split at hok
      · cases hok
      · rename_i hin
        rw [mem_seenFiles_iff_of_fromReaches hs hplace hid hw hr'] at hin
        exact ⟨⟨g, mem_files_iff.mpr ⟨parent, cs', hr'.mem_subtrees, rfl⟩⟩, not_exists.mp hin⟩
    · rintro ⟨⟨g, hg⟩, hnone⟩
      obtain ⟨q, cs, hq, rfl⟩ := mem_files_iff.mp hg
      obtain rfl := s.children_file hq
      rcases fromReaches_or_shared hplace hq with hr | hshared
      · refine ⟨⟨g, q ++ g.name⟩, (mem_entriesToRestore_iff hwalk hbase).mpr ⟨?_, ?_⟩, rfl⟩
        · obtain ⟨cs', hr'⟩ := hprune.mpr ⟨[], hr⟩
          exact ⟨q, cs', hr', rfl⟩
        · rw [hverdict hr, if_neg]
          rw [mem_seenFiles_iff_of_fromReaches hs hplace hid hw hr]
          exact not_exists.mpr hnone
      · exact absurd (mem_files_iff.mpr ⟨q, [], hshared, rfl⟩) (hnone g)
  · refine nodup_entriesToRestore hbase (fun event h => (Except.ok.inj h).symm) ?_ ?_
    · intro p d vnodes h
      exact s.vnodes_of_mem_prune h
    · exact hs.nodup_files.sublist ((files_prune_sublist _ _ _).map _)

end Plan

end Oxen
