import Oxen.Model.Server
import Oxen.Verification.Commit.Provenance
import Oxen.Verification.Merge.Comparison

/-! The changes that a merge stages. A file that base has in a directory of the
ancestor is taken for modified without a comparison. -/

namespace Oxen

open MerkleTreeNode

/-! ## One path -/

section

variable {ctx : MergeContext} {path : PathBuf} {f m l : FileNode} {status : StagedEntryStatus}

theorem mem_entries_entryAt {status' : StagedEntryStatus} :
    (path, f, status) ∈ (entryAt path m status').entries ↔ f = m ∧ status = status' := by
  simp [entryAt]

theorem not_mem_entries_conflictAt {b : FileNode} :
    (path, f, status) ∉ (conflictAt path l b m).entries :=
  List.not_mem_nil

/-- A file of the merge tree that is reported as modified. -/
def ReportedModified (ctx : MergeContext) (path : PathBuf) (m : FileNode) : Prop :=
  match ctx.baseEntries.lookup path with
  | some b => ∃ l, ctx.lcaEntries.lookup path = some l ∧ b.combinedHash = l.combinedHash ∧
      b.combinedHash ≠ m.combinedHash
  | none => ctx.getBaseFile path ≠ none

/-- A file of the merge tree that is reported as added. -/
def ReportedAdded (ctx : MergeContext) (path : PathBuf) : Prop :=
  ctx.baseEntries.lookup path = none ∧ ctx.getBaseFile path = none ∧
    ctx.lcaEntries.lookup path = none

theorem mem_entries_considerMergeEntry :
    (path, f, status) ∈ (considerMergeEntry ctx path m).entries ↔
      f = m ∧ (status = .modified ∧ ReportedModified ctx path m ∨
        status = .added ∧ ReportedAdded ctx path) := by
  unfold considerMergeEntry ReportedModified ReportedAdded
  cases hb : ctx.baseEntries.lookup path with
  | some b =>
      cases hl : ctx.lcaEntries.lookup path with
      | some l =>
          dsimp only
          split_ifs with hmodified hconflict
          · have hdiffer : ¬ l.combinedHash = m.combinedHash := by
              rw [← hmodified.1]
              exact hmodified.2
            simp [mem_entries_entryAt, hmodified.1, hdiffer]
          · simp [not_mem_entries_conflictAt, hconflict]
          · have hno : ¬ (b.combinedHash = l.combinedHash ∧ b.combinedHash ≠ m.combinedHash) :=
              hmodified
            simp [hno]
      | none =>
          dsimp only
          split_ifs
          · simp [not_mem_entries_conflictAt]
          · simp
  | none =>
      cases hg : ctx.getBaseFile path with
      | some g => simp [mem_entries_entryAt]
      | none =>
          cases hl : ctx.lcaEntries.lookup path with
          | some l =>
              dsimp only
              split_ifs
              · simp [not_mem_entries_conflictAt]
              · simp
          | none => simp [mem_entries_entryAt]

theorem mem_entries_considerLcaEntry (h : (path, f, status) ∈ (considerLcaEntry ctx path l).entries) :
    status = .removed := by
  unfold considerLcaEntry at h
  split at h
  · cases h
  · split at h
    · cases h
    · split at h
      · exact (mem_entries_entryAt.mp h).2
      · cases h

/-- The entries that the analysis reports, other than removed files. -/
theorem mem_entries_pathAnalysis (hstatus : status ≠ .removed) :
    (path, f, status) ∈ (pathAnalysis ctx path).entries ↔
      ctx.mergeTreeEntries.lookup path = some f ∧ (status = .modified ∧ ReportedModified ctx path f ∨
        status = .added ∧ ReportedAdded ctx path) := by
  unfold pathAnalysis
  cases hm : ctx.mergeTreeEntries.lookup path with
  | some m =>
      simp only [mem_entries_considerMergeEntry, Option.some.injEq]
      constructor
      · rintro ⟨rfl, h⟩
        exact ⟨rfl, h⟩
      · rintro ⟨rfl, h⟩
        exact ⟨rfl, h⟩
  | none =>
      refine iff_of_false (fun h => ?_) (by simp)
      cases hl : ctx.lcaEntries.lookup path with
      | some l =>
          rw [hl] at h
          exact hstatus (mem_entries_considerLcaEntry h)
      | none =>
          rw [hl] at h
          cases h

end

/-! ## Whole trees -/

/-- Whether a container with one of the hashes has a file at the path. -/
def CommitTree.LiesIn {db : NodeStore} (t : CommitTree db) (hashes : List MerkleHash)
    (path : PathBuf) : Prop :=
  ∃ r u f, (r, u) ∈ t.tree.subtrees [] ∧ u.node.hasChildren = true ∧ u.hash ∈ hashes ∧
    (path, f) ∈ u.files r

section Trees

variable {db : NodeStore} (host : Host) (dirHashes : MerkleHash → DirHashes)
  (L : Option (CommitTree db)) (B M : CommitTree db)

/-- The containers of the base tree, down to those that the ancestor has too. -/
def baseFrontier : List MerkleHash :=
  (B.tree.prune (lcaHashes L)).containerHashes

/-- A file of the merge branch that is not compared with what base has: it lies in no
container of the frontier, and base has no file at its path, or only one in a container
of the ancestor. -/
def Uncompared (path : PathBuf) (f : FileNode) : Prop :=
  M.fileMap.lookup path = some f ∧ ¬ M.LiesIn (baseFrontier L B) path ∧
    ∀ g, B.fileMap.lookup path = some g → B.LiesIn (lcaHashes L) path

/-- The base branch has another file there. -/
def ReplacesFile (path : PathBuf) (f : FileNode) : Prop :=
  ∃ g, B.fileMap.lookup path = some g ∧ f.combinedHash ≠ g.combinedHash

/-- Modified files differ from base's files, and added files are new to base. -/
structure RealChanges (analysis : MergeConflictAnalysis) : Prop where
  modified : ∀ path f, (path, f, .modified) ∈ analysis.entries → ReplacesFile B path f
  added : ∀ path f, (path, f, .added) ∈ analysis.entries → B.fileMap.lookup path = none

def FindsRealChanges (fuel : ℕ) : Prop :=
  ∃ analysis, findMergeConflicts host db dirHashes fuel (mergeCommits L B M) = some analysis ∧
    RealChanges B analysis

/-- Where base's index finds a file that is not compared, base has another one. -/
def UncomparedDiffer : Prop :=
  ∀ path f, Uncompared L B M path f →
    CommitMerkleTree.getFileByPath host db (dirHashes B.id) path ≠ none → ReplacesFile B path f

variable {L B M} {path : PathBuf} {f : FileNode}

theorem mem_mergeHidden_iff {hash : MerkleHash} :
    hash ∈ mergeHidden L B M ↔ hash ∈ baseFrontier L B := by
  have hbase : ∀ {h}, h ∈ baseHashes L B → h ∈ baseFrontier L B := fun h => List.mem_of_mem_filter h
  simp only [mergeHidden, MergeTrees.sharedHashes, List.mem_append]
  constructor
  · rintro (h | h | h)
    · exact hbase h
    · exact List.mem_of_mem_filter h
    · exact hbase (of_decide_eq_true (List.mem_filter.mp h).2)
  · intro h
    by_cases hseen : hash ∈ lcaHashes L
    · exact .inr (.inl (List.mem_filter.mpr ⟨h, decide_eq_true hseen⟩))
    · exact .inl (List.mem_filter.mpr ⟨h, decide_eq_true hseen⟩)

variable (hL : ∀ l, L = some l → UniquePaths [] l.tree) (hB : UniquePaths [] B.tree)
  (hM : UniquePaths [] M.tree) (hLB : ∀ l, L = some l → SharedInPlace l B)
  (hBM : SharedInPlace B M)

theorem open_merge_iff (hM : UniquePaths [] M.tree) :
    (M.openFiles (mergeHidden L B M)).lookup path = some f ↔
      M.fileMap.lookup path = some f ∧ ¬ M.LiesIn (baseFrontier L B) path := by
  constructor
  · intro hopen
    refine ⟨M.lookup_fileMap_of_lookup_openFiles hM hopen, ?_⟩
    rintro ⟨r, u, g, hu, hc, hh, hg⟩
    exact M.not_hidden_of_open hM (M.mem_open_of_lookup hopen) hu hc hg (mem_mergeHidden_iff.mpr hh)
  · rintro ⟨hf, hout⟩
    cases hopen : (M.openFiles (mergeHidden L B M)).lookup path with
    | some g =>
        rw [M.lookup_fileMap_of_lookup_openFiles hM hopen] at hf
        exact hf
    | none =>
        rcases M.hidden_of_not_open hM hf hopen with ⟨r, u, hu, hc, hh, hfile⟩
        exact absurd ⟨r, u, f, hu, hc, mem_mergeHidden_iff.mp hh, hfile⟩ hout

include hB hM hBM

/-- The analysis sees an uncompared file on the merge branch and none on base. -/
theorem uncompared_iff :
    Uncompared L B M path f ↔ (M.openFiles (mergeHidden L B M)).lookup path = some f ∧
      (B.openFiles (baseHidden L B M)).lookup path = none := by
  rw [Uncompared, open_merge_iff hM, and_assoc]
  refine and_congr_right fun hf => and_congr_right fun hout => ?_
  constructor
  · intro h
    cases hopen : (B.openFiles (baseHidden L B M)).lookup path with
    | none => rfl
    | some g =>
        rcases h g (B.lookup_fileMap_of_lookup_openFiles hB hopen) with ⟨r, u, g', hu, hc, hh, hg⟩
        exact absurd (List.mem_append_left _ hh)
          (B.not_hidden_of_open hB (B.mem_open_of_lookup hopen) hu hc hg)
  · intro hopen g hg
    rcases B.hidden_of_not_open hB hg hopen with ⟨r, u, hu, hc, hh, hfile⟩
    rcases cases_of_baseHidden hh with hlca | ⟨hm, hh⟩
    · exact ⟨r, u, g, hu, hc, hlca, hfile⟩
    · -- the merge branch has the container at the same place
      have hum := hBM.symm.mem_subtrees hu hc hm
      exact absurd ⟨r, u, g, hum, hc, mem_mergeHidden_iff.mp hh, hfile⟩ hout

omit hB hM hBM

/-- What the analysis compares. -/
def viewsContext (host : Host) (dirHashes : MerkleHash → DirHashes) (L : Option (CommitTree db))
    (B M : CommitTree db) : MergeContext where
  lcaEntries := lcaFiles L
  baseEntries := B.openFiles (baseHidden L B M)
  mergeTreeEntries := M.openFiles (mergeHidden L B M)
  getBaseFile := CommitMerkleTree.getFileByPath host db (dirHashes B.id)
  getMergeFile := CommitMerkleTree.getFileByPath host db (dirHashes M.id)

theorem findMergeConflicts_eq (L : Option (CommitTree db)) (B M : CommitTree db) {fuel : ℕ}
    (hfL : ∀ l, L = some l → l.tree.size ≤ fuel) (hfB : B.tree.size ≤ fuel)
    (hfM : M.tree.size ≤ fuel) :
    findMergeConflicts host db dirHashes fuel (mergeCommits L B M) =
      some (analyzeMerge (viewsContext host dirHashes L B M)) := by
  rw [findMergeConflicts, loadMergeTrees_eq L B M hfL hfB hfM, Option.map_some, mergeContext_eq]
  rfl

theorem mem_entries_iff {status : StagedEntryStatus} (hstatus : status ≠ .removed) :
    (path, f, status) ∈ (analyzeMerge (viewsContext host dirHashes L B M)).entries ↔
      (M.openFiles (mergeHidden L B M)).lookup path = some f ∧
        (status = .modified ∧ ReportedModified (viewsContext host dirHashes L B M) path f ∨
          status = .added ∧ ReportedAdded (viewsContext host dirHashes L B M) path) := by
  rw [mem_entries_analyzeMerge, mem_entries_pathAnalysis hstatus]
  rfl

include hL hB hM hLB hBM

/-- A file that base has and that no one hides is one of the ancestor. -/
theorem lca_of_hidden_base {g : FileNode}
    (hf : (M.openFiles (mergeHidden L B M)).lookup path = some f)
    (hg : B.fileMap.lookup path = some g)
    (hopen : (B.openFiles (baseHidden L B M)).lookup path = none) :
    (lcaFiles L).lookup path = some g := by
  rcases lca_or_merge_of_hidden_base hL hB hM hLB hBM hg hopen with hlca | ⟨-, hhidden⟩
  · exact hlca
  · rw [hf] at hhidden
    cases hhidden

/-- The analysis finds real changes exactly when the files that it does not compare
differ. -/
theorem realChanges_iff_differ :
    RealChanges B (analyzeMerge (viewsContext host dirHashes L B M)) ↔
      UncomparedDiffer host dirHashes L B M := by
  constructor
  · intro h path f hf hindex
    rcases (uncompared_iff hB hM hBM).mp hf with ⟨hmerge, hbase⟩
    apply h.modified
    rw [mem_entries_iff host dirHashes (by decide)]
    refine ⟨hmerge, .inl ⟨rfl, ?_⟩⟩
    have hbase' : (viewsContext host dirHashes L B M).baseEntries.lookup path = none := hbase
    rw [ReportedModified, hbase']
    exact hindex
  · intro h
    constructor
    · intro path f hf
      rw [mem_entries_iff host dirHashes (by decide)] at hf
      rcases hf with ⟨hmerge, ⟨-, hmodified⟩ | ⟨hstatus, -⟩⟩
      · unfold ReportedModified at hmodified
        cases hbase : (B.openFiles (baseHidden L B M)).lookup path with
        | some b =>
            rw [show (viewsContext host dirHashes L B M).baseEntries.lookup path = some b from hbase]
              at hmodified
            rcases hmodified with ⟨-, -, -, hdiffer⟩
            exact ⟨b, B.lookup_fileMap_of_lookup_openFiles hB hbase, hdiffer.symm⟩
        | none =>
            rw [show (viewsContext host dirHashes L B M).baseEntries.lookup path = none from hbase]
              at hmodified
            exact h path f ((uncompared_iff hB hM hBM).mpr ⟨hmerge, hbase⟩) hmodified
      · cases hstatus
    · intro path f hf
      rw [mem_entries_iff host dirHashes (by decide)] at hf
      rcases hf with ⟨hmerge, ⟨hstatus, -⟩ | ⟨-, hbase, -, hlca⟩⟩
      · cases hstatus
      · cases hg : B.fileMap.lookup path with
        | none => rfl
        | some g =>
            have hsome := lca_of_hidden_base hL hB hM hLB hBM hmerge hg hbase
            rw [show (lcaFiles L).lookup path = none from hlca] at hsome
            cases hsome

/-- A file of base that the merge branch has not touched is not staged. -/
theorem not_staged_of_untouched (hdiffer : UncomparedDiffer host dirHashes L B M) {g : FileNode}
    (hg : B.fileMap.lookup path = some g) (huntouched : M.fileHash path = lcaHash L path)
    {status : StagedEntryStatus} (hstatus : status ≠ .removed) :
    (path, f, status) ∉ (analyzeMerge (viewsContext host dirHashes L B M)).entries := by
  intro hentry
  have hreal := (realChanges_iff_differ host dirHashes hL hB hM hLB hBM).mpr hdiffer
  rcases (mem_entries_iff host dirHashes hstatus).mp hentry with
    ⟨hmerge, ⟨rfl, hmodified⟩ | ⟨rfl, -⟩⟩
  · rcases hreal.modified path f hentry with ⟨g', hg', hne⟩
    obtain rfl := Option.some.inj (hg.symm.trans hg')
    -- the ancestor has the file as the merge branch has it
    have hl : lcaHash L path = some f.combinedHash := by
      rw [← huntouched, CommitTree.fileHash, M.lookup_fileMap_of_lookup_openFiles hM hmerge]
      rfl
    unfold ReportedModified at hmodified
    cases hbase : (B.openFiles (baseHidden L B M)).lookup path with
    | some b =>
        rw [show (viewsContext host dirHashes L B M).baseEntries.lookup path = some b from hbase]
          at hmodified
        rcases hmodified with ⟨l, hlca, hbl, hbf⟩
        rw [lcaHash, show (lcaFiles L).lookup path = some l from hlca] at hl
        exact hbf (hbl.trans (Option.some.inj hl))
    | none =>
        rw [lcaHash, lca_of_hidden_base hL hB hM hLB hBM hmerge hg hbase] at hl
        exact hne (Option.some.inj hl).symm
  · rw [hreal.added path f hentry] at hg
    cases hg

end Trees

/-! ## The commit of the merge -/

namespace Merge

open CommitWriter

variable {entries : List (PathBuf × FileNode × StagedEntryStatus)} {dirEntries : DirEntries}

/-- Entries that were staged from a list lie in their directories under their full paths. -/
def StagedFrom (entries : List (PathBuf × FileNode × StagedEntryStatus)) (dirEntries : DirEntries) :
    Prop :=
  ∀ directory newChildren, dirEntries.lookup directory = some newChildren →
    ∀ child ∈ newChildren, ∃ path f status, (path, f, status) ∈ entries ∧
      child = ⟨status, .file { f with name := path }⟩ ∧ path.dropLast = directory

theorem StagedFrom.insertNew (h : StagedFrom entries dirEntries) (path : PathBuf) :
    StagedFrom entries (KeyedMap.insertNew dirEntries path []) := by
  intro directory newChildren hdir child hchild
  unfold KeyedMap.insertNew at hdir
  split at hdir
  · exact h directory newChildren hdir child hchild
  · rcases KeyedMap.lookup_insert_eq_some.mp hdir with ⟨rfl, rfl⟩ | ⟨-, hdir⟩
    · cases hchild
    · exact h directory newChildren hdir child hchild

theorem StagedFrom.append (h : StagedFrom entries dirEntries) {path : PathBuf} {f : FileNode}
    {status : StagedEntryStatus} (hentry : (path, f, status) ∈ entries) :
    StagedFrom entries (dirEntries.insert path.dropLast
      ((dirEntries.lookup path.dropLast).getD [] ++ [⟨status, .file { f with name := path }⟩])) := by
  intro directory newChildren hdir child hchild
  rcases KeyedMap.lookup_insert_eq_some.mp hdir with ⟨rfl, rfl⟩ | ⟨-, hdir⟩
  · rcases List.mem_append.mp hchild with hchild | hchild
    · cases hold : dirEntries.lookup path.dropLast with
      | none => simp [hold] at hchild
      | some old =>
          rw [hold] at hchild
          exact h _ old hold child hchild
    · exact ⟨path, f, status, hentry, List.mem_singleton.mp hchild, rfl⟩
  · exact h directory newChildren hdir child hchild

theorem stagedFrom_mergeDirEntries (entries : List (PathBuf × FileNode × StagedEntryStatus)) :
    StagedFrom entries (mergeDirEntries entries) := by
  have hempty : StagedFrom entries ∅ := nofun
  refine List.foldlRecOn entries _ hempty fun dirEntries hstaged entry hentry => ?_
  exact List.foldrRecOn _ _ (hstaged.append hentry) fun dirEntries hstaged path _ =>
    hstaged.insertNew path

/-- Staged under its full path, an entry needs no completion. -/
theorem StagedFrom.prefix_path (h : StagedFrom entries dirEntries) {directory : PathBuf}
    {newChildren : List StagedMerkleTreeNode} (hdir : dirEntries.lookup directory = some newChildren)
    {child : StagedMerkleTreeNode} (hchild : child ∈ newChildren) :
    child.path.dropLast = directory ∧ fullPath directory child = child.path ∧
      completed directory child = child := by
  rcases h directory newChildren hdir child hchild with ⟨path, f, status, -, rfl, rfl⟩
  have hno : ¬ (path.dropLast ≠ [] ∧ ¬ path.dropLast <+: path) :=
    fun hnot => hnot.2 (List.dropLast_prefix path)
  exact ⟨rfl, if_neg hno, if_neg hno⟩

theorem StagedFrom.placed (h : StagedFrom entries dirEntries) : PlacedEntries dirEntries where
  placed directory newChildren hdir child hchild _ := by
    rcases h.prefix_path hdir hchild with ⟨hparent, hfull, -⟩
    rw [hfull, hparent]
  keyed directory newChildren hdir child hchild _ d hd := by
    rcases h directory newChildren hdir child hchild with ⟨path, f, status, -, rfl, -⟩
    cases hd

theorem StagedFrom.mem_of_stagedAt (h : StagedFrom entries dirEntries) {path : PathBuf}
    {entry : StagedMerkleTreeNode} (hentry : StagedAt dirEntries path entry) :
    entry.status ≠ .removed ∧ ∃ f, (path, f, entry.status) ∈ entries := by
  rcases hentry with ⟨directory, newChildren, staged, hdir, hmem, -, hstatus, hfull, rfl⟩
  rcases h.prefix_path hdir hmem with ⟨-, hpath, hsame⟩
  rw [hsame]
  rcases h directory newChildren hdir staged hmem with ⟨p, f, status, hentry, rfl, -⟩
  obtain rfl : p = path := hpath.symm.trans hfull
  exact ⟨hstatus, f, hentry⟩

variable {s : Repository} {L : Option (CommitTree s.db)} {B M : CommitTree s.db}

/-- Where base has a file, the index that the merge builds upon names no other file. -/
def IndexCurrent (s : Repository) (B : CommitTree s.db) : Prop :=
  ∀ onto, targetCommit s (MerkleHash.display B.id) = .ok onto → ∀ path f g,
    IndexedFile s.db (indexOf s onto) path f → B.fileMap.lookup path = some g → f = g

/-- The merge commit has a message of its own. -/
def mergeEnv (env : CommitEnv) (base merge : CommitNode) : CommitEnv :=
  { env with newCommit :=
      { env.newCommit with
        message := "Merge commit " ++ MerkleHash.display merge.hash ++ " into " ++
          MerkleHash.display base.hash } }

/-- The files of base that the merge branch has not touched have base's last commit in
the commit of the merge. -/
def KeepsCommitIds (host : Host) (s : Repository) (L : Option (CommitTree s.db))
    (B M : CommitTree s.db) (fuel : ℕ) : Prop :=
  ∀ env analysis node head onto, env.toHost = host →
    findMergeConflicts host s.db s.dirHashes fuel (mergeCommits L B M) = some analysis →
    (serverThreeWayMerge env s B.commit M.commit analysis.entries).result = .ok node →
    Commits.headCommitMaybe s.db s.refs = .ok head →
    targetCommit s (MerkleHash.display B.id) = .ok onto →
    DistinctIds (mergeEnv env B.commit M.commit) s head (indexOf s onto)
      (mergeDirEntries analysis.entries) node →
    ∀ path f g,
      TreeFile (s.run (serverThreeWayMerge env s B.commit M.commit analysis.entries).ops).db node
        path f →
      B.fileMap.lookup path = some g → M.fileHash path = lcaHash L path →
        f.lastCommitId = g.lastCommitId

section

variable {host : Host} (hL : ∀ l, L = some l → UniquePaths [] l.tree)
  (hB : UniquePaths [] B.tree) (hM : UniquePaths [] M.tree)
  (hLB : ∀ l, L = some l → SharedInPlace l B) (hBM : SharedInPlace B M)

include hL hB hM hLB hBM

/-- What is not staged comes from the index that the merge builds upon. -/
theorem keepsCommitIds_of_differ {fuel : ℕ} (hfL : ∀ l, L = some l → l.tree.size ≤ fuel)
    (hfB : B.tree.size ≤ fuel) (hfM : M.tree.size ≤ fuel)
    (hdiffer : UncomparedDiffer host s.dirHashes L B M) {commits : List CommitNode}
    (hrun : WriterRun host commits s) (hcurrent : IndexCurrent s B) :
    KeepsCommitIds host s L B M fuel := by
  rintro env analysis node head onto rfl hrunMerge hok hhead honto hdistinct path f g hf hg huntouched
  rw [findMergeConflicts_eq env.toHost s.dirHashes L B M hfL hfB hfM] at hrunMerge
  obtain rfl := Option.some.inj hrunMerge
  have hstagedFrom := stagedFrom_mergeDirEntries
    (analyzeMerge (viewsContext env.toHost s.dirHashes L B M)).entries
  -- the call of the writer that the merge makes
  let call := CommitCall.withParents [MerkleHash.display B.id, MerkleHash.display M.id]
    (MerkleHash.display B.id)
  rcases call.writesTree hok with ⟨head', onto', hhead', honto', hwrites⟩
  obtain rfl := Except.ok.inj (hhead.symm.trans hhead')
  obtain rfl := Except.ok.inj (honto.symm.trans honto')
  have hindex := goodIndex_indexOf hrun.written.index onto
  rcases originates_of_treeFile hwrites hindex hstagedFrom.placed hdistinct hf with
    ⟨entry, fe, hstaged, -, -⟩ | hindexed
  · rcases hstagedFrom.mem_of_stagedAt hstaged with ⟨hstatus, fe', hentry⟩
    exact absurd hentry (not_staged_of_untouched env.toHost s.dirHashes hL hB hM hLB hBM hdiffer
      hg huntouched hstatus)
  · rw [hcurrent onto honto path f g hindexed hg]

/-- A merge stages real changes exactly when the files that it does not compare differ,
and then base's other files keep their last commits. -/
theorem findsRealChanges_iff {fuel : ℕ} (hfL : ∀ l, L = some l → l.tree.size ≤ fuel)
    (hfB : B.tree.size ≤ fuel) (hfM : M.tree.size ≤ fuel) :
    (FindsRealChanges host s.dirHashes L B M fuel ↔ UncomparedDiffer host s.dirHashes L B M) ∧
      (UncomparedDiffer host s.dirHashes L B M → ∀ commits, WriterRun host commits s →
        IndexCurrent s B → KeepsCommitIds host s L B M fuel) := by
  constructor
  · rw [← realChanges_iff_differ host s.dirHashes hL hB hM hLB hBM, FindsRealChanges,
      findMergeConflicts_eq host s.dirHashes L B M hfL hfB hfM]
    simp
  · intro hdiffer commits hrun hcurrent
    exact keepsCommitIds_of_differ hL hB hM hLB hBM hfL hfB hfM hdiffer hrun hcurrent

end

namespace SharedDirExample

open Example

/-- The directory `d` of the ancestor is still on base, and the merge branch has
changed one of its two files. -/
def lcaRoot : List MerkleTreeNode :=
  [dir [] 0x10 [dir ["d"] 0x20 [file "x" [1] 1, file "y" [2] 2]]]

def baseRoot : List MerkleTreeNode :=
  [dir [] 0x30 [dir ["d"] 0x20 [file "x" [1] 1, file "y" [2] 2], file "r" [3] 3]]

def mergeRoot : List MerkleTreeNode :=
  [dir [] 0x40 [dir ["d"] 0x50 [file "x" [4] 4, file "y" [2] 2]]]

def repository : Repository where
  db := .ofTrees [.mk (.commit { hash := 0x3 }) lcaRoot, .mk (.commit { hash := 0x4 }) baseRoot,
    .mk (.commit { hash := 0x5 }) mergeRoot]
  dirHashes commit :=
    if commit = 0x3 then KeyedMap.insertAll ∅ [([], 0x10), (["d"], 0x20)]
    else if commit = 0x4 then KeyedMap.insertAll ∅ [([], 0x30), (["d"], 0x20)]
    else KeyedMap.insertAll ∅ [([], 0x40), (["d"], 0x50)]

def lca : CommitTree repository.db where
  commit := { hash := 0x3 }
  children := lcaRoot
  stored := by decide
  shape := by decide

def base : CommitTree repository.db where
  commit := { hash := 0x4 }
  children := baseRoot
  stored := by decide
  shape := by decide

def merge : CommitTree repository.db where
  commit := { hash := 0x5 }
  children := mergeRoot
  stored := by decide
  shape := by decide

theorem wellFormed :
    UniquePaths [] lca.tree ∧ UniquePaths [] base.tree ∧ UniquePaths [] merge.tree ∧
      SharedInPlace lca base ∧ SharedInPlace base merge := by
  decide

/-- The file `y` is the same on all sides. -/
def analysis : MergeConflictAnalysis where
  entries := [(["d", "y"], fileNode "y" [2] 2, .modified), (["d", "x"], fileNode "x" [4] 4, .modified)]

theorem findMergeConflicts_eq :
    findMergeConflicts host repository.db repository.dirHashes 10
      (mergeCommits (some lca) base merge) = some analysis := by
  decide

end SharedDirExample

open SharedDirExample in
theorem findsRealChanges_iff_sharedDir :
    (FindsRealChanges Example.host repository.dirHashes (some lca) base merge 10 ↔
      UncomparedDiffer Example.host repository.dirHashes (some lca) base merge) ∧
    (UncomparedDiffer Example.host repository.dirHashes (some lca) base merge →
      ∀ commits, WriterRun Example.host commits repository → IndexCurrent repository base →
        KeepsCommitIds Example.host repository (some lca) base merge 10) :=
  findsRealChanges_iff (by rintro l ⟨⟩; exact wellFormed.1) wellFormed.2.1 wellFormed.2.2.1
    (by rintro l ⟨⟩; exact wellFormed.2.2.2.1) wellFormed.2.2.2.2 (by rintro l ⟨⟩; decide)
    (by decide) (by decide)

open SharedDirExample in
/-- The unchanged file `y` is staged as modified. -/
theorem not_findsRealChanges :
    (UniquePaths [] lca.tree ∧ UniquePaths [] base.tree ∧ UniquePaths [] merge.tree ∧
      SharedInPlace lca base ∧ SharedInPlace base merge) ∧
    ¬ FindsRealChanges Example.host repository.dirHashes (some lca) base merge 10 := by
  refine ⟨wellFormed, ?_⟩
  rintro ⟨found, hrun, hreal⟩
  obtain rfl := Option.some.inj (SharedDirExample.findMergeConflicts_eq.symm.trans hrun)
  rcases hreal.modified ["d", "y"] (Example.fileNode "y" [2] 2) (by decide) with ⟨g, hg, hne⟩
  have hbase : base.fileMap.lookup ["d", "y"] = some (Example.fileNode "y" [2] 2) := by
    decide
  obtain rfl := Option.some.inj (hbase.symm.trans hg)
  exact hne rfl

end Merge

end Oxen
