import Oxen.Lib.ThreeWayMerge
import Oxen.Verification.Merge.Views

/-! The analysis of a merge compares pruned trees. It finds what a comparison of
the whole trees finds exactly when the directory indexes do not mislead it. -/

namespace Oxen

open MerkleTreeNode ThreeWayMerge

/-! ## One path -/

/-- What the analysis finds at one path. -/
def pathAnalysis (ctx : MergeContext) (path : PathBuf) : MergeConflictAnalysis :=
  match ctx.mergeTreeEntries.lookup path, ctx.lcaEntries.lookup path with
  | some mergeFileNode, _ => considerMergeEntry ctx path mergeFileNode
  | none, some lcaFileNode => considerLcaEntry ctx path lcaFileNode
  | none, none => {}

/-- The hashes that the analysis compares at a path. -/
def MergeContext.pruned (ctx : MergeContext) (path : PathBuf) : Pruned MerkleHash where
  ancestor := (ctx.lcaEntries.lookup path).map (·.combinedHash)
  ours := (ctx.baseEntries.lookup path).map (·.combinedHash)
  theirs := (ctx.mergeTreeEntries.lookup path).map (·.combinedHash)
  askOurs := (ctx.getBaseFile path).map (·.combinedHash)
  askTheirs := (ctx.getMergeFile path).map (·.combinedHash)

/-- The hash an entry puts at its path. -/
def stagedHash (entry : PathBuf × FileNode × StagedEntryStatus) : Option MerkleHash :=
  match entry.2.2 with
  | .removed => none
  | _ => some entry.2.1.combinedHash

/-- Puts added and modified files and deletes removed ones. -/
def applyEntries (files : PathBuf → Option MerkleHash)
    (entries : List (PathBuf × FileNode × StagedEntryStatus)) : PathBuf → Option MerkleHash :=
  entries.foldl (fun files entry => Function.update files entry.1 (stagedHash entry)) files

theorem applyEntries_apply (files : PathBuf → Option MerkleHash)
    (entries : List (PathBuf × FileNode × StagedEntryStatus)) (path : PathBuf) :
    applyEntries files entries path =
      (entries.filter (·.1 = path)).foldl (fun _ entry => stagedHash entry) (files path) := by
  unfold applyEntries
  induction entries generalizing files with
  | nil => rfl
  | cons entry rest ih =>
      rw [List.foldl_cons, ih]
      by_cases h : entry.1 = path
      · rw [List.filter_cons_of_pos (by simpa using h), List.foldl_cons, ← h,
          Function.update_self]
      · rw [List.filter_cons_of_neg (by simpa using h), Function.update_of_ne (Ne.symm h)]

/-- One path at a time the analysis makes the changes of a pruned comparison. -/
theorem pathAnalysis_change (ctx : MergeContext) (path : PathBuf) (b : Option MerkleHash) :
    ((pathAnalysis ctx path).conflicts ≠ [] ↔ (ctx.pruned path).change = .conflict) ∧
      (pathAnalysis ctx path).entries.foldl (fun _ entry => stagedHash entry) b =
        (ctx.pruned path).change.apply b := by
  simp only [pathAnalysis, Pruned.change, MergeContext.pruned]
  cases hm : ctx.mergeTreeEntries.lookup path with
  | some m =>
      simp only [considerMergeEntry, Option.map_some]
      cases hb : ctx.baseEntries.lookup path with
      | some b' =>
          cases hl : ctx.lcaEntries.lookup path with
          | some l =>
              simp only [Option.map_some]
              split_ifs <;> simp [entryAt, conflictAt, Change.apply, stagedHash]
          | none =>
              simp only [Option.map_some, Option.map_none]
              split_ifs <;> simp [conflictAt, Change.apply]
      | none =>
          cases hl : ctx.lcaEntries.lookup path with
          | some l =>
              rcases Option.eq_none_or_eq_some (ctx.getBaseFile path) with hg | ⟨g, hg⟩
              · by_cases hlm : l.combinedHash = m.combinedHash <;>
                  simp [hg, conflictAt, Change.apply, hlm]
              · simp [hg, entryAt, Change.apply, stagedHash]
          | none =>
              rcases Option.eq_none_or_eq_some (ctx.getBaseFile path) with hg | ⟨g, hg⟩ <;>
                simp [hg, entryAt, Change.apply, stagedHash]
  | none =>
      cases hl : ctx.lcaEntries.lookup path with
      | none => simp [Change.apply]
      | some l =>
          simp only [considerLcaEntry, hm, Option.map_some, Option.map_none]
          rcases Option.eq_none_or_eq_some (ctx.getMergeFile path) with hg | ⟨g, hg⟩
          swap
          · simp [hg, Change.apply]
          rcases Option.eq_none_or_eq_some (ctx.getBaseFile path) with hg' | ⟨g, hg'⟩
          · simp [hg, hg', Change.apply]
          · by_cases hgl : g.combinedHash = l.combinedHash <;>
              simp [hg, hg', entryAt, conflictAt, Change.apply, stagedHash, hgl]

/-! ## All paths -/

theorem considerMergeEntry_path (ctx : MergeContext) (path : PathBuf) (m : FileNode) :
    (∀ entry ∈ (considerMergeEntry ctx path m).entries, entry.1 = path) ∧
      ∀ conflict ∈ (considerMergeEntry ctx path m).conflicts, conflict.baseEntry.2 = path := by
  simp only [considerMergeEntry]
  (repeat' split) <;> simp [entryAt, conflictAt]

theorem considerLcaEntry_path (ctx : MergeContext) (path : PathBuf) (l : FileNode) :
    (∀ entry ∈ (considerLcaEntry ctx path l).entries, entry.1 = path) ∧
      ∀ conflict ∈ (considerLcaEntry ctx path l).conflicts, conflict.baseEntry.2 = path := by
  unfold considerLcaEntry
  (repeat' split) <;> simp [entryAt, conflictAt]

theorem foldl_append_analysis (xs : List MergeConflictAnalysis) (acc : MergeConflictAnalysis) :
    xs.foldl MergeConflictAnalysis.append acc =
      { conflicts := acc.conflicts ++ xs.flatMap (·.conflicts)
        entries := acc.entries ++ xs.flatMap (·.entries) } := by
  induction xs generalizing acc with
  | nil => simp
  | cons x xs ih => simp [ih, MergeConflictAnalysis.append]

/-- What the whole analysis reports at a path is what it finds there. -/
private theorem filter_analyzeMerge {γ : Type} (ctx : MergeContext) (path : PathBuf)
    (field : MergeConflictAnalysis → List γ) (key : γ → PathBuf)
    (happend : ∀ xs : List MergeConflictAnalysis,
      field (xs.foldl MergeConflictAnalysis.append {}) = xs.flatMap field)
    (hempty : field {} = [])
    (hmerge : ∀ p m, ∀ x ∈ field (considerMergeEntry ctx p m), key x = p)
    (hlca : ∀ p l, ∀ x ∈ field (considerLcaEntry ctx p l), key x = p) :
    (field (analyzeMerge ctx)).filter (key · = path) = field (pathAnalysis ctx path) := by
  have hfst := KeyedMap.filter_flatMap_toList key (fun pair => hmerge pair.1 pair.2)
    ctx.mergeTreeEntries path
  have hsnd := KeyedMap.filter_flatMap_toList key (fun pair => hlca pair.1 pair.2)
    ctx.lcaEntries path
  rw [analyzeMerge, happend, List.flatMap_append, List.flatMap_map, List.flatMap_map,
    List.filter_append]
  refine (congrArg₂ (· ++ ·) hfst hsnd).trans ?_
  unfold pathAnalysis
  cases hm : ctx.mergeTreeEntries.lookup path with
  | some m =>
      cases hl : ctx.lcaEntries.lookup path with
      | none => simp
      | some l =>
          have hnone : considerLcaEntry ctx path l = {} := by simp [considerLcaEntry, hm]
          simp [hnone, hempty]
  | none => cases hl : ctx.lcaEntries.lookup path <;> simp [hempty]

theorem mem_conflicts_analyzeMerge (ctx : MergeContext) (path : PathBuf) :
    path ∈ (analyzeMerge ctx).conflicts.map (·.baseEntry.2) ↔
      (ctx.pruned path).change = .conflict := by
  have hfilter := filter_analyzeMerge ctx path (·.conflicts) (·.baseEntry.2)
    (fun xs => by simp [foldl_append_analysis]) rfl
    (fun p m => (considerMergeEntry_path ctx p m).2) (fun p l => (considerLcaEntry_path ctx p l).2)
  rw [← (pathAnalysis_change ctx path none).1, ← hfilter, ne_eq, List.filter_eq_nil_iff]
  simp

/-- The entries that the analysis reports are those that it finds at their paths. -/
theorem mem_entries_analyzeMerge (ctx : MergeContext)
    (entry : PathBuf × FileNode × StagedEntryStatus) :
    entry ∈ (analyzeMerge ctx).entries ↔ entry ∈ (pathAnalysis ctx entry.1).entries := by
  have hfilter := filter_analyzeMerge ctx entry.1 (·.entries) (·.1)
    (fun xs => by simp [foldl_append_analysis]) rfl
    (fun p m => (considerMergeEntry_path ctx p m).1) (fun p l => (considerLcaEntry_path ctx p l).1)
  rw [← hfilter, List.mem_filter, decide_eq_true_eq, and_iff_left rfl]

theorem applyEntries_analyzeMerge (ctx : MergeContext) (files : PathBuf → Option MerkleHash)
    (path : PathBuf) :
    applyEntries files (analyzeMerge ctx).entries path =
      (ctx.pruned path).change.apply (files path) := by
  have hfilter := filter_analyzeMerge ctx path (·.entries) (·.1)
    (fun xs => by simp [foldl_append_analysis]) rfl
    (fun p m => (considerMergeEntry_path ctx p m).1) (fun p l => (considerLcaEntry_path ctx p l).1)
  rw [applyEntries_apply, hfilter]
  exact (pathAnalysis_change ctx path (files path)).2

/-! ## Whole trees -/

section Trees

variable {db : NodeStore} (host : Host) (dirHashes : MerkleHash → DirHashes)
  (L : Option (CommitTree db)) (B M : CommitTree db)

def lcaHash (path : PathBuf) : Option MerkleHash :=
  ((lcaFiles L).lookup path).map (·.combinedHash)

/-- The analysis finds the conflicts and the changes of the naive three-way
merge of the three file maps. -/
def MatchesNaiveMerge (fuel : ℕ) : Prop :=
  ∃ analysis, findMergeConflicts host db dirHashes fuel (mergeCommits L B M) = some analysis ∧
    (∀ path, path ∈ analysis.conflicts.map (·.baseEntry.2) ↔
      Conflicts (lcaHash L path) (B.fileHash path) (M.fileHash path)) ∧
    ∀ path, applyEntries B.fileHash analysis.entries path =
      merged (lcaHash L path) (B.fileHash path) (M.fileHash path)

/-- What the merge sees of the three trees at a path, and what the directory
indexes of the base and merge commits say about it. -/
def treeView (path : PathBuf) : Pruned MerkleHash where
  ancestor := lcaHash L path
  ours := ((B.openFiles (baseHidden L B M)).lookup path).map (·.combinedHash)
  theirs := ((M.openFiles (mergeHidden L B M)).lookup path).map (·.combinedHash)
  askOurs := (CommitMerkleTree.getFileByPath host db (dirHashes B.id) path).map (·.combinedHash)
  askTheirs := (CommitMerkleTree.getFileByPath host db (dirHashes M.id) path).map (·.combinedHash)

/-- The lookups through the directory indexes are right where they matter. -/
def LookupsSuffice : Prop :=
  ∀ path, (treeView host dirHashes L B M path).AnswersSuffice (lcaHash L path) (B.fileHash path)
    (M.fileHash path)

variable {L B M} (hL : ∀ l, L = some l → UniquePaths [] l.tree) (hB : UniquePaths [] B.tree)
  (hM : UniquePaths [] M.tree) (hLB : ∀ l, L = some l → SharedInPlace l B)
  (hBM : SharedInPlace B M)

include hL hB hM hLB hBM

theorem treeView_of (path : PathBuf) :
    (treeView host dirHashes L B M path).Of (lcaHash L path) (B.fileHash path)
      (M.fileHash path) where
  ancestor := rfl
  ours a h := by
    obtain ⟨f, hf, rfl⟩ := Option.map_eq_some_iff.mp h
    simp [CommitTree.fileHash, B.lookup_fileMap_of_lookup_openFiles hB hf]
  theirs a h := by
    obtain ⟨f, hf, rfl⟩ := Option.map_eq_some_iff.mp h
    simp [CommitTree.fileHash, M.lookup_fileMap_of_lookup_openFiles hM hf]
  hidden_theirs a h hnone := by
    obtain ⟨f, hf, rfl⟩ := Option.map_eq_some_iff.mp h
    simp [CommitTree.fileHash,
      base_of_hidden_merge hB hM hBM hf (Option.map_eq_none_iff.mp hnone)]
  hidden_ours a h hnone := by
    obtain ⟨f, hf, rfl⟩ := Option.map_eq_some_iff.mp h
    rcases lca_or_merge_of_hidden_base hL hB hM hLB hBM hf (Option.map_eq_none_iff.mp hnone) with
      hl | ⟨hm, hopen⟩
    · exact .inl (by simp [lcaHash, hl])
    · exact .inr ⟨by simp [CommitTree.fileHash, hm], Option.map_eq_none_iff.mpr hopen⟩

omit hL hB hM hLB hBM in
/-- The analysis finds the conflicts and the changes of the comparison of the views. -/
theorem analysis_of_treeView (L : Option (CommitTree db)) (B M : CommitTree db) {fuel : ℕ}
    (hfL : ∀ l, L = some l → l.tree.size ≤ fuel) (hfB : B.tree.size ≤ fuel)
    (hfM : M.tree.size ≤ fuel) :
    ∃ analysis, findMergeConflicts host db dirHashes fuel (mergeCommits L B M) = some analysis ∧
      (∀ path, path ∈ analysis.conflicts.map (·.baseEntry.2) ↔
        (treeView host dirHashes L B M path).change = .conflict) ∧
      ∀ path, applyEntries B.fileHash analysis.entries path =
        (treeView host dirHashes L B M path).change.apply (B.fileHash path) := by
  rw [findMergeConflicts, loadMergeTrees_eq L B M hfL hfB hfM, Option.map_some, mergeContext_eq]
  exact ⟨_, rfl, mem_conflicts_analyzeMerge _, applyEntries_analyzeMerge _ _⟩

/-- The pruned comparison is the naive one exactly when the lookups suffice. -/
theorem matchesNaiveMerge_iff {fuel : ℕ} (hfL : ∀ l, L = some l → l.tree.size ≤ fuel)
    (hfB : B.tree.size ≤ fuel) (hfM : M.tree.size ≤ fuel) :
    MatchesNaiveMerge host dirHashes L B M fuel ↔ LookupsSuffice host dirHashes L B M := by
  rcases analysis_of_treeView host dirHashes L B M hfL hfB hfM with
    ⟨analysis, hrun, hconflicts, happly⟩
  have hexact : MatchesNaiveMerge host dirHashes L B M fuel ↔
      ∀ path, (treeView host dirHashes L B M path).Exact (lcaHash L path) (B.fileHash path)
        (M.fileHash path) := by
    simp only [MatchesNaiveMerge, hrun, Option.some.injEq, exists_eq_left', hconflicts, happly,
      Pruned.Exact, forall_and]
  rw [hexact, LookupsSuffice]
  exact forall_congr' fun path =>
    Pruned.exact_iff_answersSuffice (treeView_of host dirHashes hL hB hM hLB hBM path)

omit hL hB hM hLB hBM in
/-- Indexes that find exactly the files of their commits suffice. -/
theorem lookupsSuffice_of_truthful
    (hbase : ∀ path, CommitMerkleTree.getFileByPath host db (dirHashes B.id) path =
      B.fileMap.lookup path)
    (hmerge : ∀ path, CommitMerkleTree.getFileByPath host db (dirHashes M.id) path =
      M.fileMap.lookup path) :
    LookupsSuffice host dirHashes L B M :=
  fun path => Pruned.answersSuffice_of_truthful (congrArg (Option.map FileNode.combinedHash) (hbase path))
    (congrArg (Option.map FileNode.combinedHash) (hmerge path))

end Trees

namespace MergeExample

open Example

/-- Once there was a directory `p`. The ancestor has a file in its place. -/
def beforeRoot : List MerkleTreeNode :=
  [dir [] 0x10 [dir ["p"] 0x20 [file "x" [1] 1], file "q" [2] 2]]

def lcaRoot : List MerkleTreeNode :=
  [dir [] 0x30 [file "p" [3] 3, file "q" [2] 2]]

/-- The base branch has added `r`, the merge branch has deleted `p`. -/
def baseRoot : List MerkleTreeNode :=
  [dir [] 0x40 [file "p" [3] 3, file "q" [2] 2, file "r" [4] 4]]

def mergeRoot : List MerkleTreeNode :=
  [dir [] 0x50 [file "q" [2] 2]]

def nodes : NodeStore :=
  .ofTrees [.mk (.commit { hash := 0x1 }) beforeRoot, .mk (.commit { hash := 0x3 }) lcaRoot,
    .mk (.commit { hash := 0x4 }) baseRoot, .mk (.commit { hash := 0x5 }) mergeRoot]

def lca : CommitTree nodes where
  commit := { hash := 0x3 }
  children := lcaRoot
  stored := by decide
  shape := by decide

def base : CommitTree nodes where
  commit := { hash := 0x4 }
  children := baseRoot
  stored := by decide
  shape := by decide

def merge : CommitTree nodes where
  commit := { hash := 0x5 }
  children := mergeRoot
  stored := by decide
  shape := by decide

/-- Every index still has the old directory `p`. -/
def dirHashes (commit : MerkleHash) : DirHashes :=
  KeyedMap.insertAll ∅
    [([], if commit = 0x3 then 0x30 else if commit = 0x4 then 0x40 else 0x50), (["p"], 0x20)]

theorem wellFormed :
    UniquePaths [] lca.tree ∧ UniquePaths [] base.tree ∧ UniquePaths [] merge.tree ∧
      SharedInPlace lca base ∧ SharedInPlace base merge := by
  decide

end MergeExample

theorem matchesNaiveMerge_iff_example :
    MatchesNaiveMerge Example.host MergeExample.dirHashes (some MergeExample.lca) MergeExample.base
        MergeExample.merge 10 ↔
      LookupsSuffice Example.host MergeExample.dirHashes (some MergeExample.lca) MergeExample.base
        MergeExample.merge :=
  matchesNaiveMerge_iff Example.host MergeExample.dirHashes
    (by rintro l ⟨⟩; exact MergeExample.wellFormed.1) MergeExample.wellFormed.2.1
    MergeExample.wellFormed.2.2.1 (by rintro l ⟨⟩; exact MergeExample.wellFormed.2.2.2.1)
    MergeExample.wellFormed.2.2.2.2 (by rintro l ⟨⟩; decide) (by decide)
    (by decide)

/-- The index takes `p` for a directory, so its deletion is not found. -/
theorem not_matchesNaiveMerge :
    (UniquePaths [] MergeExample.lca.tree ∧ UniquePaths [] MergeExample.base.tree ∧
      UniquePaths [] MergeExample.merge.tree ∧ SharedInPlace MergeExample.lca MergeExample.base ∧
      SharedInPlace MergeExample.base MergeExample.merge) ∧
    ¬ MatchesNaiveMerge Example.host MergeExample.dirHashes (some MergeExample.lca)
      MergeExample.base MergeExample.merge 10 := by
  refine ⟨MergeExample.wellFormed, ?_⟩
  rintro ⟨analysis, hrun, -, happly⟩
  have hentries : (findMergeConflicts Example.host MergeExample.nodes MergeExample.dirHashes 10
      (mergeCommits (some MergeExample.lca) MergeExample.base MergeExample.merge)).map
        (·.entries) = some [] := by decide
  rw [hrun] at hentries
  have hnone : analysis.entries = [] := Option.some.inj hentries
  have hp := happly ["p"]
  rw [hnone] at hp
  exact absurd hp (by decide)

end Oxen
