import Oxen.Lib.Antichains
import Oxen.Verification.Merge.Comparison

/-! The merged files of two branches. The analysis compares equal paths only, so a
file of one branch can be a directory of a file of the other. -/

namespace Oxen

open MerkleTreeNode ThreeWayMerge

section

variable {db : NodeStore} (host : Host) (dirHashes : MerkleHash → DirHashes)
  (L : Option (CommitTree db)) (B M : CommitTree db)

def filePaths (files : PathBuf → Option MerkleHash) : Set PathBuf :=
  {path | files path ≠ none}

/-- No file is at a directory of another file. -/
def PrefixFree (files : PathBuf → Option MerkleHash) : Prop :=
  IsAntichain (· <+: ·) (filePaths files)

/-- A merge without conflicts leaves no file at a directory of another file. -/
def MergesPrefixFree (fuel : ℕ) : Prop :=
  ∀ analysis, findMergeConflicts host db dirHashes fuel (mergeCommits L B M) = some analysis →
    analysis.conflicts = [] → PrefixFree (applyEntries B.fileHash analysis.entries)

/-- A file of the merge branch that the base lacks. The ancestor lacks it too, or the
index of the base finds a file nevertheless. -/
def TakenFromMerge (path : PathBuf) : Prop :=
  B.fileHash path = none ∧ M.fileHash path ≠ none ∧
    (lcaHash L path = none ∨
      CommitMerkleTree.getFileByPath host db (dirHashes B.id) path ≠ none)

/-- A file of the base that the merge branch lacks. The ancestor lacks it too, or one
of the indexes misleads about its deletion. -/
def KeptFromBase (path : PathBuf) : Prop :=
  M.fileHash path = none ∧ B.fileHash path ≠ none ∧
    (lcaHash L path = none ∨
      CommitMerkleTree.getFileByPath host db (dirHashes M.id) path ≠ none ∨
      CommitMerkleTree.getFileByPath host db (dirHashes B.id) path = none)

variable {L B M} (hL : ∀ l, L = some l → UniquePaths [] l.tree) (hB : UniquePaths [] B.tree)
  (hM : UniquePaths [] M.tree) (hLB : ∀ l, L = some l → SharedInPlace l B)
  (hBM : SharedInPlace B M)

include hL hB hM hLB hBM

theorem put_iff_takenFromMerge {path : PathBuf} (hb : B.fileHash path = none) :
    (treeView host dirHashes L B M path).change.apply (B.fileHash path) ≠ none ↔
      TakenFromMerge host dirHashes L B M path := by
  have hview := treeView_of host dirHashes hL hB hM hLB hBM path
  rw [hb] at hview ⊢
  rw [Pruned.apply_change_of_absent hview, TakenFromMerge, treeView, ne_eq (Option.map _ _),
    Option.map_eq_none_iff]
  exact ⟨fun h => ⟨hb, h⟩, And.right⟩

theorem left_iff_keptFromBase {path : PathBuf} (hm : M.fileHash path = none)
    (hb : B.fileHash path ≠ none)
    (hno : (treeView host dirHashes L B M path).change ≠ .conflict) :
    (treeView host dirHashes L B M path).change.apply (B.fileHash path) ≠ none ↔
      KeptFromBase host dirHashes L B M path := by
  have hview := treeView_of host dirHashes hL hB hM hLB hBM path
  rw [hm] at hview
  rw [Pruned.apply_change_of_missing hview hb hno, KeptFromBase, treeView, ne_eq (Option.map _ _),
    Option.map_eq_none_iff, Option.map_eq_none_iff]
  exact ⟨fun h => ⟨hm, hb, h⟩, fun h => h.2.2⟩

/-- The merged files are prefix-free exactly when no file that only the merge branch
has and no file that only the base has clash. -/
theorem prefixFree_merged_iff {fuel : ℕ} (hfL : ∀ l, L = some l → l.tree.size ≤ fuel)
    (hfB : B.tree.size ≤ fuel) (hfM : M.tree.size ≤ fuel)
    (hpB : PrefixFree B.fileHash) (hpM : PrefixFree M.fileHash)
    {analysis : MergeConflictAnalysis}
    (hrun : findMergeConflicts host db dirHashes fuel (mergeCommits L B M) = some analysis)
    (hnone : analysis.conflicts = []) :
    PrefixFree (applyEntries B.fileHash analysis.entries) ↔
      ∀ p q, TakenFromMerge host dirHashes L B M p → KeptFromBase host dirHashes L B M q →
        ¬ p <+: q ∧ ¬ q <+: p := by
  rcases analysis_of_treeView host dirHashes L B M hfL hfB hfM with
    ⟨analysis', hrun', hconflicts, happly⟩
  obtain rfl := Option.some.inj (hrun.symm.trans hrun')
  have hno : ∀ path, (treeView host dirHashes L B M path).change ≠ .conflict := by
    intro path hc
    have hmem := (hconflicts path).mpr hc
    rw [hnone] at hmem
    cases hmem
  have hput : ∀ p, p ∈ filePaths (applyEntries B.fileHash analysis.entries) \
      filePaths B.fileHash ↔ TakenFromMerge host dirHashes L B M p := by
    intro p
    simp only [filePaths, Set.mem_sdiff, Set.mem_ofPred_eq, happly, not_not]
    constructor
    · rintro ⟨hp, hb⟩
      exact (put_iff_takenFromMerge host dirHashes hL hB hM hLB hBM hb).mp hp
    · intro h
      exact ⟨(put_iff_takenFromMerge host dirHashes hL hB hM hLB hBM h.1).mpr h, h.1⟩
  have hmixed : filePaths (applyEntries B.fileHash analysis.entries) ⊆
      filePaths B.fileHash ∪ filePaths M.fileHash := by
    intro p hp
    by_cases hb : p ∈ filePaths B.fileHash
    · exact .inl hb
    · exact .inr ((hput p).mp ⟨hp, hb⟩).2.1
  have hkept : ∀ q, q ∈ filePaths (applyEntries B.fileHash analysis.entries) \
      filePaths M.fileHash ↔ KeptFromBase host dirHashes L B M q := by
    intro q
    have hiff := fun hm hb =>
      left_iff_keptFromBase host dirHashes hL hB hM hLB hBM hm hb (hno q)
    constructor
    · rintro ⟨hq, hm⟩
      have hb := (hmixed hq).resolve_right hm
      simp only [filePaths, Set.mem_ofPred_eq, not_not, happly] at hq hm hb
      exact (hiff hm hb).mp hq
    · intro h
      refine ⟨?_, fun hm => hm h.1⟩
      simp only [filePaths, Set.mem_ofPred_eq, happly]
      exact (hiff h.1 h.2.1).mpr h
  rw [PrefixFree, Antichains.isAntichain_mixed_iff hpB hpM hmixed]
  simp only [hput, hkept]
  exact ⟨fun h p q hp hq => h p hp q hq, fun h p hp q hq => h p q hp hq⟩

end

theorem prefixFree_fileHash {db : NodeStore} {t : CommitTree db}
    (h : ∀ x ∈ t.tree.files [], ∀ y ∈ t.tree.files [], x.1 <+: y.1 → x.1 = y.1) :
    PrefixFree t.fileHash := by
  have hfile : ∀ p ∈ filePaths t.fileHash, ∃ f, (p, f) ∈ t.tree.files [] := by
    intro p hp
    rcases Option.ne_none_iff_exists'.mp hp with ⟨a, ha⟩
    rcases Option.map_eq_some_iff.mp ha with ⟨f, hf, -⟩
    exact ⟨f, by simpa using KeyedMap.mem_of_lookup_insertAll hf⟩
  intro p hp q hq hne hpq
  rcases hfile p hp with ⟨f, hf⟩
  rcases hfile q hq with ⟨g, hg⟩
  exact hne (h (p, f) hf (q, g) hg hpq)

namespace ClashExample

open Example

def lcaRoot : List MerkleTreeNode :=
  [dir [] 0x10 [file "q" [2] 2]]

/-- The base branch has added a file `a`, the merge branch a directory `a`. -/
def baseRoot : List MerkleTreeNode :=
  [dir [] 0x20 [file "a" [3] 3, file "q" [2] 2]]

def mergeRoot : List MerkleTreeNode :=
  [dir [] 0x30 [dir ["a"] 0x40 [file "x" [4] 4], file "q" [2] 2]]

def nodes : NodeStore :=
  .ofTrees [.mk (.commit { hash := 0x3 }) lcaRoot, .mk (.commit { hash := 0x4 }) baseRoot,
    .mk (.commit { hash := 0x5 }) mergeRoot]

def lca : CommitTree nodes where
  commit := { hash := 0x3 }
  children := lcaRoot
  stored := by decide
  shape := by decide

def base : CommitTree nodes where
  commit := { hash := 0x4 }
  children := baseRoot
  stored := by decide
  shape := by decide

def merge : CommitTree nodes where
  commit := { hash := 0x5 }
  children := mergeRoot
  stored := by decide
  shape := by decide

def dirHashes (commit : MerkleHash) : DirHashes :=
  if commit = 0x3 then KeyedMap.insertAll ∅ [([], 0x10)]
  else if commit = 0x4 then KeyedMap.insertAll ∅ [([], 0x20)]
  else KeyedMap.insertAll ∅ [([], 0x30), (["a"], 0x40)]

theorem wellFormed :
    UniquePaths [] lca.tree ∧ UniquePaths [] base.tree ∧ UniquePaths [] merge.tree ∧
      SharedInPlace lca base ∧ SharedInPlace base merge := by
  decide

theorem prefixFree :
    PrefixFree lca.fileHash ∧ PrefixFree base.fileHash ∧ PrefixFree merge.fileHash :=
  ⟨prefixFree_fileHash (by decide), prefixFree_fileHash (by decide),
    prefixFree_fileHash (by decide)⟩

def analysis : MergeConflictAnalysis where
  entries := [(["a", "x"], fileNode "x" [4] 4, .added)]

theorem findMergeConflicts_eq :
    findMergeConflicts host nodes dirHashes 10 (mergeCommits (some lca) base merge) =
      some analysis := by
  decide

end ClashExample

open ClashExample in
theorem prefixFree_merged_iff_clash :
    PrefixFree (applyEntries base.fileHash analysis.entries) ↔
      ∀ p q, TakenFromMerge Example.host dirHashes (some lca) base merge p →
        KeptFromBase Example.host dirHashes (some lca) base merge q → ¬ p <+: q ∧ ¬ q <+: p :=
  prefixFree_merged_iff Example.host dirHashes (by rintro l ⟨⟩; exact wellFormed.1)
    wellFormed.2.1 wellFormed.2.2.1 (by rintro l ⟨⟩; exact wellFormed.2.2.2.1)
    wellFormed.2.2.2.2 (by rintro l ⟨⟩; decide) (by decide) (by decide)
    prefixFree.2.1 prefixFree.2.2 findMergeConflicts_eq rfl

open ClashExample in
/-- The merge has the file `a` and the file `a/x`. -/
theorem not_mergesPrefixFree :
    (UniquePaths [] lca.tree ∧ UniquePaths [] base.tree ∧ UniquePaths [] merge.tree ∧
      SharedInPlace lca base ∧ SharedInPlace base merge) ∧
    (PrefixFree lca.fileHash ∧ PrefixFree base.fileHash ∧ PrefixFree merge.fileHash) ∧
    ¬ MergesPrefixFree Example.host dirHashes (some lca) base merge 10 := by
  refine ⟨wellFormed, prefixFree, fun h => ?_⟩
  have hfree := h analysis findMergeConflicts_eq rfl
  have hfile : ["a"] ∈ filePaths (applyEntries base.fileHash analysis.entries) := by
    change applyEntries _ _ _ ≠ none
    decide
  have hbelow : ["a", "x"] ∈ filePaths (applyEntries base.fileHash analysis.entries) := by
    change applyEntries _ _ _ ≠ none
    decide
  exact hfree hfile hbelow (by decide) (by decide)

end Oxen
