import Oxen.Model.CommitMerkleTree

/-! Analysis of a three-way merge. -/

namespace Oxen

open MerkleTreeNode

inductive StagedEntryStatus where
  | added
  | modified
  | removed
  | unmodified
deriving DecidableEq, Repr

structure MergeCommits where
  lca : Option MerkleHash
  base : MerkleHash
  merge : MerkleHash

/-- The three versions of a conflicting file. A side that lacks the file is
represented by another side's version. -/
structure NodeMergeConflict where
  lcaEntry : FileNode × PathBuf
  baseEntry : FileNode × PathBuf
  mergeEntry : FileNode × PathBuf
deriving DecidableEq

/-- The conflicts, and the changes of the merge branch to apply to the base tree. -/
structure MergeConflictAnalysis where
  conflicts : List NodeMergeConflict := []
  entries : List (PathBuf × FileNode × StagedEntryStatus) := []
deriving DecidableEq

def MergeConflictAnalysis.append (xs ys : MergeConflictAnalysis) : MergeConflictAnalysis where
  conflicts := xs.conflicts ++ ys.conflicts
  entries := xs.entries ++ ys.entries

/-- What the analysis compares: the files of the three trees, the last two
without shared containers, and lookups in the whole base and merge trees. -/
structure MergeContext where
  lcaEntries : KeyedMap.Map PathBuf FileNode
  baseEntries : KeyedMap.Map PathBuf FileNode
  mergeTreeEntries : KeyedMap.Map PathBuf FileNode
  getBaseFile : PathBuf → Option FileNode
  getMergeFile : PathBuf → Option FileNode

def conflictAt (path : PathBuf) (lca base merge : FileNode) : MergeConflictAnalysis where
  conflicts := [⟨(lca, path), (base, path), (merge, path)⟩]

def entryAt (path : PathBuf) (node : FileNode) (status : StagedEntryStatus) :
    MergeConflictAnalysis where
  entries := [(path, node, status)]

/-- Decides what to do with one file of the merge tree. -/
def considerMergeEntry (ctx : MergeContext) (entryPath : PathBuf) (mergeFileNode : FileNode) :
    MergeConflictAnalysis :=
  match ctx.baseEntries.lookup entryPath, ctx.lcaEntries.lookup entryPath with
  | some baseFileNode, some lcaFileNode =>
      let baseEqLca := baseFileNode.combinedHash = lcaFileNode.combinedHash
      let baseEqMerge := baseFileNode.combinedHash = mergeFileNode.combinedHash
      let lcaEqMerge := lcaFileNode.combinedHash = mergeFileNode.combinedHash
      if baseEqLca ∧ ¬ baseEqMerge then entryAt entryPath mergeFileNode .modified
      else if ¬ baseEqLca ∧ ¬ lcaEqMerge ∧ ¬ baseEqMerge then
        conflictAt entryPath lcaFileNode baseFileNode mergeFileNode
      else {}
  | some baseFileNode, none =>
      if baseFileNode.combinedHash ≠ mergeFileNode.combinedHash then
        conflictAt entryPath baseFileNode baseFileNode mergeFileNode
      else {}
  | none, maybeLca =>
      -- base deleted the file, or its directory is shared with the ancestor
      match ctx.getBaseFile entryPath, maybeLca with
      | some _, _ => entryAt entryPath mergeFileNode .modified
      | none, some lcaNode =>
          if lcaNode.combinedHash ≠ mergeFileNode.combinedHash then
            conflictAt entryPath lcaNode lcaNode mergeFileNode
          else {}
      | none, none => entryAt entryPath mergeFileNode .added

/-- Detects the deletion of one file of the ancestor on the merge branch. -/
def considerLcaEntry (ctx : MergeContext) (entryPath : PathBuf) (lcaFileNode : FileNode) :
    MergeConflictAnalysis :=
  if (ctx.mergeTreeEntries.lookup entryPath).isSome ∨ (ctx.getMergeFile entryPath).isSome then {}
  else
    match ctx.getBaseFile entryPath with
    | none => {}
    | some baseFileNode =>
        if baseFileNode.combinedHash = lcaFileNode.combinedHash then
          entryAt entryPath lcaFileNode .removed
        else conflictAt entryPath lcaFileNode baseFileNode lcaFileNode

def analyzeMerge (ctx : MergeContext) : MergeConflictAnalysis :=
  ((KeyedMap.toList ctx.mergeTreeEntries).map (fun entry => considerMergeEntry ctx entry.1 entry.2)
    ++ (KeyedMap.toList ctx.lcaEntries).map fun entry => considerLcaEntry ctx entry.1 entry.2).foldl
      MergeConflictAnalysis.append {}

/-- The three trees as the merge loads them, the base tree without what the
ancestor has and the merge tree without what is only in the base tree. -/
structure MergeTrees where
  lca : Option LoadedNode
  base : LoadedNode
  merge : LoadedNode

def loadMergeTrees (db : NodeStore) (fuel : ℕ) (commits : MergeCommits) : Option MergeTrees := do
  let lca := commits.lca.bind (rootWithChildrenAndNodeHashes db [] fuel)
  let lcaHashes := (lca.map (·.uniqueHashes)).getD []
  let base ← rootWithChildrenAndNodeHashes db lcaHashes fuel commits.base
  let merge ← rootWithChildrenAndNodeHashes db base.uniqueHashes fuel commits.merge
  return { lca, base, merge }

/-- The shared hashes collected while the trees are loaded. -/
def MergeTrees.sharedHashes (trees : MergeTrees) : List MerkleHash :=
  trees.base.sharedHashes ++ trees.merge.sharedHashes

def mergeContext (host : Host) (db : NodeStore) (dirHashes : MerkleHash → DirHashes)
    (commits : MergeCommits) (trees : MergeTrees) : MergeContext where
  lcaEntries :=
    KeyedMap.insertAll ∅ ((trees.lca.map fun lca => lca.tree.uniqueDirEntries [] []).getD [])
  baseEntries := KeyedMap.insertAll ∅ (trees.base.tree.uniqueDirEntries trees.sharedHashes [])
  mergeTreeEntries := KeyedMap.insertAll ∅ (trees.merge.tree.uniqueDirEntries trees.sharedHashes [])
  getBaseFile := CommitMerkleTree.getFileByPath host db (dirHashes commits.base)
  getMergeFile := CommitMerkleTree.getFileByPath host db (dirHashes commits.merge)

/-- The analysis of a merge that has no working tree to write to. It fails when
the base or the merge commit is not stored. -/
def findMergeConflicts (host : Host) (db : NodeStore) (dirHashes : MerkleHash → DirHashes)
    (fuel : ℕ) (commits : MergeCommits) : Option MergeConflictAnalysis :=
  (loadMergeTrees db fuel commits).map fun trees =>
    analyzeMerge (mergeContext host db dirHashes commits trees)

end Oxen
