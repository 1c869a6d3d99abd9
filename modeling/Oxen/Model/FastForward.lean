import Oxen.Model.Checkout

/-! Fast-forward merges: the two walks that plan a merge, and the writes that
carry it out in the working directory. -/

namespace Oxen

/-- A repository on a host that extracts type-specific metadata from the file
that a relative path leads to. -/
structure MergeRepository extends LocalRepository where
  metadataHash : WorkingTree → PathBuf → Except String (Option MerkleHash)

/-- Whether a merge is attached to a working tree. A resumed merge restores
every file without looking for local changes. -/
inductive LocalCheckout where
  | absent
  | present (isResume : Bool)
deriving DecidableEq, Repr

def LocalCheckout.writesToDisk : LocalCheckout → Bool
  | .absent => false
  | .present _ => true

def LocalCheckout.isResume : LocalCheckout → Bool
  | .absent => false
  | .present isResume => isResume

/-- What a merge changes: the working tree, HEAD and the MERGE_IN_PROGRESS file. -/
structure ClientState extends RepoState where
  head : MerkleHash
  mergeInProgress : Option MerkleHash

abbrev ClientM := EStateM OxenError ClientState

/-- Runs an operation on the files of the repository. -/
def liftRepo {α : Type} (x : RepoM α) : ClientM α := fun state =>
  match x state.toRepoState with
  | .ok a repoState => .ok a { state with toRepoState := repoState }
  | .error e repoState => .error e { state with toRepoState := repoState }

namespace MergeRepository

variable (repo : MergeRepository) (disk : WorkingTree)

def getCombinedHash (metadataHash : Option MerkleHash) (contentHash : MerkleHash) : MerkleHash :=
  match metadataHash with
  | some metadataHash => repo.xxh3 (contentHash.toLeBytes ++ metadataHash.toLeBytes)
  | none => contentHash

/-- The combined hash of the file at a path. The content is read before the metadata. -/
def fileCombinedHash (path : PathBuf) : Except OxenError MerkleHash :=
  match repo.getHashGivenMetadata disk path with
  | .error e => .error e
  | .ok fileHash =>
      match repo.metadataHash disk path with
      | .error message => .error (.basicStr message)
      | .ok metadataHash => .ok (repo.getCombinedHash metadataHash fileHash)

def shouldRestorePartialNode (baseNode : Option PartialNode) (fileNode : FileNode)
    (path : PathBuf) : Except OxenError Bool :=
  match repo.metadata disk path with
  | none => .ok true
  | some metadata =>
      match baseNode with
      | some baseNode => do
          if ← repo.statMatches metadata baseNode.lastModified baseNode.size then
            pure true
          else
            let hash ← repo.getHashGivenMetadata disk path
            -- a file that matches the merge target already is no conflict
            pure (hash = fileNode.hash ∨ hash = baseNode.hash)
      | none => do
          let nodeTime ← fileNode.computeTime
          if ← repo.statMatches metadata nodeTime fileNode.numBytes then
            pure true
          else
            let hash ← repo.getHashGivenMetadata disk path
            pure (hash = fileNode.hash)

def shouldRestoreFile (baseNode : Option FileNode) (fileNode : FileNode) (path : PathBuf) :
    Except OxenError Bool :=
  match repo.metadata disk path with
  | none => .ok true
  | some metadata =>
      match baseNode with
      | some baseNode => do
          let nodeTime ← baseNode.computeTime
          if ← repo.statMatches metadata nodeTime baseNode.numBytes then
            pure true
          else
            let hash ← repo.fileCombinedHash disk path
            pure (hash = fileNode.combinedHash ∨ hash = baseNode.combinedHash)
      | none => do
          let nodeTime ← fileNode.computeTime
          if ← repo.statMatches metadata nodeTime fileNode.numBytes then
            pure true
          else
            let hash ← repo.fileCombinedHash disk path
            pure (hash = fileNode.combinedHash)

end MergeRepository

/-- What a walk found, with the file paths it has seen. -/
structure MergeResult where
  entriesToRestore : List FileToRestore := []
  cannotOverwriteEntries : List PathBuf := []
  seenFiles : List PathBuf := []

def MergeResult.append (xs ys : MergeResult) : MergeResult where
  entriesToRestore := xs.entriesToRestore ++ ys.entriesToRestore
  cannotOverwriteEntries := xs.cannotOverwriteEntries ++ ys.cannotOverwriteEntries
  seenFiles := xs.seenFiles ++ ys.seenFiles

/-- The finding on one file. -/
def FileVerdict.result (verdict : FileVerdict) (fileNode : FileNode) (path : PathBuf) :
    MergeResult where
  entriesToRestore := if verdict = .restore then [⟨fileNode, path⟩] else []
  cannotOverwriteEntries := if verdict = .conflict then [path] else []
  seenFiles := [path]

def restoreVerdict (shouldRestore : Bool) : FileVerdict :=
  if shouldRestore then .restore else .conflict

/-- One pop of a walk that passes over the shared directories and virtual nodes. -/
def visitUnshared (sharedHashes : List MerkleHash)
    (visitFile : PathBuf → FileNode → Except OxenError FileVerdict)
    (unexpected : Except OxenError MergeResult) :
    PathBuf × MerkleTreeNode → Except OxenError (MergeResult × List (PathBuf × MerkleTreeNode))
  | (path, .mk (.file f) _) =>
      (visitFile (path ++ f.name) f).map fun verdict => (verdict.result f (path ++ f.name), [])
  | (path, .mk (.directory d) vnodes) =>
      if d.hash ∈ sharedHashes then .ok ({}, [])
      else
        .ok ({}, (vnodes.filter (·.hash ∉ sharedHashes)).flatMap fun vnode =>
          vnode.children.map (path ++ d.name, ·))
  | (path, .mk (.commit c) cs) =>
      (getRootDir (.mk (.commit c) cs)).map fun root => ({}, [(path, root)])
  | (_, .mk (.vnode _) _) => unexpected.map (·, [])

def walkUnshared (sharedHashes : List MerkleHash)
    (visitFile : PathBuf → FileNode → Except OxenError FileVerdict)
    (unexpected : Except OxenError MergeResult) (root : MerkleTreeNode) :
    Except OxenError MergeResult :=
  (StackWalk.walk (visitUnshared sharedHashes visitFile unexpected) root.size [([], root)]).map
    (List.foldl MergeResult.append {})

/-- Compares one file of the merge tree with the base tree and the disk. -/
def mergeFileVerdict (repo : MergeRepository) (disk : WorkingTree)
    (baseFiles : KeyedMap.Map PathBuf PartialNode) (isResume : Bool) (filePath : PathBuf)
    (mergeFileNode : FileNode) : Except OxenError FileVerdict :=
  if isResume then .ok .restore
  else
    match baseFiles.lookup filePath with
    | some baseFileNode =>
        if mergeFileNode.hash ≠ baseFileNode.hash then
          (repo.shouldRestorePartialNode disk (some baseFileNode) mergeFileNode filePath).map
            restoreVerdict
        else .ok .keep
    | none => (repo.shouldRestoreFile disk none mergeFileNode filePath).map restoreVerdict

def walkMergeCommit (repo : MergeRepository) (disk : WorkingTree)
    (baseFiles : KeyedMap.Map PathBuf PartialNode) (sharedHashes : List MerkleHash)
    (isResume : Bool) (root : MerkleTreeNode) : Except OxenError MergeResult :=
  walkUnshared sharedHashes (mergeFileVerdict repo disk baseFiles isResume)
    (.error (.basicStr "Got an unexpected node type during checkout")) root

/-- Decides about one file of the base tree. A file to restore is one to remove here. -/
def baseFileVerdict (repo : MergeRepository) (disk : WorkingTree) (mergeFiles : List PathBuf)
    (isResume : Bool) (filePath : PathBuf) (baseFileNode : FileNode) :
    Except OxenError FileVerdict :=
  if filePath ∉ mergeFiles ∧ disk.pathExists filePath then
    if isResume then .ok .restore
    else (repo.shouldRestoreFile disk none baseFileNode filePath).map restoreVerdict
  else .ok .keep

def walkBaseDir (repo : MergeRepository) (disk : WorkingTree) (sharedHashes : List MerkleHash)
    (mergeFiles : List PathBuf) (isResume : Bool) (root : MerkleTreeNode) :
    Except OxenError MergeResult :=
  walkUnshared sharedHashes (baseFileVerdict repo disk mergeFiles isResume) (.ok {}) root

/-- The writes of a merge. A process can stop between any two of them. -/
inductive MergeStep where
  | writeMarker (targetCommitId : MerkleHash)
  | restore (entry : FileToRestore)
  | remove (path : PathBuf)
  | setHead (commitId : MerkleHash)
  | clearMarker

def MergeStep.run (repo : MergeRepository) : MergeStep → ClientM Unit
  | .writeMarker targetCommitId => modify ({ · with mergeInProgress := some targetCommitId })
  | .restore entry => liftRepo (restoreFile repo.toLocalRepository entry.fileNode entry.path)
  | .remove path => liftRepo (changeDisk (·.removeFile path))
  | .setHead commitId => modify ({ · with head := commitId })
  | .clearMarker => modify ({ · with mergeInProgress := none })

def runSteps (repo : MergeRepository) : List MergeStep → ClientM Unit
  | [] => pure ()
  | step :: rest => do
      step.run repo
      runSteps repo rest

/-- The writes of a fast-forward merge in their order: all restores come before
the removals, and HEAD moves while the marker is still there. -/
def fastForwardSteps (mergeCommit : MerkleHash) (mergeTreeResults baseTreeResults : MergeResult) :
    List MergeStep :=
  .writeMarker mergeCommit ::
    (mergeTreeResults.entriesToRestore.map MergeStep.restore ++
      (baseTreeResults.entriesToRestore.map fun entry => MergeStep.remove entry.path) ++
      [.setHead mergeCommit, .clearMarker])

/-- The checks of a fast-forward merge, which lead to its writes or stop it. -/
def planFastForward (repo : MergeRepository) (db : NodeStore) (fuel : ℕ)
    (disk : WorkingTree) (baseCommit mergeCommit : MerkleHash) (isResume : Bool) :
    Except OxenError (List MergeStep) :=
  match rootWithChildrenAndNodeHashes db [] fuel mergeCommit with
  | none => .error (.basicStr "Cannot get root node for base commit")
  | some mergeTree =>
      match rootWithChildrenAndPartialNodes db mergeTree.uniqueHashes fuel baseCommit with
      | none => .error (.basicStr "Cannot get root node for merge commit")
      | some baseTree =>
          if baseTree.panicked then .error .panicked
          else
            match walkMergeCommit repo disk (KeyedMap.insertAll ∅ baseTree.partialNodes)
                baseTree.sharedHashes isResume mergeTree.tree with
            | .error e => .error e
            | .ok mergeTreeResults =>
                if mergeTreeResults.cannotOverwriteEntries ≠ [] then
                  .error (.cannotOverwriteFiles mergeTreeResults.cannotOverwriteEntries)
                else
                  match walkBaseDir repo disk baseTree.sharedHashes mergeTreeResults.seenFiles
                      isResume baseTree.tree with
                  | .error e => .error e
                  | .ok baseTreeResults =>
                      if baseTreeResults.cannotOverwriteEntries ≠ [] then
                        .error (.cannotOverwriteFiles baseTreeResults.cannotOverwriteEntries)
                      else .ok (fastForwardSteps mergeCommit mergeTreeResults baseTreeResults)

def fastForwardMerge (repo : MergeRepository) (db : NodeStore) (fuel : ℕ)
    (baseCommit mergeCommit : MerkleHash) (checkout : LocalCheckout) :
    ClientM (Option MerkleHash) := do
  if baseCommit = mergeCommit then
    return none
  if !checkout.writesToDisk then
    return some mergeCommit
  let state ← get
  match planFastForward repo db fuel state.disk baseCommit mergeCommit checkout.isResume with
  | .error e => throw e
  | .ok steps =>
      runSteps repo steps
      return some mergeCommit

end Oxen
