import Oxen.Lib.KeyedMap
import Oxen.Lib.StackWalk
import Oxen.Model.WorkingTree

/-! Checkout of a commit into the working directory. -/

namespace Oxen

abbrev VersionStore := MerkleHash → Option Content

/-- The part of a repository that a checkout changes. -/
structure RepoState where
  disk : WorkingTree
  versions : VersionStore

abbrev RepoM := EStateM OxenError RepoState

def changeDisk (change : WorkingTree → Except OxenError WorkingTree) : RepoM Unit := do
  let state ← get
  match change state.disk with
  | .ok disk => set { state with disk }
  | .error e => throw e

/-- Keeps the stored content when the version exists already. -/
def VersionStore.store (versions : VersionStore) (hash : MerkleHash) (content : Content) :
    VersionStore :=
  if (versions hash).isSome then versions else Function.update versions hash (some content)

/-- A directory opens like a file but cannot be read, so it leaves a version
without content. Nothing is read when the version exists already. -/
def storeVersionFromPath (hash : MerkleHash) (path : PathBuf) : RepoM Unit := do
  let state ← get
  match state.disk.lookup path with
  | some (.file content _) => set { state with versions := state.versions.store hash content }
  | some .dir =>
      if (state.versions hash).isNone then
        set { state with versions := state.versions.store hash [] }
        throw (.fileError path)
  | none => throw (.fileError path)

/-- Writes the stored version to the path unless size and mtime match already. A
time before the epoch on disk does no harm here. -/
def restoreFile (repo : LocalRepository) (fileNode : FileNode) (path : PathBuf) : RepoM Unit := do
  let state ← get
  if !fileNode.hasTime then
    throw .panicked
  else if (repo.metadata state.disk path).any fun metadata =>
      metadata.len = fileNode.numBytes ∧
        repo.withinTolerance metadata.mtime fileNode.lastModified then
    return
  else
    changeDisk (·.createDirAll [] path.dropLast)
    match state.versions fileNode.hash with
    | none => throw (.fileError path)
    | some content => changeDisk (·.writeFile path content fileNode.lastModified)

inductive OnConflict where
  | abort
  | overwrite
deriving DecidableEq, Repr

def OnConflict.isAbort : OnConflict → Bool
  | .abort => true
  | .overwrite => false

structure FileToRestore where
  fileNode : FileNode
  path : PathBuf
deriving DecidableEq

/-- A non-directory of the working tree where the target has a directory. -/
structure DirReplacement where
  fullPath : PathBuf
  fromHash : Option MerkleHash
deriving DecidableEq

/-- What a walk of the target tree found, with the file paths it has seen. -/
structure CheckoutResult where
  filesToRestore : List FileToRestore := []
  cannotOverwriteEntries : List PathBuf := []
  dirReplacements : List DirReplacement := []
  seenPaths : List PathBuf := []

def CheckoutResult.append (xs ys : CheckoutResult) : CheckoutResult where
  filesToRestore := xs.filesToRestore ++ ys.filesToRestore
  cannotOverwriteEntries := xs.cannotOverwriteEntries ++ ys.cannotOverwriteEntries
  dirReplacements := xs.dirReplacements ++ ys.dirReplacements
  seenPaths := xs.seenPaths ++ ys.seenPaths

/-- What the walk of the target tree reads. -/
structure CheckoutContext where
  repo : LocalRepository
  disk : WorkingTree
  commonNodes : List MerkleHash
  partialNodes : KeyedMap.Map PathBuf PartialNode
  onConflict : OnConflict

def getRootDir : MerkleTreeNode → Except OxenError MerkleTreeNode
  | .mk (.commit _) [.mk (.directory d) cs] => .ok (.mk (.directory d) cs)
  | .mk (.commit _) [_] =>
      .error (.basicStr "The child of a commit node should be a directory")
  | .mk (.commit _) cs =>
      .error (.basicStr
        ("Commit node should have exactly one child (root directory) but got: "
          ++ toString cs.length))
  | _ => .error (.basicStr "Expected a commit node")

inductive FileVerdict where
  | keep
  | restore
  | conflict
deriving DecidableEq, Repr

/-- The working copy has the time and size of the from tree's file, if it has one. -/
def matchesPartialNode (repo : LocalRepository) (metadata : Metadata) :
    Option PartialNode → Except OxenError Bool
  | none => .ok false
  | some node => repo.statMatches metadata node.lastModified node.size

/-- Compares one file of the target tree with the disk and the from tree. -/
def targetFileVerdict (ctx : CheckoutContext) (filePath : PathBuf) (fileNode : FileNode) :
    Except OxenError FileVerdict :=
  let diverged := if ctx.onConflict.isAbort then FileVerdict.conflict else .restore
  let fromNode := ctx.partialNodes.lookup filePath
  match ctx.repo.metadata ctx.disk filePath with
  | none =>
      match fromNode with
      -- the user deleted a file that both trees have with the same content
      | some node => .ok (if node.hash = fileNode.hash then .keep else diverged)
      | none => .ok .restore
  | some metadata => do
      let targetTime ← fileNode.computeTime
      if ← ctx.repo.statMatches metadata targetTime fileNode.numBytes then
        pure .keep
      else if ← matchesPartialNode ctx.repo metadata fromNode then
        pure .restore
      else
        let workingHash ← ctx.repo.getHashGivenMetadata ctx.disk filePath
        if workingHash = fileNode.hash then pure .keep
        else if fromNode.map (·.hash) = some workingHash then pure .restore
        else pure diverged

/-- Records the verdict on one file of the target tree. -/
def visitTargetFile (ctx : CheckoutContext) (filePath : PathBuf) (fileNode : FileNode) :
    Except OxenError CheckoutResult :=
  (targetFileVerdict ctx filePath fileNode).map fun verdict =>
    { filesToRestore := if verdict = .restore then [⟨fileNode, filePath⟩] else []
      cannotOverwriteEntries := if verdict = .conflict then [filePath] else []
      seenPaths := [filePath] }

/-- The working copy at a directory's path is the file the from tree has there. -/
def matchesFromNode (ctx : CheckoutContext) (path : PathBuf) (node : PartialNode) :
    Except OxenError Bool :=
  match ctx.repo.metadata ctx.disk path with
  | none => .error (.fileError path)
  | some metadata => do
      if ← ctx.repo.statMatches metadata node.lastModified node.size then
        pure true
      else
        let workingHash ← ctx.repo.getHashGivenMetadata ctx.disk path
        pure (workingHash = node.hash)

inductive DirVerdict where
  | clear
  | replace (fromHash : Option MerkleHash)
  | conflict
deriving DecidableEq

/-- Looks for a non-directory at the path of a directory of the target tree. -/
def targetDirVerdict (ctx : CheckoutContext) (dirPath : PathBuf) : Except OxenError DirVerdict :=
  if ctx.disk.pathExists dirPath ∧ !ctx.disk.isDir dirPath then
    match ctx.partialNodes.lookup dirPath with
    | none => .ok (.replace none)
    | some node =>
        (matchesFromNode ctx dirPath node).map fun (unmodified : Bool) =>
          if !unmodified ∧ ctx.onConflict.isAbort then .conflict else .replace (some node.hash)
  else .ok .clear

/-- The files and directories of a directory that the walk still has to visit. -/
def pushTargetChildren (ctx : CheckoutContext) (dirPath : PathBuf) (hash : MerkleHash)
    (vnodes : List MerkleTreeNode) : List (PathBuf × MerkleTreeNode) :=
  if hash ∈ ctx.commonNodes ∧ ctx.disk.isDir dirPath then []
  else
    (vnodes.filter fun vnode => !ctx.disk.isDir dirPath ∨ vnode.hash ∉ ctx.commonNodes).flatMap
      fun vnode => vnode.children.map (dirPath, ·)

/-- One pop of the target walk: what it finds and what it pushes. -/
def visitTarget (ctx : CheckoutContext) :
    PathBuf × MerkleTreeNode → Except OxenError (CheckoutResult × List (PathBuf × MerkleTreeNode))
  | (path, .mk (.file f) _) => (visitTargetFile ctx (path ++ f.name) f).map (·, [])
  | (path, .mk (.directory d) vnodes) =>
      let dirPath := path ++ d.name
      let children := pushTargetChildren ctx dirPath d.hash vnodes
      (targetDirVerdict ctx dirPath).map fun verdict =>
        match verdict with
        | .clear => ({}, children)
        | .replace fromHash => ({ dirReplacements := [⟨dirPath, fromHash⟩] }, children)
        -- the checkout will abort, so nothing below the path is looked at
        | .conflict => ({ cannotOverwriteEntries := [dirPath] }, [])
  | (path, .mk (.commit c) cs) =>
      (getRootDir (.mk (.commit c) cs)).map fun root => ({}, [(path, root)])
  | (_, .mk (.vnode _) _) =>
      .error (.basicStr "Got an unexpected node type during checkout")

def walkTargetTree (ctx : CheckoutContext) (targetRoot : MerkleTreeNode) :
    Except OxenError CheckoutResult :=
  (StackWalk.walk (visitTarget ctx) targetRoot.size [([], targetRoot)]).map
    (List.foldl CheckoutResult.append {})

def applyDirReplacement (repo : LocalRepository) (replacement : DirReplacement) : RepoM Unit := do
  let state ← get
  if state.disk.pathExists replacement.fullPath then
    if repo.isRemoteMode then
      if let some fromHash := replacement.fromHash then
        storeVersionFromPath fromHash replacement.fullPath
    changeDisk (·.removeFile replacement.fullPath)

def applyDirReplacements (repo : LocalRepository) : List DirReplacement → RepoM Unit
  | [] => pure ()
  | replacement :: rest => do
      applyDirReplacement repo replacement
      applyDirReplacements repo rest

/-- Paths the cleanup pass might remove, children before their directory. -/
structure CleanupCandidates where
  pathsToRemove : List PathBuf := []
  filesToStore : List (MerkleHash × PathBuf) := []
  cannotOverwriteEntries : List PathBuf := []

def CleanupCandidates.append (xs ys : CleanupCandidates) : CleanupCandidates where
  pathsToRemove := xs.pathsToRemove ++ ys.pathsToRemove
  filesToStore := xs.filesToStore ++ ys.filesToStore
  cannotOverwriteEntries := xs.cannotOverwriteEntries ++ ys.cannotOverwriteEntries

inductive WalkFromItem where
  | visit (path : PathBuf) (node : MerkleTreeNode)
  | finalizeDir (dirPath : PathBuf)

/-- What the walk of the from tree reads. -/
structure CleanupContext where
  repo : LocalRepository
  disk : WorkingTree
  commonNodes : List MerkleHash
  seenPaths : List PathBuf
  onConflict : OnConflict

/-- Decides what to do with one file of the from tree. -/
def visitFromFile (ctx : CleanupContext) (filePath : PathBuf) (fileNode : FileNode) :
    Except OxenError CleanupCandidates :=
  if filePath ∉ ctx.seenPaths then
    if ctx.disk.pathExists filePath then
      (ctx.repo.isModifiedFromNode ctx.disk filePath fileNode).map fun (modifiedLocally : Bool) =>
        if ctx.onConflict.isAbort ∧ modifiedLocally then
          { cannotOverwriteEntries := [filePath] }
        else
          { pathsToRemove := [filePath]
            filesToStore :=
              if ctx.repo.isRemoteMode ∧ !modifiedLocally then [(fileNode.hash, filePath)]
              else [] }
    else .ok {}
  else if ctx.disk.pathExists filePath ∧ ctx.repo.isRemoteMode then
    (ctx.repo.isModifiedFromNode ctx.disk filePath fileNode).map fun (modifiedLocally : Bool) =>
      { filesToStore := if modifiedLocally then [] else [(fileNode.hash, filePath)] }
  else .ok {}

/-- One pop of the from walk. A directory's removal is pushed before its
children, so that it is popped after them. -/
def visitFrom (ctx : CleanupContext) :
    WalkFromItem → Except OxenError (CleanupCandidates × List WalkFromItem)
  | .visit path (.mk (.file f) _) => (visitFromFile ctx (path ++ f.name) f).map (·, [])
  | .visit path (.mk (.directory d) vnodes) =>
      if d.hash ∈ ctx.commonNodes then .ok ({}, [])
      else
        .ok ({}, .finalizeDir (path ++ d.name) ::
          (vnodes.filter (·.hash ∉ ctx.commonNodes)).flatMap fun vnode =>
            vnode.children.map (.visit (path ++ d.name)))
  | .visit path (.mk (.commit c) cs) =>
      (getRootDir (.mk (.commit c) cs)).map fun root => ({}, [.visit path root])
  | .visit _ (.mk (.vnode _) _) => .ok ({}, [])
  | .finalizeDir dirPath =>
      .ok ({ pathsToRemove := if ctx.disk.pathExists dirPath then [dirPath] else [] }, [])

def walkFromTree (ctx : CleanupContext) (fromRoot : MerkleTreeNode) :
    Except OxenError CleanupCandidates :=
  (StackWalk.walk (visitFrom ctx) (2 * fromRoot.size) [.visit [] fromRoot]).map
    (List.foldl CleanupCandidates.append {})

/-- Removes a file, or a directory that is empty by now. -/
def removePath (path : PathBuf) : RepoM Unit := do
  let state ← get
  if h : state.disk.lookup path ≠ some .dir ∨ state.disk.isEmptyDir path then
    set { state with disk := state.disk.erase path h }

def removePaths : List PathBuf → RepoM Unit
  | [] => pure ()
  | path :: rest => do
      removePath path
      removePaths rest

def storeFiles : List (MerkleHash × PathBuf) → RepoM Unit
  | [] => pure ()
  | (hash, path) :: rest => do
      storeVersionFromPath hash path
      storeFiles rest

def cleanupRemovedFiles (repo : LocalRepository) (fromNode : MerkleTreeNode)
    (commonNodes : List MerkleHash) (seenPaths : List PathBuf) (onConflict : OnConflict) :
    RepoM Unit := do
  let state ← get
  match walkFromTree { repo, disk := state.disk, commonNodes, seenPaths, onConflict } fromNode with
  | .error e => throw e
  | .ok candidates =>
      if candidates.cannotOverwriteEntries ≠ [] then
        throw (.cannotOverwriteFiles candidates.cannotOverwriteEntries)
      if repo.isRemoteMode then
        storeFiles candidates.filesToStore
      removePaths candidates.pathsToRemove

def restoreFiles (repo : LocalRepository) : List FileToRestore → RepoM Unit
  | [] => pure ()
  | fileToRestore :: rest => do
      restoreFile repo fileToRestore.fileNode fileToRestore.path
      restoreFiles repo rest

/-- Brings the working tree into line with `toCommit`, with `maybeFromCommit` as
a hint about the current state of the disk. -/
def setWorkingRepoToCommit (repo : LocalRepository) (db : NodeStore) (fuel : ℕ)
    (toCommit : MerkleHash) (maybeFromCommit : Option MerkleHash) (onConflict : OnConflict) :
    RepoM Unit := do
  match rootWithChildrenAndNodeHashes db [] fuel toCommit with
  | none => throw (.basicStr "Cannot get root node for target commit")
  | some target =>
      if maybeFromCommit = some toCommit then
        return
      let fromTree := maybeFromCommit.bind
        (rootWithChildrenAndPartialNodes db target.uniqueHashes fuel)
      if fromTree.any (·.panicked) then
        throw .panicked
      else
        let commonNodes := (fromTree.map (·.sharedHashes)).getD []
        let partialNodes := KeyedMap.insertAll ∅ ((fromTree.map (·.partialNodes)).getD [])
        let state ← get
        match walkTargetTree { repo, disk := state.disk, commonNodes, partialNodes, onConflict }
            target.tree with
        | .error e => throw e
        | .ok results =>
            if results.cannotOverwriteEntries ≠ [] then
              throw (.cannotOverwriteFiles results.cannotOverwriteEntries)
            applyDirReplacements repo results.dirReplacements
            if let some fromTree := fromTree then
              cleanupRemovedFiles repo fromTree.tree commonNodes results.seenPaths onConflict
            restoreFiles repo results.filesToRestore

end Oxen
