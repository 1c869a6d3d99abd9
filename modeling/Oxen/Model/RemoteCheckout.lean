import Oxen.Model.Checkout
import Oxen.Model.Server

/-! Branch checkouts in a remote-mode repository, whose working tree and version
store hold only some of the files of a commit. -/

namespace Oxen

/-- In a remote-mode repository only files whose version is present are restored. -/
def restorePresentFiles (repo : LocalRepository) : List FileToRestore → RepoM Unit
  | [] => pure ()
  | fileToRestore :: rest => do
      let state ← get
      if (state.versions fileToRestore.fileNode.hash).isSome then
        restoreFile repo fileToRestore.fileNode fileToRestore.path
      restorePresentFiles repo rest

namespace RemoteMode

/-- The repository with the parts of it that no operation here changes. -/
structure Env where
  repo : LocalRepository
  db : NodeStore
  dirHashes : MerkleHash → DirHashes
  fuel : ℕ

/-- The files of a clone and its refs. -/
structure Clone extends RepoState where
  refs : Refs

abbrev CloneM := EStateM OxenError Clone

/-- Runs a step that changes files only. -/
def onFiles (action : RepoM Unit) : CloneM Unit := do
  let clone ← get
  match action.run clone.toRepoState with
  | .ok _ files => set { clone with toRepoState := files }
  | .error e files =>
      set { clone with toRepoState := files }
      throw e

/-- The root directory of a commit, found through its directory hashes. -/
def readRootDir (env : Env) (commitId : MerkleHash) : Except OxenError LoadedNode :=
  match (env.dirHashes commitId).lookup [] with
  | none =>
      .error (.basicStr ("Merkle tree hash not found for file: '' in commit: '"
        ++ commitId.display ++ "'"))
  | some hash =>
      match env.db hash with
      | none =>
          .error (.basicStr ("Merkle tree hash not found for dir: '' in commit: \""
            ++ commitId.display ++ "\""))
      | some record => .ok (loadChildren env.db [] env.fuel record.node)

def checkoutSubtrees (env : Env) (toCommit : MerkleHash) (maybeFromCommit : Option MerkleHash) :
    RepoM Unit := do
  match readRootDir env toCommit with
  | .error e => throw e
  | .ok targetRoot =>
      let fromRoot := maybeFromCommit.bind
        (rootWithChildrenAndPartialNodes env.db targetRoot.uniqueHashes env.fuel)
      if fromRoot.any (·.panicked) then
        throw .panicked
      else
        let commonNodes := (fromRoot.map (·.sharedHashes)).getD []
        let partialNodes := KeyedMap.insertAll ∅ ((fromRoot.map (·.partialNodes)).getD [])
        let state ← get
        match walkTargetTree
            { repo := env.repo, disk := state.disk, commonNodes, partialNodes, onConflict := .abort }
            targetRoot.tree with
        | .error e => throw e
        | .ok results =>
            if results.cannotOverwriteEntries ≠ [] then
              throw (.cannotOverwriteFiles results.cannotOverwriteEntries)
            applyDirReplacements env.repo results.dirReplacements
            if let some fromRoot := fromRoot then
              cleanupRemovedFiles env.repo fromRoot.tree commonNodes results.seenPaths .abort
            if env.repo.isRemoteMode then
              restorePresentFiles env.repo results.filesToRestore
            else
              restoreFiles env.repo results.filesToRestore

/-- The commit HEAD stands on, if any. -/
def headCommitMaybe (env : Env) (refs : Refs) : Option CommitNode :=
  (refs.headCommitId env.db).bind (Commits.getById env.db)

/-- Checks out a branch. Names of no branch are left out. -/
def checkout (env : Env) (name : String) : CloneM Unit := do
  let clone ← get
  match clone.refs.branches.lookup name with
  | none => throw (.basicStr ("Revision not found: " ++ name))
  | some commitId =>
      if clone.refs.headFile = some name then
        return
      match Commits.getById env.db commitId with
      | none => throw (.basicStr ("Revision not found: " ++ name))
      | some commit =>
          onFiles (checkoutSubtrees env commit.hash
            ((headCommitMaybe env clone.refs).map (·.hash)))
          modify fun clone => { clone with refs := { clone.refs with headFile := some name } }

/-- Stores what the working tree has at the path of each file of HEAD under the
hash that HEAD records for it. -/
def storeWorkingFiles : List (PathBuf × PartialNode) → RepoM Unit
  | [] => pure ()
  | (path, node) :: rest => do
      let state ← get
      if state.disk.pathExists path then
        storeVersionFromPath node.hash path
      storeWorkingFiles rest

/-- Creates the local branch and then, with the given outcome, the remote one
and its workspace. -/
def createCheckoutBranch (env : Env) (remote : Except OxenError Unit) (name : String) :
    CloneM Unit := do
  let clone ← get
  match Commits.headCommit env.db clone.refs with
  | .error _ => throw (.basicStr "HEAD not found.")
  | .ok headCommit =>
      if Branches.isInvalidBranchName name then
        throw (.basicStr ("'" ++ name ++ "' is not a valid branch name."))
      if name ∈ clone.refs.branches then
        throw (.basicStr ("Branch already exists: " ++ name))
      let branches := clone.refs.branches.insert name headCommit.hash.display
      set { clone with refs := { clone.refs with branches } }
      match remote with
      | .error e => throw e
      | .ok _ => pure ()

/-- The files of HEAD by path, as `create_checkout` collects them. -/
def headNodes (env : Env) (refs : Refs) : KeyedMap.Map PathBuf PartialNode :=
  KeyedMap.insertAll ∅ (((headCommitMaybe env refs).bind fun headCommit =>
    rootWithChildrenAndPartialNodes env.db [] env.fuel headCommit.hash).elim [] (·.partialNodes))

/-- Checks out a new branch at HEAD. The hash map with the files of HEAD is read
in the given order. -/
def createCheckout (env : Env) (nodes : List (PathBuf × PartialNode))
    (remote : Except OxenError Unit) (branchName : String) : CloneM Unit := do
  let clone ← get
  match Commits.headCommit env.db clone.refs with
  | .error _ => throw (.basicStr "HEAD not found.")
  | .ok headCommit =>
      if (rootWithChildrenAndPartialNodes env.db [] env.fuel headCommit.hash).any (·.panicked) then
        throw .panicked
      else
        onFiles (storeWorkingFiles nodes)
        createCheckoutBranch env remote branchName
        checkout env branchName

/-- One file that a restore downloads, on its own or as part of a directory. -/
structure Download where
  path : PathBuf
  bytes : Content
  mtime : FileTime
  inDir : Bool

/-- Writes a downloaded file. A file asked for by its own path is read back and
stored under the hash of its bytes. -/
def restoreDownload (repo : LocalRepository) (download : Download) : RepoM Unit := do
  changeDisk (·.createDirAll [] download.path.dropLast)
  changeDisk (·.writeFile download.path download.bytes download.mtime)
  if !download.inDir then
    storeVersionFromPath (repo.xxh3 download.bytes) download.path

def restoreDownloads (repo : LocalRepository) : List Download → RepoM Unit
  | [] => pure ()
  | download :: rest => do
      restoreDownload repo download
      restoreDownloads repo rest

/-- What can happen to a clone. An edit leaves any working tree, with files
changed or removed. -/
inductive Op where
  | edit (disk : WorkingTree)
  | restore (downloads : List Download)
  | createCheckout (nodes : List (PathBuf × PartialNode)) (remote : Except OxenError Unit)
      (branchName : String)
  | checkout (name : String)

def Op.perform (env : Env) : Op → CloneM Unit
  | .edit disk => modify fun clone => { clone with disk }
  | .restore downloads => onFiles (restoreDownloads env.repo downloads)
  | .createCheckout nodes remote branchName => RemoteMode.createCheckout env nodes remote branchName
  | .checkout name => RemoteMode.checkout env name

end RemoteMode

end Oxen
