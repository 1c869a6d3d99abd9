import Mathlib.Data.List.Sort
import Oxen.Model.PushBranch
import Oxen.Model.TreeNodes

/-! The uploads of a push: what is sent with which commit, and what the remote keeps
of it when some of the uploads fail. -/

namespace Oxen

open Commits

/-- A repository with the hashes in its version store and those of the commits that
are marked as synced. -/
structure SyncedRepository where
  repo : Repository := {}
  versions : List MerkleHash := []
  synced : List MerkleHash := []

/-- The hashes of the files below a node. -/
def MerkleTreeNode.fileHashes (t : MerkleTreeNode) : List MerkleHash :=
  (t.files []).map fun file => file.2.hash

/-- What is uploaded with one commit. -/
structure PushCommitInfo where
  uniqueDirNodes : List MerkleHash
  uniqueFileHashes : List MerkleHash

/-- The root directory of a commit, loaded down to the known hashes. -/
def getSubtreeWithUniqueChildren (s : Repository) (fuel : ℕ) (commit : CommitNode)
    (baseHashes : List MerkleHash) : Option LoadedNode :=
  ((s.dirHashes commit.hash).lookup []).bind fun nodeHash =>
    (s.db nodeHash).map fun record => loadChildren s.db baseHashes fuel record.node

/-- The hashes that were seen before, and what the commits so far are uploaded with. -/
structure MissingHashes where
  baseHashes : List MerkleHash := []
  result : List (CommitNode × PushCommitInfo) := []

def addCommit (s : Repository) (fuel : ℕ) (missing : MissingHashes) (commit : CommitNode) :
    MissingHashes :=
  match getSubtreeWithUniqueChildren s fuel commit missing.baseHashes with
  | none =>
      { missing with
        result := missing.result ++
          [(commit, { uniqueDirNodes := [commit.hash], uniqueFileHashes := [] })] }
  | some root =>
      let files := (root.tree.fileHashes.filter (· ∉ missing.baseHashes)).eraseDups
      { baseHashes := missing.baseHashes ++ root.uniqueHashes ++ files
        result := missing.result ++
          [(commit, { uniqueDirNodes := root.tree.containerHashes ++ [commit.hash]
                      uniqueFileHashes := files })] }

/-- Every commit with what is new in its tree, in the order the commits are looked at:
from the last one to the first one. -/
def getCommitMissingHashes (s : Repository) (fuel : ℕ) (latestRemoteCommit : Option CommitNode)
    (commits : List CommitNode) : List (CommitNode × PushCommitInfo) :=
  let baseHashes :=
    match latestRemoteCommit.bind fun commit => getSubtreeWithUniqueChildren s fuel commit [] with
    | none => []
    | some root => root.uniqueHashes ++ root.tree.fileHashes
  (commits.reverse.foldl (addCommit s fuel) { baseHashes }).result

/-- A request of an upload. -/
inductive PushRequest where
  | storeVersion (hash : MerkleHash)
  | createNode (hash : MerkleHash) (record : NodeDb)
  | postDirHashes (commitId : MerkleHash) (dirHashes : DirHashes)
  | markAsSynced (commitId : MerkleHash)

/-- The remote keeps the nodes that it has. -/
def PushRequest.apply (s : SyncedRepository) : PushRequest → SyncedRepository
  | storeVersion hash => { s with versions := hash :: s.versions }
  | createNode hash record =>
      { s with repo := { s.repo with db := TreeNodes.unpackNodes s.repo.db [(hash, record)] } }
  | postDirHashes commitId dirHashes =>
      { s with
        repo := { s.repo with dirHashes := Function.update s.repo.dirHashes commitId dirHashes } }
  | markAsSynced commitId => { s with synced := commitId :: s.synced }

/-- The request at which an upload fails, with what arrives of it. -/
inductive UploadFailure where
  | pushEntries (arrived : List MerkleHash)
  | createNodes (arrived : List MerkleHash)
  | postDirHashes
  | markAsSynced (arrived : Bool)

namespace UploadFailure

/-- Whether a file arrives before the upload fails. -/
def sendsVersion : Option UploadFailure → MerkleHash → Bool
  | some (pushEntries arrived), hash => hash ∈ arrived
  | _, _ => true

/-- Whether a node arrives before the upload fails. Nodes are sent after all files. -/
def sendsNode : Option UploadFailure → MerkleHash → Bool
  | some (pushEntries _), _ => false
  | some (createNodes arrived), hash => hash ∈ arrived
  | _, _ => true

def sendsDirHashes : Option UploadFailure → Bool
  | none => true
  | some (markAsSynced _) => true
  | _ => false

/-- Whether the commit is marked as synced. -/
def marks : Option UploadFailure → Bool
  | none => true
  | some (markAsSynced arrived) => arrived
  | _ => false

end UploadFailure

/-- The requests of one commit's upload that arrive. -/
def uploadRequests (s : Repository) (commit : CommitNode) (info : PushCommitInfo)
    (failure : Option UploadFailure) : List PushRequest :=
  (info.uniqueFileHashes.filter (UploadFailure.sendsVersion failure)).map .storeVersion ++
    (TreeNodes.compressNodes s.db
      (info.uniqueDirNodes.filter (UploadFailure.sendsNode failure))).map
        (fun (hash, record) => .createNode hash record) ++
    (if UploadFailure.sendsDirHashes failure then
      [.postDirHashes commit.hash (s.dirHashes commit.hash)] else []) ++
    if UploadFailure.marks failure then [.markAsSynced commit.hash] else []

/-- Which uploads of a push fail, and in which order the requests of the concurrent
uploads arrive. -/
structure Uploads where
  failure : MerkleHash → Option UploadFailure := fun _ => none
  arrive : List PushRequest → List PushRequest := id
  perm : ∀ requests, (arrive requests).Perm requests := by exact fun _ => .refl _

inductive PushCommitsError where
  | push (error : PushError)
  | cannotPushShallowClone (commitId commitMessage help : String)
deriving DecidableEq, Repr

/-- The commits that are not marked as synced, each with what it is uploaded with. -/
def commitsWithInfo (s remote : SyncedRepository) (fuel : ℕ)
    (latestRemoteCommit : Option CommitNode) (commits : List CommitNode) :
    List (CommitNode × PushCommitInfo) :=
  (getCommitMissingHashes s.repo fuel latestRemoteCommit commits).reverse.filter
    fun (commit, _) => commit.hash ∉ remote.synced

/-- Uploads every commit on its own, and reports an error when one of them failed. -/
def pushCommits (s remote : SyncedRepository) (fuel : ℕ) (uploads : Uploads)
    (latestRemoteCommit : Option CommitNode) (commits : List CommitNode) :
    Except PushCommitsError Unit × SyncedRepository :=
  let missing := commitsWithInfo s remote fuel latestRemoteCommit commits
  match missing.find? fun (_, info) => info.uniqueFileHashes.head?.any (· ∉ s.versions) with
  | some (commit, _) =>
      (.error (.cannotPushShallowClone commit.hash.display commit.message
        "Run `oxen pull --all` to fetch all data, then try again."), remote)
  | none =>
      let requests := missing.flatMap fun (commit, info) =>
        uploadRequests s.repo commit info (uploads.failure commit.hash)
      (if missing.all fun (commit, _) => (uploads.failure commit.hash).isNone then .ok ()
        else .error (.push .failedToPushCommits),
        (uploads.arrive requests).foldl PushRequest.apply remote)

/-- The head of `main`, or of the first branch, if it is stored locally. -/
def findLatestRemoteCommit (s remote : SyncedRepository) : Option CommitNode :=
  let branches := remote.repo.refs.branches
  let firstBranch := (branches.keys.insertionSort (· ≤ ·)).head?.bind branches.lookup
  ((branches.lookup "main").or firstBranch).bind (getById s.repo.db)

/-- Points the branch to the commit once all commits are pushed. -/
def thenSetBranch (setBranch : Repository → Except ServerError Refs) :
    Except PushCommitsError Unit × SyncedRepository →
      Except PushCommitsError Unit × SyncedRepository
  | (.error e, remote) => (.error e, remote)
  | (.ok _, remote) =>
      match setBranch remote.repo with
      | .error e => (.error (.push (.server e)), remote)
      | .ok refs => (.ok (), { remote with repo := { remote.repo with refs } })

def createFromCommit (branch : String) (commit : CommitNode) (s : Repository) :
    Except ServerError Refs :=
  (Branches.checkCreate s.db s.refs branch commit.hash.display).map fun _ =>
    { s.refs with branches := s.refs.branches.insert branch commit.hash.display }

def updateBranch (branch : String) (commit : CommitNode) (s : Repository) :
    Except ServerError Refs :=
  Branches.update s.db s.refs branch commit.hash.display

/-- One push of a branch, with the cached history counts that it finds. The options
`missing_files` and `revalidate` are not set. -/
structure PushOpts where
  branch : String
  force : Bool := false
  cache : CountDb := ∅
  uploads : Uploads := {}

def pushToNewBranch (s remote : SyncedRepository) (fuel : ℕ) (opts : PushOpts)
    (commit : CommitNode) : Option (Except PushCommitsError Unit × SyncedRepository) :=
  (listFrom s.repo.db s.repo.refs fuel opts.cache commit.hash.display).map fun
    | (.error e, _) => (.error (.push (.revision e)), remote)
    | (.ok history, _) =>
        thenSetBranch (createFromCommit opts.branch commit)
          (pushCommits s remote fuel opts.uploads (findLatestRemoteCommit s remote) history)

/-- A forced push lists the history a second time, with the same result. -/
def pushToExistingBranch (s remote : SyncedRepository) (fuel : ℕ) (opts : PushOpts)
    (commit : CommitNode) (remoteId : String) :
    Option (Except PushCommitsError Unit × SyncedRepository) :=
  if remoteId = commit.hash.display then some (.ok (), remote)
  else
    match listFrom s.repo.db s.repo.refs fuel opts.cache commit.hash.display with
    | none => none
    | some (.error e, _) => some (.error (.push (.revision e)), remote)
    | some (.ok commits, _) =>
        if commits.any (·.hash.display = remoteId) then
          match getById s.repo.db remoteId with
          | none => some (.error (.push (.revision (.revisionNotFound remoteId))), remote)
          | some latestRemoteCommit =>
              (listBetween s.repo.db fuel latestRemoteCommit commit).map fun between =>
                thenSetBranch (updateBranch opts.branch commit)
                  (pushCommits s remote fuel opts.uploads (some latestRemoteCommit) between.reverse)
        else if opts.force then
          some (thenSetBranch (updateBranch opts.branch commit)
            (pushCommits s remote fuel opts.uploads (findLatestRemoteCommit s remote) commits))
        else some (.error (.push (.behind opts.branch remoteId)), remote)

def pushLocalBranchToRemoteRepo (s remote : SyncedRepository) (fuel : ℕ) (opts : PushOpts)
    (localBranch : Branch) : Option (Except PushCommitsError Unit × SyncedRepository) :=
  match getById s.repo.db localBranch.commitId with
  | none =>
      some (.error (.push (.revision (.revisionNotFound localBranch.commitId))), remote)
  | some commit =>
      match remote.repo.refs.branches.lookup opts.branch with
      | some remoteId => pushToExistingBranch s remote fuel opts commit remoteId
      | none => pushToNewBranch s remote fuel opts commit

def pushRemoteBranch (s remote : SyncedRepository) (fuel : ℕ) (opts : PushOpts) :
    Option (Except PushCommitsError Unit × SyncedRepository) :=
  match Branches.getByName s.repo.refs opts.branch with
  | .error e => some (.error (.push (.server e)), remote)
  | .ok localBranch => pushLocalBranchToRemoteRepo s remote fuel opts localBranch

end Oxen
