import Oxen.Model.TreeNodes

/-! Fetching and pulling. What the remote answers and how the work on the files of
a merge ends is given. -/

namespace Oxen

open Commits

structure FetchOpts where
  branch : String := CommitWriter.defaultBranchName
  all : Bool := false
  shouldUpdateBranchHead : Bool := true
  missingFiles : Bool := false

inductive FetchError where
  | remote
  | remoteBranchNotFound (name : String)
  | basicStr (message : String)
  | revision (error : RevisionError)
  | ancestor (error : AncestorError)
  | branch (error : ServerError)
  | mergeInProgressMismatch (expected found : String)
  | merge
  | commit (error : CommitError)
  | revisionNotFound (revision : String)
  | upstreamMergeConflict
  | checkout

/-- What the remote answers to the fetch of a branch: the commit id of the branch,
the tree nodes, the indexes of the commits, and whether all of the nodes and all
of the files came through. -/
structure FetchAnswer where
  commitId : Except FetchError (Option String)
  archive : TreeNodes.Archive := []
  keyed : ∀ entry ∈ archive, entry.2.node.hash = entry.1
  dirHashes : (MerkleHash → DirHashes) → MerkleHash → DirHashes := id
  treesSynced : Bool := true
  entriesPulled : Bool := true

namespace Fetch

/-- HEAD is at the commit of the remote branch. -/
def isHead (head : Option CommitNode) (commitId : String) : Bool :=
  head.any fun head => head.hash.display = commitId

/-- There is nothing to fetch. -/
def isUpToDate (head : Option CommitNode) (opts : FetchOpts) (commitId : String) : Bool :=
  isHead head commitId && !opts.missingFiles && !opts.all

/-- Without `all` the trees of HEAD are there. -/
def skipsTrees (head : Option CommitNode) (opts : FetchOpts) (commitId : String) : Bool :=
  isHead head commitId && !opts.all

def syncTrees (s : Repository) (answer : FetchAnswer) : Repository :=
  { s with
    db := TreeNodes.unpackNodes s.db answer.archive
    dirHashes := answer.dirHashes s.dirHashes }

/-- The files of the fetched commit. With `all` those of the whole history are
looked for, and in remote mode none. -/
def pullEntries (remoteMode : Bool) (db : NodeStore) (opts : FetchOpts) (commitId : String)
    (answer : FetchAnswer) : Except FetchError Unit :=
  if remoteMode then .ok ()
  else if opts.all then if answer.entriesPulled then .ok () else .error .remote
  else
    match MerkleHash.parse commitId with
    | none => .error (.revision (.invalidHash commitId))
    | some hash =>
        if (db hash).isNone then .error (.basicStr "Commit node not found")
        else if answer.entriesPulled then .ok ()
        else .error .remote

def updateBranch (s : Repository) (name commitId : String) : Repository × Except FetchError Unit :=
  match Branches.update s.db s.refs name commitId with
  | .ok refs => ({ s with refs }, .ok ())
  | .error e => (s, .error (.branch e))

/-- The nodes, the files and, if that is asked for, the branch. -/
def fetchCommit (remoteMode : Bool) (s : Repository) (head : Option CommitNode) (opts : FetchOpts)
    (commitId : String) (answer : FetchAnswer) : Repository × Except FetchError Branch :=
  let synced := if skipsTrees head opts commitId then s else syncTrees s answer
  if !skipsTrees head opts commitId && !answer.treesSynced then (synced, .error .remote)
  else
    match pullEntries remoteMode synced.db opts commitId answer with
    | .error e => (synced, .error e)
    | .ok () =>
        if opts.shouldUpdateBranchHead then
          let (updated, result) := updateBranch synced opts.branch commitId
          (updated, result.map fun _ => ⟨opts.branch, commitId⟩)
        else (synced, .ok ⟨opts.branch, commitId⟩)

def fetchRemoteBranch (remoteMode : Bool) (s : Repository) (opts : FetchOpts)
    (answer : FetchAnswer) : Repository × Except FetchError Branch :=
  match answer.commitId with
  | .error e => (s, .error e)
  | .ok none => (s, .error (.remoteBranchNotFound opts.branch))
  | .ok (some commitId) =>
      match headCommitMaybe s.db s.refs with
      | .error e => (s, .error (.revision e))
      | .ok head =>
          if isUpToDate head opts commitId then
            (RepoOp.apply s (.setBranchCommitId opts.branch commitId), .ok ⟨opts.branch, commitId⟩)
          else fetchCommit remoteMode s head opts commitId answer

/-- What the remote answers to a fetch of all branches. It has one branch of a name. -/
structure RemoteAnswers where
  branches : Except FetchError (List Branch)
  nodup : ∀ remoteBranches, branches = .ok remoteBranches → (remoteBranches.map (·.name)).Nodup
  answer : String → FetchAnswer
  postFetch : Except FetchError Unit := .ok ()

def fetchNext (remoteMode : Bool) (opts : FetchOpts) (answer : String → FetchAnswer)
    (s : Repository × List (Except FetchError Branch)) (next : Branch × Bool) :
    Repository × List (Except FetchError Branch) :=
  let (repo, result) := fetchRemoteBranch remoteMode s.1
    { opts with branch := next.1.name, shouldUpdateBranchHead := next.2 } (answer next.1.name)
  (repo, s.2 ++ [result])

/-- The remote branches, those with a local branch of the same name first. Only the
others are to update a branch. -/
def branchesToProcess (refs : Refs) (remoteBranches : List Branch) : List (Branch × Bool) :=
  (remoteBranches.filter (·.name ∈ refs.branches)).map (·, false) ++
    (remoteBranches.filter (·.name ∉ refs.branches)).map (·, true)

/-- A branch that fails does not keep the others from being fetched. -/
def fetchAll (remoteMode : Bool) (s : Repository) (opts : FetchOpts) (remote : RemoteAnswers) :
    Repository × Except FetchError (List Branch) :=
  match remote.branches with
  | .error e => (s, .error e)
  | .ok remoteBranches =>
      let (repo, results) := (branchesToProcess s.refs remoteBranches).foldl
        (fetchNext remoteMode opts remote.answer) (s, [])
      (repo, remote.postFetch.bind fun _ => results.mapM fun result => result)

end Fetch

namespace ClientMerge

/-- How the work on the files of a merge ends. A merge without conflicts stages the
merged files. -/
inductive FilesOutcome where
  | failed
  | conflicts
  | merged (staged : StagedDb)

/-- The order in which its hash maps yield their keys, the marker of a merge that was
interrupted, the outcome for the files, whether the marker can be removed again and which
operation of the commit fails. -/
structure Client where
  iter : List MerkleHash → List MerkleHash := id
  marker : Option String := none
  files : FilesOutcome
  clearsMarker : Bool := true
  failing : ℕ
  left : Residue := .nothing

/-- Moves the branch that HEAD names, or HEAD itself. -/
def setHeadCommitId (refs : Refs) (commitId : String) : Refs :=
  match refs.headFile with
  | none => refs
  | some head =>
      if head ∈ refs.branches then { refs with branches := refs.branches.insert head commitId }
      else { refs with headFile := some commitId }

def fastForwardMerge (s : Repository) (base merge : CommitNode) (client : Client) :
    Repository × Except FetchError (Option MerkleHash) :=
  if base.hash = merge.hash then (s, .ok none)
  else
    match client.files with
    | .merged _ =>
        ({ s with refs := setHeadCommitId s.refs merge.hash.display },
          if client.clearsMarker then .ok (some merge.hash) else .error .merge)
    | _ => (s, .error .merge)

/-- The merge commit of the staged files. -/
def createMergeCommit (env : CommitEnv) (s : Repository) (base merge : CommitNode)
    (staged : StagedDb) : Plan :=
  CommitWriter.commitWithCfg
    { env with newCommit :=
        { env.newCommit with
          message := "Merge commit " ++ merge.hash.display ++ " into " ++ base.hash.display } }
    { s with staged } (some [base.hash.display, merge.hash.display])

def threeWayMerge (env : CommitEnv) (s : Repository) (base merge : CommitNode) (client : Client) :
    Repository × Except FetchError (Option MerkleHash) :=
  match client.files with
  | .failed => (s, .error .merge)
  | .conflicts =>
      ({ s with mergeHead := some merge.hash.display, origHead := some base.hash.display }, .ok none)
  | .merged staged =>
      let (repo, result) :=
        (createMergeCommit env s base merge staged).carryOut { s with staged } client.failing
          client.left
      (repo, (result.map fun commit => some commit.hash).mapError .commit)

/-- Merges a commit into the checkout of another one, given their common ancestor. -/
def mergeCommits (env : CommitEnv) (s : Repository) (lca : Option MerkleHash)
    (base merge : CommitNode) (client : Client) :
    Repository × Except FetchError (Option MerkleHash) :=
  if client.marker.any (· ≠ merge.hash.display) then
    (s, .error (.mergeInProgressMismatch (client.marker.getD "") merge.hash.display))
  else if lca = some base.hash then fastForwardMerge s base merge client
  else threeWayMerge env s base merge client

end ClientMerge

/-- A pull, with what it meets on the remote and on the client. -/
structure PullCall where
  env : CommitEnv
  remoteMode : Bool := false
  opts : FetchOpts
  prePull : Except FetchError Unit := .ok ()
  answer : FetchAnswer
  client : ClientMerge.Client
  checksOut : Bool := true
  postPull : Except FetchError Unit := .ok ()

namespace PullCall

open Fetch ClientMerge

variable (call : PullCall)

/-- The fetch of a pull leaves the branch alone. -/
def fetch (s : Repository) : Repository × Except FetchError Branch :=
  fetchRemoteBranch call.remoteMode s { call.opts with shouldUpdateBranchHead := false } call.answer

/-- Without a HEAD commit the branch is checked out. -/
def checkout (s : Repository) (newHead : CommitNode) : Repository × Except FetchError Unit :=
  match updateBranch s call.opts.branch newHead.hash.display with
  | (s, .error e) => (s, .error e)
  | (s, .ok ()) =>
      if CommitWriter.currentBranch s.refs = some call.opts.branch then (s, call.postPull)
      else if call.checksOut then
        (RepoOp.apply s (.setHead call.opts.branch), call.postPull)
      else (s, .error .checkout)

/-- Merges into HEAD, and then sets the branch. -/
def merge (s : Repository) (lca : Option MerkleHash) (previousHead newHead : CommitNode) :
    Repository × Except FetchError Unit :=
  match mergeCommits call.env s lca previousHead newHead call.client with
  | (s, .error e) => (s, .error e)
  | (s, .ok none) => (s, .error .upstreamMergeConflict)
  | (s, .ok (some commitId)) =>
      match updateBranch s call.opts.branch commitId.display with
      | (s, .error e) => (s, .error e)
      | (s, .ok ()) => (s, call.postPull)

/-- Brings the fetched commit into HEAD. -/
def integrate (fuel : ℕ) (s : Repository) (previousHead : Option CommitNode) (newHead : CommitNode) :
    Option (Repository × Except FetchError Unit) :=
  match previousHead with
  | none => some (call.checkout s newHead)
  | some previousHead =>
      if previousHead.hash = newHead.hash then some (s, call.postPull)
      else
        match Merge.lowestCommonAncestorFromCommits call.client.iter s.db s.refs fuel previousHead
          newHead with
        | none => none
        | some (.error e) => some (s, .error (.ancestor e))
        | some (.ok lca) => some (call.merge s lca previousHead newHead)

def pullRemoteBranch (s : Repository) (fuel : ℕ) : Option (Repository × Except FetchError Unit) :=
  match call.prePull with
  | .error e => some (s, .error e)
  | .ok () =>
      match headCommitMaybe s.db s.refs with
      | .error e => some (s, .error (.revision e))
      | .ok previousHead =>
          match call.fetch s with
          | (s, .error e) => some (s, .error e)
          | (s, .ok remoteBranch) =>
              match Revisions.get s.db s.refs remoteBranch.commitId with
              | .error e => some (s, .error (.revision e))
              | .ok none => some (s, .error (.revisionNotFound remoteBranch.commitId))
              | .ok (some newHead) => call.integrate fuel s previousHead newHead

end PullCall

/-- A fetch of all branches with the default options, or a pull of one. -/
inductive RefsCall where
  | fetchAll (remoteMode : Bool) (remote : Fetch.RemoteAnswers)
  | pullRemoteBranch (call : PullCall)

/-- The repository after a call, whether it fails or not. -/
def RefsCall.run (s : Repository) (fuel : ℕ) : RefsCall → Option Repository
  | fetchAll remoteMode remote => some (Fetch.fetchAll remoteMode s {} remote).1
  | pullRemoteBranch call => (call.pullRemoteBranch s fuel).map Prod.fst

end Oxen
