import Oxen.Model.CommitHistory
import Oxen.Model.CommitMerkleTree
import Oxen.Model.Server

/-! The tree nodes that the server packs for a range of commits. -/

namespace Oxen

open Commits

namespace TreeNodes

/-- The containers of the commit's tree that are not among the known ones. A tree
that can not be read adds none. -/
def readDepthFromPathAndCollectHashes (db : NodeStore) (dirHashes : MerkleHash → DirHashes)
    (fuel : ℕ) (commit : CommitNode) (baseHashes : List MerkleHash) : List MerkleHash :=
  match (dirHashes commit.hash).lookup [] with
  | none => []
  | some nodeHash =>
      match db nodeHash with
      | none => []
      | some record => (loadChildren db baseHashes fuel record.node).uniqueHashes

/-- The hashes seen in the commits before, and the new ones among them. -/
structure Collected where
  startingNodeHashes : List MerkleHash
  newNodeHashes : List MerkleHash := []

def getNodeHashesForCommit (db : NodeStore) (dirHashes : MerkleHash → DirHashes) (fuel : ℕ)
    (s : Collected) (commit : CommitNode) : Collected :=
  let uniqueHashes :=
    readDepthFromPathAndCollectHashes db dirHashes fuel commit s.startingNodeHashes
  { startingNodeHashes := s.startingNodeHashes ++ uniqueHashes
    newNodeHashes := s.newNodeHashes ++ uniqueHashes ++ [commit.hash] }

/-- The first commit counts as known. If it is the only one, its own nodes are
returned. -/
def getNodeHashesBetweenCommits (db : NodeStore) (dirHashes : MerkleHash → DirHashes)
    (fuel : ℕ) : List CommitNode → Except RevisionError (List MerkleHash)
  | [] => .error (.basicStr "Must provide at least one commit")
  | firstCommit :: newCommits =>
      let startingNodeHashes := readDepthFromPathAndCollectHashes db dirHashes fuel firstCommit []
      if newCommits.isEmpty then .ok startingNodeHashes
      else .ok (newCommits.foldl (getNodeHashesForCommit db dirHashes fuel)
        { startingNodeHashes }).newNodeHashes

/-- The commits of the range in chronological order. -/
def getCommitList (db : NodeStore) (fuel : ℕ) (baseCommit : CommitNode) (headCommitId : String) :
    Option (Except ServerError (List CommitNode)) :=
  match getById db headCommitId with
  | none => some (.error (.resourceNotFound headCommitId))
  | some headCommit =>
      (listBetween db fuel baseCommit headCommit).map fun commits => .ok commits.reverse

/-- The node directories in an archive, by hash. -/
abbrev Archive := List (MerkleHash × NodeDb)

def compressNodes (db : NodeStore) (hashes : List MerkleHash) : Archive :=
  hashes.filterMap fun hash => (db hash).map fun record => (hash, record)

/-- The answer to a request for the nodes of `base..head`. -/
def downloadTreeNodes (db : NodeStore) (dirHashes : MerkleHash → DirHashes) (fuel : ℕ)
    (baseCommitId headCommitId : String) : Option (Except ServerError Archive) :=
  match getById db baseCommitId with
  | none => some (.error (.revision (.revisionNotFound baseCommitId)))
  | some baseCommit =>
      (getCommitList db fuel baseCommit headCommitId).map fun
        | .error e => .error e
        | .ok commits =>
            match getNodeHashesBetweenCommits db dirHashes fuel commits with
            | .error e => .error (.revision e)
            | .ok hashes => .ok (compressNodes db hashes)

/-- The client keeps the nodes that it has. -/
def unpackNodes (client : NodeStore) (archive : Archive) : NodeStore :=
  archive.foldl (fun db (hash, record) =>
    if (db hash).isSome then db else Function.update db hash (some record)) client

end TreeNodes

end Oxen
