import Oxen.Model.CommitHistory
import Oxen.Model.WorkspaceCommit

/-! Whether the staged files of a workspace can go onto a branch. -/

namespace Oxen

open Commits

namespace Merge

def noCommonAncestor (headCommit baseCommit : CommitNode) : RevisionError :=
  .basicStr ("Error: head commit \"" ++ headCommit.hash.display ++ "\" and base commit \""
    ++ baseCommit.hash.display ++ "\" have no common ancestor")

/-- The history from the common ancestor to the head. -/
def listCommitsBetweenCommits (iter : List MerkleHash → List MerkleHash) (db : NodeStore)
    (refs : Refs) (fuel : ℕ) (baseCommit headCommit : CommitNode) :
    Option (Except AncestorError (List CommitNode)) :=
  match lowestCommonAncestorFromCommits iter db refs fuel baseCommit headCommit with
  | none => none
  | some (.error e) => some (.error e)
  | some (.ok none) => some (.error (.revision (noCommonAncestor headCommit baseCommit)))
  | some (.ok (some lca)) =>
      (getByHash db lca).bind fun lca => (listBetween db fuel lca headCommit).map .ok

end Merge

namespace Workspaces

structure Mergeable where
  isMergeable : Bool
  conflicts : List String
  commits : List CommitNode

inductive MergeabilityError where
  | server (error : ServerError)
  | history (error : AncestorError)
deriving DecidableEq

def mergeability (iter : List MerkleHash → List MerkleHash) (s : Repository) (fuel : ℕ)
    (base : CommitNode) (staged : StagedDb) (branchName : String) :
    Option (Except MergeabilityError Mergeable) :=
  match Branches.getByName s.refs branchName with
  | .error e => some (.error (.server e))
  | .ok branch =>
      match getById s.db branch.commitId with
      | none => some (.error (.server (.revision (.revisionNotFound branch.commitId))))
      | some head =>
          match Merge.listCommitsBetweenCommits iter s.db s.refs fuel base head with
          | none => none
          | some (.error e) => some (.error (.history e))
          | some (.ok commits) =>
              let dirEntries := CommitWriter.readStagedEntries staged
              match listConflicts s.db fuel base dirEntries branch with
              | .error e => some (.error (.server e))
              | .ok conflicts =>
                  some (.ok
                    { isMergeable := conflicts = []
                      conflicts := conflicts.map PathBuf.display
                      commits })

end Workspaces

end Oxen
