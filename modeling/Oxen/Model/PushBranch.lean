import Oxen.Model.CommitHistory
import Oxen.Model.Server

/-! Pushing a branch: what the clients send and how the server moves the branch. -/

namespace Oxen

open Commits

/-- A push of one branch, with the commits and refs of the local repository. -/
structure Push where
  db : NodeStore
  refs : Refs := {}
  branch : String
  commit : CommitNode
  force : Bool := false

inductive PushError where
  | revision (error : RevisionError)
  | server (error : ServerError)
  | behind (branch remoteCommitId : String)
  | failedToPushCommits
deriving DecidableEq, Repr

/-- A push between two of its messages. -/
inductive PushState where
  | getBranch (push : Push)
  | pushCommits (push : Push) (newBranch : Bool)
  | updateBranch (push : Push)
  | createBranch (push : Push)
  | putNewBranch (push : Push)
  | returned (push : Push) (result : Except PushError Unit)

def PushState.push : PushState → Push
  | getBranch push => push
  | pushCommits push _ => push
  | updateBranch push => push
  | createBranch push => push
  | putNewBranch push => push
  | returned push _ => push

/-- What the client does with the remote branch it was told. It compares the
remote head with the history of its own commit. The options `missing_files` and
`revalidate`, with which it sends files again, are not set. -/
def Push.check (push : Push) (fuel : ℕ) (cache : CountDb) (remote : Option String) :
    Option PushState :=
  match remote with
  | none =>
      (listFrom push.db push.refs fuel cache push.commit.hash.display).map fun
        | (.ok _, _) => .pushCommits push true
        | (.error e, _) => .returned push (.error (.revision e))
  | some remoteId =>
      if remoteId = push.commit.hash.display then some (.returned push (.ok ()))
      else
        (listFrom push.db push.refs fuel cache push.commit.hash.display).map fun
          | (.ok commits, _) =>
              if commits.any (·.hash.display = remoteId) ∨ push.force then .pushCommits push false
              else .returned push (.error (.behind push.branch remoteId))
          | (.error e, _) => .returned push (.error (.revision e))

/-- One step of a push. The server handles each message at once, but creates a
branch in two steps; an upload may fail after any of its nodes. -/
inductive PushStep : Repository → PushState → Repository → PushState → Prop
  | getBranch (s : Repository) (push : Push) (cache : CountDb) (next : PushState)
      (hcheck : Fuel.Returns
        (fun fuel => push.check fuel cache (s.refs.branches.lookup push.branch)) next) :
      PushStep s (.getBranch push) s next
  | pushCommits (s : Repository) (push : Push) (newBranch : Bool) (nodes : List NodeDb)
      (hnodes : ∀ node ∈ nodes, push.db node.node.hash = some node) :
      PushStep s (.pushCommits push newBranch) { s with db := nodes.foldl NodeStore.write s.db }
        (if newBranch then .createBranch push else .updateBranch push)
  | failedToPush (s : Repository) (push : Push) (newBranch : Bool) (nodes : List NodeDb)
      (hnodes : ∀ node ∈ nodes, push.db node.node.hash = some node) :
      PushStep s (.pushCommits push newBranch) { s with db := nodes.foldl NodeStore.write s.db }
        (.returned push (.error .failedToPushCommits))
  | updateBranch (s : Repository) (push : Push) (refs : Refs)
      (hupdate : Branches.update s.db s.refs push.branch push.commit.hash.display = .ok refs) :
      PushStep s (.updateBranch push) { s with refs := refs } (.returned push (.ok ()))
  | updateError (s : Repository) (push : Push) (e : ServerError)
      (hupdate : Branches.update s.db s.refs push.branch push.commit.hash.display = .error e) :
      PushStep s (.updateBranch push) s (.returned push (.error (.server e)))
  | createBranch (s : Repository) (push : Push)
      (hcheck : Branches.checkCreate s.db s.refs push.branch push.commit.hash.display = .ok ()) :
      PushStep s (.createBranch push) s (.putNewBranch push)
  | createError (s : Repository) (push : Push) (e : ServerError)
      (hcheck : Branches.checkCreate s.db s.refs push.branch push.commit.hash.display = .error e) :
      PushStep s (.createBranch push) s (.returned push (.error (.server e)))
  | putNewBranch (s : Repository) (push : Push) :
      PushStep s (.putNewBranch push)
        (RepoOp.apply s (.setBranchCommitId push.branch push.commit.hash.display))
        (.returned push (.ok ()))

/-- The remote repository and the pushes to it. -/
structure Remote where
  repo : Repository
  pushes : ℕ → PushState

/-- One of the pushes takes a step. -/
inductive RemoteStep : Remote → Remote → Prop
  | step (s : Remote) (i : ℕ) (repo' : Repository) (push' : PushState)
      (hstep : PushStep s.repo (s.pushes i) repo' push') :
      RemoteStep s ⟨repo', Function.update s.pushes i push'⟩

end Oxen
