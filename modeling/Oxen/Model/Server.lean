import Oxen.Lib.Fuel
import Oxen.Model.CommitWriter
import Oxen.Model.TreeSearch

/-! Merges and workspace commits on the server. -/

namespace Oxen

open Commits MerkleTreeNode

structure Branch where
  name : String
  commitId : String
deriving DecidableEq, Repr

/-- How the search for a common ancestor fails. -/
inductive AncestorError where
  | revision (error : RevisionError)
  /-- An unwrap of the first commit of an empty history. -/
  | noHistory
deriving DecidableEq, Repr

inductive ServerError where
  | revision (error : RevisionError)
  | ancestor (error : AncestorError)
  | branchNotFound (name : String)
  | commitIdDoesNotExist (commitId : String)
  | resourceNotFound (commitId : String)
  | upstreamMergeConflict (merge base : String) (conflicts : ℕ)
  | workspaceBehind
deriving DecidableEq, Repr

namespace Branches

def getByName (refs : Refs) (name : String) : Except ServerError Branch :=
  match refs.branches.lookup name with
  | some commitId => .ok { name, commitId }
  | none => .error (.branchNotFound name)

/-- Substrings that no branch name contains. -/
def invalidSubstrings : List String :=
  ["..", "~", "^", ":", "?", "[", "*", "\\", " ", "@\x7b"]

def isInvalidBranchName (name : String) : Bool :=
  invalidSubstrings.any (fun s => s.toList <:+: name.toList) || name = "@" ||
    name.toList.getLast? = some '.'

/-- What creating a branch checks before it is put. -/
def checkCreate (db : NodeStore) (refs : Refs) (name commitId : String) : Except ServerError Unit :=
  if (getById db commitId).isNone then .error (.commitIdDoesNotExist commitId)
  else if isInvalidBranchName name then
    .error (.revision (.basicStr ("'" ++ name ++ "' is not a valid branch name.")))
  else if name ∈ refs.branches then
    .error (.revision (.basicStr ("Branch already exists: " ++ name)))
  else .ok ()

/-- Points a branch to a commit that exists, whatever it pointed to before. -/
def update (db : NodeStore) (refs : Refs) (name commitId : String) : Except ServerError Refs :=
  if (getById db commitId).isNone then .error (.commitIdDoesNotExist commitId)
  else if name ∈ refs.branches then .ok { refs with branches := refs.branches.insert name commitId }
  else
    (checkCreate db refs name commitId).map fun _ =>
      { refs with branches := refs.branches.insert name commitId }

end Branches

namespace Commits

/-- The commit with an id or at the head of a branch. -/
def getCommitByRef (db : NodeStore) (refs : Refs) (refName : String) :
    Except ServerError CommitNode :=
  match (getById db refName).or ((refs.branches.lookup refName).bind (getById db)) with
  | some commit => .ok commit
  | none => .error (.revision (.basicStr "Commit not found"))

/-- Visits a commit again when it is found at a smaller depth. -/
def listRecursiveWithDepth (db : NodeStore) :
    ℕ → List (CommitNode × ℕ) → KeyedMap.Map MerkleHash ℕ → Option (KeyedMap.Map MerkleHash ℕ)
  | 0, _, _ => none
  | _ + 1, [], results => some results
  | fuel + 1, (commit, depth) :: stack, results =>
      if (results.lookup commit.hash).any (· ≤ depth) then
        listRecursiveWithDepth db fuel stack results
      else
        listRecursiveWithDepth db fuel
          (((commit.parentIds.filterMap (getByHash db)).map (·, depth + 1)).reverse ++ stack)
          (results.insert commit.hash depth)

def listFromWithDepth (db : NodeStore) (refs : Refs) (fuel : ℕ) (revision : String) :
    Option (Except RevisionError (KeyedMap.Map MerkleHash ℕ)) :=
  match Revisions.get db refs revision with
  | .error e => some (.error e)
  | .ok none => some (.ok ∅)
  | .ok (some commit) => (listRecursiveWithDepth db fuel [(commit, 0)] ∅).map .ok

end Commits

namespace Merge

/-- Of the commits of the merge history that are in the base history, the first of
the smallest depth there. -/
def closest (baseDepths : KeyedMap.Map MerkleHash ℕ) (commits : List MerkleHash) :
    Option (MerkleHash × ℕ) :=
  commits.foldl
    (fun lca commit =>
      match baseDepths.lookup commit, lca with
      | some depth, some (_, minDepth) => if depth < minDepth then some (commit, depth) else lca
      | some depth, none => some (commit, depth)
      | none, _ => lca)
    none

/-- `iter` is the order in which a hash map yields its keys. -/
def lowestCommonAncestorFromCommits (iter : List MerkleHash → List MerkleHash) (db : NodeStore)
    (refs : Refs) (fuel : ℕ) (baseCommit mergeCommit : CommitNode) :
    Option (Except AncestorError (Option MerkleHash)) :=
  match listFromWithDepth db refs fuel baseCommit.hash.display,
      listFromWithDepth db refs fuel mergeCommit.hash.display with
  | some (.ok commitDepthsFromHead), some (.ok commitDepthsFromMerge) =>
      if commitDepthsFromHead = ∅ then some (.error .noHistory)
      else
        some (.ok ((closest commitDepthsFromHead (iter commitDepthsFromMerge.keys)).map Prod.fst))
  | some (.error e), _ => some (.error (.revision e))
  | some (.ok _), some (.error e) => some (.error (.revision e))
  | _, _ => none

/-- The entries of a merge under their parents. All ancestors get a key. -/
def mergeDirEntries (entries : List (PathBuf × FileNode × StagedEntryStatus)) : DirEntries :=
  entries.foldl
    (fun dirEntries (path, fileNode, status) =>
      let parent := path.dropLast
      let dirEntries := dirEntries.insert parent ((dirEntries.lookup parent).getD [] ++
        [{ status, node := .file { fileNode with name := path } }])
      path.dropLast.inits.foldr (fun p m => KeyedMap.insertNew m p []) dirEntries)
    ∅

/-- What a merge decides to do before it writes. -/
inductive MergeDecision where
  | fastForward
  | threeWay (entries : List (PathBuf × FileNode × StagedEntryStatus))
deriving DecidableEq

/-- Fast-forwards when the base is the common ancestor, and analyses the trees
otherwise. -/
def decide (host : Host) (iter : List MerkleHash → List MerkleHash) (s : Repository) (fuel : ℕ)
    (base merge : CommitNode) (noAncestor : String) : Option (Except ServerError MergeDecision) :=
  match lowestCommonAncestorFromCommits iter s.db s.refs fuel base merge with
  | none => none
  | some (.error e) => some (.error (.ancestor e))
  | some (.ok none) => some (.error (.revision (.basicStr noAncestor)))
  | some (.ok (some lca)) =>
      if lca = base.hash then some (.ok .fastForward)
      else
        match findMergeConflicts host s.db s.dirHashes fuel
          { lca := some lca, base := base.hash, merge := merge.hash } with
        | none => some (.error (.revision (.basicStr "Cannot get root node for commit")))
        | some analysis =>
            if analysis.conflicts ≠ [] then
              some (.error (.upstreamMergeConflict merge.hash.display base.hash.display
                analysis.conflicts.length))
            else if analysis.entries = [] then
              some (.error (.revision (.basicStr "No changes to commit")))
            else some (.ok (.threeWay analysis.entries))

/-- The merge commit, onto the tree of the base commit. -/
def serverThreeWayMerge (env : CommitEnv) (s : Repository) (base merge : CommitNode)
    (entries : List (PathBuf × FileNode × StagedEntryStatus)) : Plan :=
  CommitWriter.commitDirEntriesWithParents
    { env with newCommit :=
        { env.newCommit with
          message := "Merge commit " ++ merge.hash.display ++ " into " ++ base.hash.display } }
    s [base.hash.display, merge.hash.display] (mergeDirEntries entries) base.hash.display

end Merge

namespace Workspaces

/-- The staged files that differ between the workspace commit and the branch. -/
def listConflicts (db : NodeStore) (fuel : ℕ) (workspaceCommit : CommitNode)
    (dirEntries : DirEntries) (branch : Branch) : Except ServerError (List PathBuf) :=
  let notFound := ServerError.revision (.revisionNotFound branch.commitId)
  match getById db branch.commitId with
  | none => .error notFound
  | some branchCommit =>
      if branch.commitId = workspaceCommit.hash.display then .ok []
      else
        match rootWithChildrenAndNodeHashes db [] fuel branchCommit.hash,
          rootWithChildrenAndNodeHashes db [] fuel workspaceCommit.hash with
        | none, _ => .error notFound
        | some _, none =>
            .error (.revision (.revisionNotFound workspaceCommit.hash.display))
        | some branchTree, some workspaceTree =>
            .ok ((CommitWriter.allStaged dirEntries).filterMap fun entry =>
              match entry.node with
              | .file _ =>
                  match branchTree.tree.getByPath entry.path,
                    workspaceTree.tree.getByPath entry.path with
                  | some branchNode, some workspaceNode =>
                      if branchNode.hash = workspaceNode.hash then none else some entry.path
                  | _, _ => none
              | _ => none)

end Workspaces

/-- A call on the server, between two of its steps. A call that is about to set a
ref knows which commits its own commit builds on. -/
inductive ServerCall where
  | workspaceCommit (workspace : CommitNode) (dirEntries : DirEntries) (branch : String)
  | workspaceCreate (workspace : CommitNode) (dirEntries : DirEntries) (branch : String)
  | workspaceCheck (workspace : CommitNode) (dirEntries : DirEntries) (branch : Branch)
  | workspaceWrite (dirEntries : DirEntries) (branch : String)
  | mergeIntoBase (base merge : String)
  | mergeBranches (base merge : Branch)
  | mergeCommitIntoBaseOnBranch (baseId mergeId : String) (branch : String)
  | mergeCheck (base merge : CommitNode) (branch : String) (noAncestor : String)
  | mergeWrite (base merge : CommitNode) (branch : String)
      (entries : List (PathBuf × FileNode × StagedEntryStatus))
  | setBranch (branch : String) (commit : CommitNode) (builtOn : List MerkleHash)
  | updateBranch (branch : String) (commit : CommitNode) (builtOn : List MerkleHash)
  | returned (branch : String) (result : Except ServerError CommitNode)

namespace ServerCall

def ofResult (branch : String) (result : Except ServerError ServerCall) : ServerCall :=
  match result with
  | .ok call => call
  | .error e => returned branch (.error e)

/-- The steps that only read: the head of the branch and the checks. After its
check a workspace commit exports the data frames among its staged entries. -/
def read (host : Host) (exportTabular : DirEntries → Except ServerError DirEntries)
    (iter : List MerkleHash → List MerkleHash) (s : Repository) (fuel : ℕ) :
    ServerCall → Option ServerCall
  | workspaceCommit workspace dirEntries name =>
      match Branches.getByName s.refs name with
      | .ok branch => some (workspaceCheck workspace dirEntries branch)
      | .error _ => some (ofResult name
          ((Branches.checkCreate s.db s.refs name workspace.hash.display).map fun _ =>
            workspaceCreate workspace dirEntries name))
  | workspaceCheck workspace dirEntries branch =>
      match Workspaces.listConflicts s.db fuel workspace dirEntries branch with
      | .error e => some (returned branch.name (.error e))
      | .ok [] => some (ofResult branch.name
          ((exportTabular dirEntries).map fun dirEntries => workspaceWrite dirEntries branch.name))
      | .ok _ => some (returned branch.name (.error .workspaceBehind))
  | mergeIntoBase base merge =>
      match Branches.getByName s.refs base, Branches.getByName s.refs merge with
      | .ok baseBranch, .ok mergeBranch => some (mergeBranches baseBranch mergeBranch)
      | .error e, _ => some (returned base (.error e))
      | .ok _, .error e => some (returned base (.error e))
  | mergeBranches base merge =>
      if merge.commitId = base.commitId then
        some (returned base.name (.error (.revision (.basicStr "No changes to merge"))))
      else
        match getCommitByRef s.db s.refs base.commitId, getCommitByRef s.db s.refs merge.commitId with
        | .ok baseCommit, .ok mergeCommit =>
            some (mergeCheck baseCommit mergeCommit base.name
              "Cannot merge branches with no common ancestor")
        | .error e, _ => some (returned base.name (.error e))
        | .ok _, .error e => some (returned base.name (.error e))
  | mergeCommitIntoBaseOnBranch baseId mergeId name =>
      match Branches.getByName s.refs name, getById s.db mergeId, getById s.db baseId with
      | .ok _, some merge, some base =>
          some (mergeCheck base merge name "Cannot merge commits with no common ancestor")
      | .error e, _, _ => some (returned name (.error e))
      | .ok _, none, _ => some (returned name (.error (.resourceNotFound mergeId)))
      | .ok _, some _, none => some (returned name (.error (.resourceNotFound baseId)))
  | mergeCheck base merge name noAncestor =>
      (Merge.decide host iter s fuel base merge noAncestor).map fun decision =>
        ofResult name (decision.map fun
          | .fastForward => updateBranch name merge [merge.hash]
          | .threeWay entries => mergeWrite base merge name entries)
  | _ => none

end ServerCall

/-- What a call does next once its commit is planned. -/
def Plan.next (plan : Plan) (branch : String)
    (set : String → CommitNode → List MerkleHash → ServerCall) : ServerCall :=
  match plan.result with
  | .ok commit => set branch commit commit.parentIds
  | .error e => .returned branch (.error (.revision e))

/-- Ids are free of collisions: no id stands for two commits with different
parents, or for a commit and another node. -/
def CollisionFree (db : NodeStore) (ops : List RepoOp) : Prop :=
  ∃ meaning : MerkleHash → Option (List MerkleHash),
    (∀ id commit, getByHash db id = some commit → meaning id = some commit.parentIds) ∧
    ∀ node parentId, .openReadWrite node parentId ∈ ops →
      meaning node.hash = node.commit?.map (·.parentIds)

open ServerCall in
/-- One step of a call: it reads the head of its branch, checks for conflicts,
writes its commit or sets the ref of its branch. -/
inductive CallStep (host : Host) (exportTabular : DirEntries → Except ServerError DirEntries) :
    Repository → ServerCall → Repository → ServerCall → Prop
  | read (s : Repository) (call call' : ServerCall) (iter : List MerkleHash → List MerkleHash)
      (hiter : ∀ ids, (iter ids).Perm ids)
      (hread : Fuel.Returns (fun fuel => call.read host exportTabular iter s fuel) call') :
      CallStep host exportTabular s call s call'
  | create (s : Repository) (workspace : CommitNode) (dirEntries : DirEntries) (name : String) :
      CallStep host exportTabular s (workspaceCreate workspace dirEntries name)
        (RepoOp.apply s (.setBranchCommitId name workspace.hash.display))
        (workspaceCheck workspace dirEntries ⟨name, workspace.hash.display⟩)
  | workspaceWrite (s : Repository) (dirEntries : DirEntries) (name : String) (env : CommitEnv)
      (plan : Plan) (henv : env.toHost = host)
      (hplan : plan = CommitWriter.commitDirEntries env s dirEntries name)
      (hfree : CollisionFree s.db plan.ops) :
      CallStep host exportTabular s (workspaceWrite dirEntries name) (s.run plan.ops)
        (plan.next name setBranch)
  | mergeWrite (s : Repository) (base merge : CommitNode) (name : String)
      (entries : List (PathBuf × FileNode × StagedEntryStatus)) (env : CommitEnv)
      (plan : Plan) (henv : env.toHost = host)
      (hplan : plan = Merge.serverThreeWayMerge env s base merge entries)
      (hfree : CollisionFree s.db plan.ops) :
      CallStep host exportTabular s (mergeWrite base merge name entries) (s.run plan.ops)
        (plan.next name updateBranch)
  | set (s : Repository) (name : String) (commit : CommitNode) (builtOn : List MerkleHash) :
      CallStep host exportTabular s (setBranch name commit builtOn)
        (RepoOp.apply s (.setBranchCommitId name commit.hash.display))
        (returned name (.ok commit))
  | update (s : Repository) (name : String) (commit : CommitNode) (builtOn : List MerkleHash)
      (refs : Refs) (hupdate : Branches.update s.db s.refs name commit.hash.display = .ok refs) :
      CallStep host exportTabular s (updateBranch name commit builtOn) { s with refs := refs }
        (returned name (.ok commit))
  | updateError (s : Repository) (name : String) (commit : CommitNode) (builtOn : List MerkleHash)
      (e : ServerError) (hupdate : Branches.update s.db s.refs name commit.hash.display = .error e) :
      CallStep host exportTabular s (updateBranch name commit builtOn) s
        (returned name (.error e))

/-- A repository and the calls that are in progress on it. -/
structure Server where
  repo : Repository
  calls : ℕ → ServerCall

/-- One of the calls takes a step. -/
inductive ServerStep (host : Host) (exportTabular : DirEntries → Except ServerError DirEntries) :
    Server → Server → Prop
  | step (s : Server) (i : ℕ) (repo' : Repository) (call' : ServerCall)
      (hstep : CallStep host exportTabular s.repo (s.calls i) repo' call') :
      ServerStep host exportTabular s ⟨repo', Function.update s.calls i call'⟩

end Oxen
