import Oxen.Model.VNodes

/-! The commit writer. A commit is planned from the state of the repository and
carried out as a sequence of operations, each of which may fail. -/

namespace Oxen

/-- The staged database. -/
abbrev StagedDb := KeyedMap.Map PathBuf StagedMerkleTreeNode

/-- What a commit reads and writes: the node database, the `dir_hashes` index of
every commit, the refs, the files of a merge in progress and the staged entries. -/
structure Repository where
  db : NodeStore := fun _ => none
  dirHashes : MerkleHash → DirHashes := fun _ => ∅
  refs : Refs := {}
  mergeHead : Option String := none
  origHead : Option String := none
  staged : StagedDb := ∅

inductive RepoOp where
  | removeMergeHead
  | removeOrigHead
  | openReadWrite (node : EMerkleTreeNode) (parentId : Option MerkleHash)
  | addChild (nodeId : MerkleHash) (child : EMerkleTreeNode)
  | putDirHash (commitId : MerkleHash) (path : PathBuf) (hash : MerkleHash)
  | deleteDirHash (commitId : MerkleHash) (path : PathBuf)
  | removeStagedDb
  | setHead (name : String)
  | setBranchCommitId (name : String) (commitId : String)
deriving DecidableEq

def RepoOp.apply (s : Repository) : RepoOp → Repository
  | removeMergeHead => { s with mergeHead := none }
  | removeOrigHead => { s with origHead := none }
  | openReadWrite node parentId => { s with db := s.db.write { node, parentId } }
  | addChild nodeId child =>
      { s with
        db := Function.update s.db nodeId
          ((s.db nodeId).map fun record => { record with children := record.children ++ [child] }) }
  | putDirHash commitId path hash =>
      { s with
        dirHashes := Function.update s.dirHashes commitId ((s.dirHashes commitId).insert path hash) }
  | deleteDirHash commitId path =>
      { s with
        dirHashes := Function.update s.dirHashes commitId ((s.dirHashes commitId).erase path) }
  | removeStagedDb => { s with staged := ∅ }
  | setHead name => { s with refs := { s.refs with headFile := some name } }
  | setBranchCommitId name commitId =>
      { s with refs := { s.refs with branches := s.refs.branches.insert name commitId } }

def Repository.run (s : Repository) (ops : List RepoOp) : Repository :=
  ops.foldl RepoOp.apply s

/-- The operations of a command and what it returns once they are done. -/
structure Plan where
  ops : List RepoOp := []
  result : Except RevisionError CommitNode

inductive CommitError where
  | revision (error : RevisionError)
  | failed (op : RepoOp)
deriving DecidableEq

/-- What an operation leaves when it fails: the file of the node that it writes may end early,
or the file of its children, and a removal may have got as far as some of the staged entries. -/
inductive Residue where
  | nothing
  | cutNode
  | cutChildren
  | unstaged (lost : List PathBuf)
deriving DecidableEq

/-- A node whose own file ends early is read as one without children. -/
def RepoOp.leave (s : Repository) : RepoOp → Residue → Repository
  | openReadWrite node _, .cutNode => { s with db := Function.update s.db node.hash none }
  | addChild nodeId _, .cutNode => { s with db := Function.update s.db nodeId none }
  | removeStagedDb, .unstaged lost =>
      { s with staged := lost.foldl (fun db path => db.erase path) s.staged }
  | _, _ => s

/-- Carries a plan out until its operation number `failing` fails. -/
def Plan.carryOut (plan : Plan) (s : Repository) (failing : ℕ) (left : Residue) :
    Repository × Except CommitError CommitNode :=
  match plan.ops[failing]? with
  | some op => (op.leave (s.run (plan.ops.take failing)) left, .error (.failed op))
  | none => (s.run plan.ops, plan.result.mapError .revision)

structure NewCommit where
  parentIds : List String
  body : NewCommitBody
  timestamp : ℕ

/-- Ids have no characters that would be escaped. -/
def debugIds (ids : List String) : String :=
  "[" ++ ", ".intercalate (ids.map fun id => "\"" ++ id ++ "\"") ++ "]"

/-- Eight bytes, least significant first. -/
def toLeBytes64 (n : ℕ) : List UInt8 :=
  (List.range 8).map fun i => UInt8.ofNat (n / 256 ^ i)

/-- Timestamps count in whole seconds here. -/
def computeCommitId (host : Host) (c : NewCommit) : MerkleHash :=
  host.xxh3 (utf8 "commit" ++ utf8 (debugIds c.parentIds) ++ utf8 c.body.message
    ++ utf8 c.body.author ++ utf8 c.body.email ++ toLeBytes64 (c.timestamp / 1000000000))

namespace Commits

def headCommitMaybe (db : NodeStore) (refs : Refs) : Except RevisionError (Option CommitNode) :=
  match refs.headCommitId db with
  | none => .ok none
  | some commitId =>
      match MerkleHash.parse commitId with
      | none => .error (.invalidHash commitId)
      | some hash => .ok (getByHash db hash)

end Commits

namespace CommitWriter

open Commits

section Tree

variable (host : Host) (db : NodeStore) (commitId : MerkleHash) (entries : VNodeEntries)
  (oldDir : PathBuf → Option DirNode) (oldFile : PathBuf → Option FileNode)

/-- Writes the virtual nodes of a directory and everything below it. Directories
without entries of their own are taken over from the previous tree. Every
directory entered has entries of its own, so their number is enough fuel. -/
def rCreateDirNode : ℕ → PathBuf → MerkleHash → List RepoOp
  | 0, _, _ => []
  | fuel + 1, path, dirDb =>
      match entries.lookup path with
      | none => []
      | some (vnodes, _) => vnodes.flatMap fun vnode =>
          let vnodeObj : EMerkleTreeNode :=
            .vnode { hash := vnode.id, numEntries := vnode.entries.length }
          .addChild dirDb vnodeObj :: .openReadWrite vnodeObj (some dirDb) ::
            vnode.entries.flatMap fun entry =>
              match entry.node with
              | .directory node =>
                  if entry.path ∈ entries then
                    let dirNode := computeDirNode host commitId entries oldDir oldFile entry.path
                    .addChild vnode.id (.directory dirNode) ::
                      .openReadWrite (.directory dirNode) (some vnode.id) ::
                      rCreateDirNode fuel entry.path dirNode.hash ++
                      [.putDirHash commitId entry.path dirNode.hash]
                  else
                    match db node.hash with
                    | some { node := .directory oldDirNode, .. } =>
                        [.addChild vnode.id (.directory oldDirNode),
                          .putDirHash commitId entry.path oldDirNode.hash]
                    | _ => []
              | .file fileNode =>
                  [.addChild vnode.id (.file { fileNode with
                    name := leafName fileNode.name
                    lastCommitId :=
                      if entry.status = .unmodified then fileNode.lastCommitId else commitId })]
              | _ => []

/-- Removed directories have to leave the index that was copied from the
previous commit. -/
def cacheInvalidateDirHashDb (removed : List StagedMerkleTreeNode) : List RepoOp :=
  removed.filterMap fun child =>
    match child.status, child.node with
    | .removed, .directory d => some (.deleteDirHash commitId d.name)
    | _, _ => none

def writeCommitEntries : List RepoOp :=
  let dirNode := computeDirNode host commitId entries oldDir oldFile []
  .addChild commitId (.directory dirNode) :: .putDirHash commitId [] dirNode.hash ::
    .openReadWrite (.directory dirNode) (some commitId) ::
    rCreateDirNode host db commitId entries oldDir oldFile entries.keys.length [] dirNode.hash ++
    cacheInvalidateDirHashDb commitId ((KeyedMap.toList entries).flatMap fun entry => entry.2.2)

end Tree

variable (env : CommitEnv) (s : Repository)

def dirNode? (db : NodeStore) (hash : MerkleHash) : Option DirNode :=
  match db hash with
  | some { node := .directory d, .. } => some d
  | _ => none

/-- The commit's index starts as a copy of the index it builds upon. -/
def openCommit (dirHashes : DirHashes) (node : CommitNode) (parentId : Option MerkleHash) :
    List RepoOp :=
  (KeyedMap.toList dirHashes).map (fun (path, hash) => .putDirHash node.hash path hash) ++
    [.openReadWrite (.commit node) parentId]

/-- Totals are read through the index that the commit builds upon, old files from
the tree of HEAD, and both only if there is a HEAD commit. What is read lies below
the directory to write, and nothing below it is written before. -/
def writeTree (headCommit : Option CommitNode) (dirHashes : DirHashes) (dirEntries : DirEntries)
    (node : CommitNode) (parentId : Option MerkleHash) : List RepoOp :=
  openCommit dirHashes node parentId ++
    writeCommitEntries env.toHost s.db node.hash (splitIntoVNodes env s.db dirHashes dirEntries)
      (fun path => headCommit.bind fun _ => (dirHashes.lookup path).bind (dirNode? s.db))
      (fun path => headCommit.bind fun head =>
        CommitMerkleTree.getFileByPath env.toHost s.db (s.dirHashes head.hash) path)

/-- The parents of a merge in progress are read from its files, which are removed. -/
def createCommitData (parentCommits : List String) :
    Except RevisionError (List RepoOp × NewCommit) :=
  match s.mergeHead, s.origHead with
  | none, _ => .ok ([], { parentIds := parentCommits, body := env.newCommit, timestamp := env.timestamp })
  | some _, none => .error (.fileRead "ORIG_HEAD")
  | some mergeCommitId, some headCommitId =>
      .ok ([.removeMergeHead, .removeOrigHead],
        { parentIds := [mergeCommitId, headCommitId]
          body := env.newCommit
          timestamp := env.timestamp })

def commitNode (commitId : MerkleHash) (parentIds : List MerkleHash) : CommitNode where
  hash := commitId
  parentIds := parentIds
  message := env.newCommit.message
  author := env.newCommit.author
  email := env.newCommit.email
  timestamp := env.timestamp

def indexOf (commit : Option CommitNode) : DirHashes :=
  (commit.map fun c => s.dirHashes c.hash).getD ∅

def allStaged (dirEntries : DirEntries) : List StagedMerkleTreeNode :=
  (KeyedMap.toList dirEntries).flatMap Prod.snd

/-- Commits onto HEAD. -/
def commitDirEntriesNew (dirEntries : DirEntries) : Plan :=
  match headCommitMaybe s.db s.refs with
  | .error e => { result := .error e }
  | .ok head =>
      match createCommitData env s (head.toList.map fun c => c.hash.display) with
      | .error e => { result := .error e }
      | .ok (cleanup, newCommit) =>
          let commitId := computeCommitId env.toHost newCommit
          match newCommit.parentIds.mapM MerkleHash.parse with
          | none => { ops := cleanup, result := .error (.invalidHash (debugIds newCommit.parentIds)) }
          | some parentIds =>
              let node := commitNode env commitId parentIds
              { ops := cleanup ++
                  writeTree env s head (indexOf s head) dirEntries node (head.map (·.hash)) ++
                  cacheInvalidateDirHashDb commitId (allStaged dirEntries)
                result := .ok node }

/-- The commit that a target names, if HEAD exists. -/
def targetCommit (target : String) : Except RevisionError (Option CommitNode) :=
  if s.refs.headFile.isSome then Revisions.get s.db s.refs target else .ok none

/-- Commits onto a target with the given parents; parents that are not stored are
left out. -/
def commitDirEntriesWithParents (parentCommits : List String) (dirEntries : DirEntries)
    (target : String) : Plan :=
  match targetCommit s target with
  | .error e => { result := .error e }
  | .ok onto =>
      match createCommitData env s parentCommits with
      | .error e => { result := .error e }
      | .ok (cleanup, newCommit) =>
          let commitId := computeCommitId env.toHost newCommit
          let node := commitNode env commitId
            ((newCommit.parentIds.filterMap (getById s.db)).map (·.hash))
          match headCommitMaybe s.db s.refs with
          | .error e =>
              { ops := cleanup ++ openCommit (indexOf s onto) node (onto.map (·.hash))
                result := .error e }
          | .ok head =>
              { ops := cleanup ++
                  writeTree env s head (indexOf s onto) dirEntries node (onto.map (·.hash))
                result := .ok node }

/-- Commits onto a branch. -/
def commitDirEntries (dirEntries : DirEntries) (targetBranch : String) : Plan :=
  if dirEntries = ∅ then { result := .error (.basicStr "No changes to commit") }
  else
    match targetCommit s targetBranch with
    | .error e => { result := .error e }
    | .ok onto =>
        let parentIds := onto.toList.map (·.hash)
        let commitId := computeCommitId env.toHost
          { parentIds := parentIds.map MerkleHash.display
            body := env.newCommit
            timestamp := env.timestamp }
        let node := commitNode env commitId parentIds
        match headCommitMaybe s.db s.refs with
        | .error e => { ops := openCommit (indexOf s onto) node none, result := .error e }
        | .ok head =>
            { ops := writeTree env s head (indexOf s onto) dirEntries node none ++
                cacheInvalidateDirHashDb commitId (allStaged dirEntries)
              result := .ok node }

/-- Every staged entry is put under its parent; a directory gets a key of its own. -/
def readStagedEntries (staged : StagedDb) : DirEntries :=
  (KeyedMap.toList staged).foldl
    (fun dirEntries (path, entry) =>
      let dirEntries :=
        match entry.node with
        | .directory _ => KeyedMap.insertNew dirEntries path []
        | _ => dirEntries
      if path = [] then dirEntries
      else dirEntries.insert path.dropLast ((dirEntries.lookup path.dropLast).getD [] ++ [entry]))
    ∅

def defaultBranchName : String := "main"

def currentBranch (refs : Refs) : Option String :=
  refs.headFile.filter (· ∈ refs.branches)

/-- Moves the branch that HEAD names, or HEAD itself, to the new commit. -/
def updateRefs (refs : Refs) (commitId : String) : List RepoOp :=
  match refs.headFile with
  | none =>
      [.setHead defaultBranchName, .setBranchCommitId defaultBranchName commitId,
        .setBranchCommitId defaultBranchName commitId]
  | some head =>
      if head ∈ refs.branches then [.setBranchCommitId head commitId] else [.setHead commitId]

/-- Commits what is staged, with the given parents if there are any. -/
def commitWithCfg (parentIds : Option (List String)) : Plan :=
  let dirEntries := readStagedEntries s.staged
  if dirEntries = ∅ then { result := .error (.basicStr "No changes to commit") }
  else
    let plan := match parentIds with
      | some parentIds => commitDirEntriesWithParents env s parentIds dirEntries
          ((currentBranch s.refs).getD defaultBranchName)
      | none => commitDirEntriesNew env s dirEntries
    match plan.result with
    | .error e => { ops := plan.ops, result := .error e }
    | .ok commit =>
        { ops := plan.ops ++ .removeStagedDb :: updateRefs s.refs commit.hash.display
          result := .ok commit }

end CommitWriter

end Oxen
