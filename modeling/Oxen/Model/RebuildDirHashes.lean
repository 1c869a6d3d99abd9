import Oxen.Model.Prune

/-! The rebuild of the index of directories of a commit, one step after the other, beside
readers of the index. -/

namespace Oxen

namespace Fsck

/-- Only directories add to the path. -/
def nextPath (path : PathBuf) : MerkleTreeNode → PathBuf
  | .mk (.directory dir) _ => path ++ dir.name
  | _ => path

def pushDirectory (out : List (PathBuf × MerkleHash)) (path : PathBuf) :
    EMerkleTreeNode → List (PathBuf × MerkleHash)
  | .directory dir => out ++ [(path, dir.hash)]
  | _ => out

/-- Pops nodes until the stack is empty. -/
def collectDirHashesLoop : ℕ → List (MerkleTreeNode × PathBuf) → List (PathBuf × MerkleHash) →
    List (PathBuf × MerkleHash)
  | 0, _, out => out
  | _ + 1, [], out => out
  | fuel + 1, (.mk node children, path) :: stack, out =>
      collectDirHashesLoop fuel
        ((children.map fun child => (child, nextPath path child)).reverse ++ stack)
        (pushDirectory out path node)

def collectDirHashes (root : MerkleTreeNode) : List (PathBuf × MerkleHash) :=
  collectDirHashesLoop (root.size + 1) [(root, [])] []

structure RebuildDirHashesStats where
  commitId : MerkleHash
  dirsWritten : ℕ
deriving DecidableEq, Repr

/-- What lies at `dir_hashes`, `dir_hashes.new.<id>` and `dir_hashes.old.<id>`. -/
structure IndexDisk where
  dbPath : Option DirHashes := none
  newPath : Option DirHashes := none
  oldPath : Option DirHashes := none

/-- The directory that is renamed, with nothing in its place so far. -/
def rename (src dst : Option DirHashes) : Option DirHashes :=
  if dst.isSome then none else src

/-- What a rebuild does next. -/
inductive Phase where
  | idle
  | removeNew (pairs : List (PathBuf × MerkleHash))
  | removeOld (pairs : List (PathBuf × MerkleHash))
  | openNew (pairs : List (PathBuf × MerkleHash))
  | write (pairs : List (PathBuf × MerkleHash)) (successfulWrites : ℕ)
  | lock (successfulWrites : ℕ)
  | evict (successfulWrites : ℕ)
  | renameOld (successfulWrites : ℕ)
  | renameNew (hadExisting : Bool) (successfulWrites : ℕ)
  | removeReplaced (hadExisting : Bool) (successfulWrites : ℕ)
  /-- It returned `Ok`. -/
  | returned (stats : RebuildDirHashesStats)

namespace Phase

/-- The rebuild holds the barrier of the repository for writing. -/
def holdsBarrier : Phase → Bool
  | .evict _ | .renameOld _ | .renameNew _ _ | .removeReplaced _ _ => true
  | _ => false

/-- No rebuild is going on. -/
def isOver : Phase → Bool
  | .idle | .returned _ => true
  | _ => false

/-- The rebuild is between its two renames. -/
def isBetween : Phase → Bool
  | .renameNew _ _ => true
  | _ => false

/-- The first rename has taken away an index. -/
def tookIndex : Phase → Bool
  | .renameNew hadExisting _ => hadExisting
  | _ => false

end Phase

/-- A reader that holds the barrier, before and after it got a handle of the index. -/
inductive Reader where
  | entered
  | opened (index : Option DirHashes)

/-- The directories on disk, and of the process the rebuild, the readers, the cached handle
and the index that the last rebuild found when it began. -/
structure State where
  disk : IndexDisk
  phase : Phase := .idle
  readers : List Reader := []
  handle : Option DirHashes := none
  before : Option DirHashes := disk.dbPath

inductive Action where
  /-- The rebuild goes on, or one begins. -/
  | rebuild
  /-- A left-over is removed in part. -/
  | shrinkNew (left : DirHashes)
  | shrinkOld (left : DirHashes)
  /-- The replaced index cannot be removed. -/
  | keepReplaced
  /-- The next step of the rebuild fails. -/
  | fail
  /-- The process ends. -/
  | stop
  | enter
  | fetch (reader : ℕ)
  | leave (reader : ℕ)
  /-- The cache drops its handle. -/
  | drop

section Steps

variable (db : NodeStore) (fuel : ℕ) (commit : CommitNode)

/-- The steps of `rebuild_dir_hash_db` as they follow each other. -/
def rebuild (s : State) : Option State :=
  match s.phase with
  | .idle | .returned _ =>
      (getRootWithChildren db fuel commit).map fun root =>
        { s with phase := .removeNew (collectDirHashes root), before := s.disk.dbPath }
  | .removeNew pairs =>
      some { s with disk := { s.disk with newPath := none }, phase := .removeOld pairs }
  | .removeOld pairs =>
      some { s with disk := { s.disk with oldPath := none }, phase := .openNew pairs }
  | .openNew pairs =>
      some { s with
        disk := { s.disk with newPath := some (s.disk.newPath.getD ∅) }
        phase := .write pairs 0 }
  | .write ((path, hash) :: pairs) successfulWrites =>
      some { s with
        disk := { s.disk with newPath := s.disk.newPath.map (·.insert path hash) }
        phase := .write pairs (successfulWrites + 1) }
  | .write [] successfulWrites => some { s with phase := .lock successfulWrites }
  | .lock successfulWrites =>
      if s.readers.isEmpty then some { s with phase := .evict successfulWrites } else none
  | .evict successfulWrites =>
      some { s with handle := none, phase := .renameOld successfulWrites }
  | .renameOld successfulWrites =>
      if s.disk.dbPath.isSome then
        (rename s.disk.dbPath s.disk.oldPath).map fun index =>
          { s with
            disk := { s.disk with dbPath := none, oldPath := some index }
            phase := .renameNew true successfulWrites }
      else some { s with phase := .renameNew false successfulWrites }
  | .renameNew hadExisting successfulWrites =>
      (rename s.disk.newPath s.disk.dbPath).map fun index =>
        { s with
          disk := { s.disk with dbPath := some index, newPath := none }
          phase := .removeReplaced hadExisting successfulWrites }
  | .removeReplaced hadExisting successfulWrites =>
      some { s with
        disk := { s.disk with oldPath := if hadExisting then none else s.disk.oldPath }
        phase := .returned { commitId := commit.hash, dirsWritten := successfulWrites } }

/-- A step of the rebuild, of a reader of `with_reader`, or of the world around them. -/
def step (action : Action) (s : State) : Option State :=
  match action with
  | .rebuild => rebuild db fuel commit s
  | .shrinkNew left =>
      match s.phase, s.disk.newPath with
      | .removeNew _, some _ => some { s with disk := { s.disk with newPath := some left } }
      | _, _ => none
  | .shrinkOld left =>
      match s.phase, s.disk.oldPath with
      | .removeOld _, some _ | .removeReplaced true _, some _ =>
          some { s with disk := { s.disk with oldPath := some left } }
      | _, _ => none
  | .keepReplaced =>
      match s.phase with
      | .removeReplaced true successfulWrites =>
          some { s with
            phase := .returned { commitId := commit.hash, dirsWritten := successfulWrites } }
      | _ => none
  | .fail => if s.phase.isOver then none else some { s with phase := .idle }
  | .stop => some { s with phase := .idle, readers := [], handle := none }
  | .enter =>
      if s.phase.holdsBarrier then none else some { s with readers := s.readers ++ [.entered] }
  | .fetch reader =>
      match s.readers[reader]? with
      | some .entered =>
          let found := s.handle.or s.disk.dbPath
          some { s with readers := s.readers.set reader (.opened found), handle := found }
      | _ => none
  | .leave reader => some { s with readers := s.readers.eraseIdx reader }
  | .drop => some { s with handle := none }

def Step (action : Action) (s s' : State) : Prop :=
  step db fuel commit action s = some s'

end Steps

end Fsck

end Oxen
