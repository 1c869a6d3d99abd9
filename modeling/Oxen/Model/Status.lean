import Mathlib.Data.Finset.Union
import Oxen.Model.Remove

/-! The status of a working tree: what changed on disk, and what is staged. -/

namespace Oxen

namespace Status

open Commits CommitMerkleTree Remove

/-! ## Untracked paths -/

structure UntrackedData where
  dirs : KeyedMap.Map PathBuf ℕ := ∅
  files : List PathBuf := []
  allUntracked : Bool := true

namespace UntrackedData

/-- The directory takes the place of those below it, with their counts. -/
def addDir (data : UntrackedData) (path : PathBuf) (count : ℕ) : UntrackedData :=
  let subdirs := data.dirs.keys.filter fun key => path <+: key ∧ key ≠ path
  let totalCount := (subdirs.map fun key => (data.dirs.lookup key).getD 0).sum + count
  { data with
    dirs := (subdirs.foldl (fun dirs key => dirs.erase key) data.dirs).insert path totalCount }

def addFile (data : UntrackedData) (path : PathBuf) : UntrackedData :=
  { data with files := data.files ++ [path] }

def merge (data other : UntrackedData) : UntrackedData where
  dirs := KeyedMap.insertAll data.dirs (KeyedMap.toList other.dirs)
  files := data.files ++ other.files
  allUntracked := data.allUntracked && other.allUntracked

end UntrackedData

/-! ## Changes on disk -/

structure Changes where
  untracked : UntrackedData := {}
  modified : Finset PathBuf := ∅
  removed : Finset PathBuf := ∅

namespace Changes

def merge (changes sub : Changes) : Changes where
  untracked := changes.untracked.merge sub.untracked
  modified := changes.modified ∪ sub.modified
  removed := changes.removed ∪ sub.removed

def notAllUntracked (changes : Changes) : Changes :=
  { changes with untracked := { changes.untracked with allUntracked := false } }

end Changes

variable (env : Env) (dirHashes : DirHashes) (s : State)

/-- Adds the path if it differs from the committed file. -/
def checkModified (path : PathBuf) (fileNode : FileNode) (changes : Changes) :
    Except OxenError Changes :=
  (isModifiedFromNode env s path fileNode).map fun isModified =>
    if isModified then { changes with modified := insert path changes.modified } else changes

/-- One entry of the directory that is searched. Counted are the untracked files among the
entries. -/
def checkEntry (searchNodePath : PathBuf) (walk : PathBuf → Except OxenError Changes)
    (found : Changes × ℕ) (path : PathBuf) : Except OxenError (Changes × ℕ) :=
  let searchNode := maybeGetNode env dirHashes searchNodePath
  let nodePath := path.drop searchNodePath.length
  if isIgnored env path (s.disk.isDir path) then .ok found
  else if s.disk.isDir path then
    (walk path).map fun sub => (found.1.merge sub, found.2)
  else if path ∈ s.staged then .ok (found.1.notAllUntracked, found.2)
  else
    match (maybeGetDirChildren searchNode).bind (AList.lookup nodePath) with
    | some node =>
        match node.fileNode? with
        | some fileNode =>
            (checkModified env s path fileNode found.1.notAllUntracked).map (·, found.2)
        | none => .ok (found.1.notAllUntracked, found.2)
    | none =>
        match searchNode.bind MerkleTreeNode.fileNode? with
        | some fileNode => (checkModified env s path fileNode found.1).map (·, found.2)
        | none =>
            .ok ({ found.1 with untracked := found.1.untracked.addFile path }, found.2 + 1)

/-- A directory without tracked files stands for what is in it. -/
def foldUntracked (searchNodePath : PathBuf) (found : Changes × ℕ) : Changes :=
  if found.1.untracked.allUntracked ∧ searchNodePath ≠ [] ∧ searchNodePath ∉ s.staged ∧
      s.disk.isDir searchNodePath ∧ maybeGetNode env dirHashes searchNodePath = none then
    { found.1 with
      untracked := { found.1.untracked.addDir searchNodePath found.2 with files := [] } }
  else found.1

def notADirectory : EMerkleTreeNode → OxenError
  | .file _ => .basicStr "list_files_and_folders Merkle tree node is not a directory: 'File'"
  | .directory _ => .basicStr "list_files_and_folders Merkle tree node is not a directory: 'Dir'"
  | .vnode _ => .basicStr "list_files_and_folders Merkle tree node is not a directory: 'VNode'"
  | .commit _ => .basicStr "list_files_and_folders Merkle tree node is not a directory: 'Commit'"

def listFilesAndFolders : MerkleTreeNode → Except OxenError (List MerkleTreeNode)
  | .mk (.directory _) children =>
      .ok (children.flatMap fun
        | .mk (.vnode _) children => children
        | _ => [])
  | .mk node _ => .error (notADirectory node)

/-- The children of a committed directory that do not exist on disk. -/
def removedChildren (searchNodePath : PathBuf) : Except OxenError (Finset PathBuf) :=
  match dirHashes.lookup searchNodePath with
  | none => .ok ∅
  | some dirHash =>
      match readDepth env.db env.fuel dirHash 1 with
      | none => .ok ∅
      | some node =>
          (listFilesAndFolders node).map fun children =>
            (children.filterMap fun child =>
              ((nameOf child).map (searchNodePath ++ ·)).filter (!s.disk.pathExists ·)).toFinset

/-- What changed at or below a path. Directories are walked to the bottom. -/
def findChanges : ℕ → PathBuf → Except OxenError Changes
  | 0, _ => .ok {}
  | height + 1, searchNodePath => do
      let entries :=
        if s.disk.isDir searchNodePath then s.disk.readDir searchNodePath else [searchNodePath]
      let found ← entries.foldlM
        (checkEntry env dirHashes s searchNodePath (findChanges height)) ({}, 0)
      let changes := foldUntracked env dirHashes s searchNodePath found
      let removed ← removedChildren env dirHashes s searchNodePath
      pure { changes with removed := changes.removed ∪ removed }

/-! ## Staged entries -/

structure StagedEntry where
  hash : String
  status : StagedEntryStatus
deriving DecidableEq

/-- What is reported of files and directories. -/
structure StagedData where
  stagedFiles : KeyedMap.Map PathBuf StagedEntry := ∅
  untrackedDirs : List (PathBuf × ℕ) := []
  untrackedFiles : List PathBuf := []
  modifiedFiles : Finset PathBuf := ∅
  removedFiles : Finset PathBuf := ∅

/-- What is staged counts neither as removed nor as modified. -/
def addStaged (data : StagedData) (entry : StagedMerkleTreeNode) :
    Except OxenError StagedData :=
  match entry.node with
  | .directory node => .ok { data with removedFiles := data.removedFiles.erase node.name }
  | .file node =>
      .ok { data with
        stagedFiles := data.stagedFiles.insert node.name
          { hash := MerkleHash.display node.hash, status := entry.status }
        modifiedFiles :=
          (if entry.status = .modified then insert node.name data.modifiedFiles
            else data.modifiedFiles).erase node.name
        removedFiles := data.removedFiles.erase node.name }
  | _ => .error (.basicStr "status_from_dir found unexpected node type")

def statusFromDirEntries (data : StagedData) (dirEntries : DirEntries) :
    Except OxenError StagedData :=
  (KeyedMap.toList dirEntries).foldlM (fun data (_, entries) => entries.foldlM addStaged data) data

/-! ## The status -/

/-- The status of everything below the root. -/
def statusFromDir : Except OxenError StagedData := do
  let changes ← findChanges env dirHashes s (s.disk.height + 1) []
  statusFromDirEntries
    { untrackedDirs := KeyedMap.toList changes.untracked.dirs
      untrackedFiles := changes.untracked.files
      modifiedFiles := changes.modified
      removedFiles := changes.removed }
    (CommitWriter.readStagedEntries s.staged)

def status : Except Remove.Error StagedData :=
  match headCommitMaybe env.db env.refs with
  | .error e => .error (.revision e)
  | .ok headCommit =>
      let dirHashes := (headCommit.map fun commit => env.dirHashes commit.hash).getD ∅
      (statusFromDir env dirHashes s).mapError .oxen

end Status

end Oxen
