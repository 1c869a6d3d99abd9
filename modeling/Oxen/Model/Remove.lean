import Oxen.Lib.FirstFailure
import Oxen.Model.TreeSearch
import Oxen.Model.Staging

/-! Removing tracked paths: the check for modified files, and then one path after the other. -/

namespace Oxen

namespace WorkingTree

/-- What lies directly in a directory. -/
def readDir (disk : WorkingTree) (path : PathBuf) : List PathBuf :=
  disk.entries.keys.filter fun key => key ≠ [] ∧ key.dropLast = path

/-- The length of the longest path. -/
def height (disk : WorkingTree) : ℕ :=
  (disk.entries.keys.map List.length).foldr max 0

/-- Drops the entries at and below a path. -/
def eraseBelow (disk : WorkingTree) (path : PathBuf) : WorkingTree where
  entries :=
    ⟨disk.entries.entries.filter fun entry => ¬ path <+: entry.1,
      List.NodupKeys.sublist List.filter_sublist disk.entries.nodupKeys⟩
  parent_isDir := by
    intro parent name hmem
    by_cases hroot : parent = []
    · exact .inl hroot
    right
    rw [AList.mem_keys, AList.keys, List.keys, List.mem_map] at hmem
    rcases hmem with ⟨⟨key, entry⟩, hentry, hkey⟩
    obtain rfl : key = parent ++ [name] := hkey
    rcases List.mem_filter.mp hentry with ⟨hentry, hkept⟩
    have hmem : parent ++ [name] ∈ disk.entries.keys := List.mem_map.mpr ⟨_, hentry, rfl⟩
    have hdir := (disk.parent_isDir parent name (AList.mem_keys.mpr hmem)).resolve_left hroot
    rw [← Option.mem_def, AList.mem_lookup_iff] at hdir ⊢
    refine List.mem_filter.mpr ⟨hdir, ?_⟩
    have hnot : ¬ path <+: parent ++ [name] := by simpa using hkept
    simpa using fun hpath : path <+: parent => hnot (hpath.trans (List.prefix_append _ _))

/-- Removes a directory with everything in it. -/
def removeDirAll (disk : WorkingTree) (path : PathBuf) : Except OxenError WorkingTree :=
  match disk.lookup path with
  | some .dir => .ok (disk.eraseBelow path)
  | _ => .error (.fileError path)

end WorkingTree

namespace Remove

open Commits CommitMerkleTree Unstage

/-- The repository that paths are removed from, but for what a removal changes. -/
structure Env extends LocalRepository where
  db : NodeStore
  dirHashes : MerkleHash → DirHashes
  refs : Refs
  /-- Whether the `.oxenignore` file matches a path, which may be a directory. -/
  gitignore : PathBuf → Bool → Bool
  fuel : ℕ

structure State where
  staged : StagedDb
  disk : WorkingTree

inductive Error where
  | revision (error : RevisionError)
  | oxen (error : OxenError)
deriving DecidableEq

/-! ## Modified files -/

section Status

variable (env : Env) (dirHashes : DirHashes) (s : State)

def isIgnored (path : PathBuf) (isDir : Bool) : Bool :=
  [".oxen"].isPrefixOf path || env.gitignore path isDir

def maybeGetNode (path : PathBuf) : Option MerkleTreeNode :=
  match dirHashes.lookup path with
  | some hash => readDepth env.db env.fuel hash 1
  | none => readFileNode env.toHost env.db dirHashes env.fuel path

def nameOf : MerkleTreeNode → Option PathBuf
  | .mk (.file f) _ => some f.name
  | .mk (.directory d) _ => some d.name
  | _ => none

def listFilesAndFoldersMap (children : List MerkleTreeNode) : KeyedMap.Map PathBuf MerkleTreeNode :=
  KeyedMap.insertAll ∅ (children.flatMap fun
    | .mk (.vnode _) children =>
        children.filterMap fun child => (nameOf child).map fun name => (name, child)
    | _ => [])

def maybeGetDirChildren : Option MerkleTreeNode → Option (KeyedMap.Map PathBuf MerkleTreeNode)
  | some (.mk (.directory _) children) => some (listFilesAndFoldersMap children)
  | _ => none

/-- The committed file to compare a path with, found from the node that is searched. -/
def committedFile (searchNode : Option MerkleTreeNode) (nodePath : PathBuf) : Option FileNode :=
  match (maybeGetDirChildren searchNode).bind (AList.lookup nodePath) with
  | some node => node.fileNode?
  | none => searchNode.bind MerkleTreeNode.fileNode?

/-- Compares the times exactly, whatever the tolerance of the repository. -/
def isModifiedFromNode (path : PathBuf) (node : FileNode) : Except OxenError Bool :=
  LocalRepository.isModifiedFromNode { env.toLocalRepository with mtimeTolerance := 0 } s.disk path
    node

def checkFile (searchNodePath path : PathBuf) : Except OxenError (List PathBuf) :=
  let searchNode := maybeGetNode env dirHashes searchNodePath
  match committedFile searchNode (path.drop searchNodePath.length) with
  | none => .ok []
  | some fileNode =>
      (isModifiedFromNode env s path fileNode).map fun isModified =>
        if isModified then [path] else []

/-- The modified files at or below a path. Directories are walked to the bottom. -/
def findChanges : ℕ → PathBuf → Except OxenError (List PathBuf)
  | 0, _ => .ok []
  | height + 1, searchNodePath =>
      let entries :=
        if s.disk.isDir searchNodePath then s.disk.readDir searchNodePath else [searchNodePath]
      (entries.mapM fun path =>
        if isIgnored env path (s.disk.isDir path) then .ok []
        else if s.disk.isDir path then findChanges height path
        else if path ∈ s.staged then .ok []
        else checkFile env dirHashes s searchNodePath path).map List.flatten

/-- A file with this name is staged at or below one of the paths. -/
def isStagedFile (paths : List PathBuf) (path : PathBuf) : Bool :=
  (KeyedMap.toList s.staged).any fun (key, entry) =>
    key ≠ [] && paths.any (· <+: key) &&
      match entry.node with
      | .file f => f.name = path
      | _ => false

def statusModifiedFiles (paths : List PathBuf) : Except OxenError (List PathBuf) :=
  (paths.mapM (findChanges env dirHashes s (s.disk.height + 1))).map fun modified =>
    modified.flatten.filter fun path => !isStagedFile s paths path

/-- Of the modified files, those that are listed or lie directly in a listed directory. -/
def listModifiedFiles (paths : List PathBuf) : Except OxenError (List PathBuf) :=
  (statusModifiedFiles env dirHashes s paths).map fun modified =>
    modified.filter fun path => path.dropLast ∈ paths ∨ path ∈ paths

def hasModifiedFiles (paths : List PathBuf) : Except OxenError Bool :=
  (listModifiedFiles env dirHashes s paths).map (!·.isEmpty)

end Status

/-! ## Staging a removal -/

/-- An entry to put into the staged database. -/
abbrev Put := PathBuf × StagedMerkleTreeNode

/-- The directories above a path, from its parent to the root. -/
def putParents (path : PathBuf) : List Put :=
  path.inits.dropLast.reverse.map fun dir =>
    (dir, { status := .modified, node := defaultDirFromPath dir })

def processRemoveFile (path : PathBuf) (fileNode : FileNode) : Put :=
  (path, { status := .removed, node := .file { fileNode with name := path } })

def processRemoveFileAndParents (path : PathBuf) (fileNode : FileNode) : List Put :=
  processRemoveFile path fileNode :: putParents path

def unexpectedNodeType : EMerkleTreeNode → OxenError
  | .file _ => .basicStr "Unexpected node type: File"
  | .directory _ => .basicStr "Unexpected node type: Dir"
  | .vnode _ => .basicStr "Unexpected node type: VNode"
  | .commit _ => .basicStr "Unexpected node type: Commit"

mutual

/-- Stages what is below a directory or a virtual node, and then the directory itself. -/
def rProcessRemoveDir (path : PathBuf) : MerkleTreeNode → List Put × Except OxenError Unit
  | .mk node children =>
      match rProcessRemoveChildren path children with
      | (puts, .error e) => (puts, .error e)
      | (puts, .ok ()) =>
          match node with
          | .directory d =>
              (puts ++ [(path, { status := .removed, node := .directory { d with name := path } })],
                .ok ())
          | .vnode _ => (puts, .ok ())
          | node => (puts, .error (unexpectedNodeType node))

def rProcessRemoveChildren (path : PathBuf) :
    List MerkleTreeNode → List Put × Except OxenError Unit
  | [] => ([], .ok ())
  | child :: children =>
      let first :=
        match child.node with
        | .directory d => rProcessRemoveDir (path ++ d.name) child
        | .vnode _ => rProcessRemoveDir path child
        | .file f => ([processRemoveFile (path ++ f.name) f], .ok ())
        | .commit _ => ([], .error (.basicStr "Error: Unexpected node type"))
      match first with
      | (puts, .error e) => (puts, .error e)
      | (puts, .ok ()) =>
          let rest := rProcessRemoveChildren path children
          (puts ++ rest.1, rest.2)

end

/-! ## Removing -/

section

variable (env : Env) (dirHashes : DirHashes) (recursive : Bool)

def quoted (path : PathBuf) : String := "\"" ++ path.display ++ "\""

def parentNotFound (path : PathBuf) : OxenError :=
  .basicStr ("Error: parent dir not found in tree for " ++ quoted path)

def requiresRecursive (path : PathBuf) : OxenError :=
  .basicStr ("`oxen rm` on directory " ++ quoted path ++ " requires -r")

def mustBeCommitted (path : PathBuf) : OxenError :=
  .basicStr ("Error: " ++ quoted path ++ " must be committed in order to use `oxen rm`")

def dirWithChildren (path : PathBuf) : Option MerkleTreeNode :=
  (dirHashes.lookup path).bind fun hash => readDepth env.db env.fuel hash 1

def dirWithChildrenRecursive (path : PathBuf) : Option MerkleTreeNode :=
  (dirHashes.lookup path).bind fun hash => readDepth env.db env.fuel hash (-1)

/-- The parents are staged even if something below the directory is not. -/
def removeDirInner (path : PathBuf) : List Put × Except OxenError Unit :=
  match dirWithChildrenRecursive env dirHashes path with
  | none => ([], .error (mustBeCommitted path))
  | some dirNode =>
      let (puts, result) := rProcessRemoveDir path dirNode
      (puts ++ putParents path, result)

/-- Takes a directory out of the working tree, unless it is the whole of it. -/
def removeDirOnDisk (s : State) (path : PathBuf) : State × Except OxenError Unit :=
  if s.disk.pathExists path ∧ path ≠ [] ∧ path ≠ [".oxen"] then
    match s.disk.removeDirAll path with
    | .error e => (s, .error e)
    | .ok disk => ({ s with disk }, .ok ())
  else (s, .ok ())

def removeFileOnDisk (s : State) (path : PathBuf) : State × Except OxenError Unit :=
  if s.disk.pathExists path then
    match s.disk.removeFile path with
    | .error e => (s, .error e)
    | .ok disk => ({ s with disk }, .ok ())
  else (s, .ok ())

/-- One path: first it is staged as removed, then it is taken out of the working tree. -/
def removePath (s : State) (path : PathBuf) : State × Except OxenError Unit :=
  let parentPath := path.dropLast
  match dirWithChildren env dirHashes parentPath with
  | none => (s, .error (parentNotFound path))
  | some parentNode =>
      match parentNode.getByPath (path.drop parentPath.length) with
      | none => (s, .error (mustBeCommitted path))
      | some (.mk (.directory _) _) =>
          if !recursive then (s, .error (requiresRecursive path))
          else
            let (puts, result) := removeDirInner env dirHashes path
            let s := { s with staged := KeyedMap.insertAll s.staged puts }
            match result with
            | .error e => (s, .error e)
            | .ok () => removeDirOnDisk s path
      | some (.mk (.file fileNode) _) =>
          let puts := processRemoveFileAndParents path fileNode
          removeFileOnDisk { s with staged := KeyedMap.insertAll s.staged puts } path
      | some _ => (s, .error (.basicStr "Error: Unexpected file type"))

end

/-- Removes paths without the staged option. -/
def rm (env : Env) (recursive : Bool) (s : State) (paths : List PathBuf) :
    State × Except Error Unit :=
  match headCommitMaybe env.db env.refs with
  | .error e => (s, .error (.revision e))
  | .ok headCommit =>
      let dirHashes := (headCommit.map fun commit => env.dirHashes commit.hash).getD ∅
      match hasModifiedFiles env dirHashes s paths with
      | .error e => (s, .error (.oxen e))
      | .ok true =>
          (s, .error (.oxen (.basicStr
            "There are modified files in the working directory.\n\tUse `oxen status` to see the modified files.")))
      | .ok false =>
          match headCommit with
          | none => (s, .error (.oxen (.basicStr "Error: head commit not found")))
          | some _ =>
              let (s, result) := FirstFailure.runAll (removePath env dirHashes recursive) s paths
              (s, result.mapError .oxen)

end Remove

end Oxen
