import Oxen.Model.RelativePath
import Oxen.Model.Status

/-! Glob patterns matched against the tree of the head commit and against the working
directory. -/

namespace Oxen

namespace GlobSearch

open Commits CommitMerkleTree Remove Status RelativePath

structure Env extends Remove.Env where
  path : OsPath
  toLowercase : String → String
  /-- Whether the `glob_match` library matches a pattern with a name. -/
  globMatch : String → String → Bool
  /-- What the `glob` library yields for the text of a path. -/
  glob : OsPath → Except String (List OsPath)
  /-- The order in which a hash set is gone through. -/
  hashOrder : List PathBuf → List PathBuf

def isGlobPath (path : String) : Bool :=
  ['*', '?', '[', ']'].any path.toList.contains

variable (env : Env)

/-! ## The tree of the head commit -/

def getDirWithChildren (dirHashes : DirHashes) (path : PathBuf) : Option MerkleTreeNode :=
  (dirHashes.lookup path).bind fun hash => readDepth env.db env.fuel hash 1

/-- Inserts what one child of the directory adds. -/
def expandChild (globPattern : String) (parentPath : PathBuf) (isFinal : Bool)
    (paths : List PathBuf) (child : MerkleTreeNode) : Except OxenError (List PathBuf) :=
  match child.node with
  | .directory dirNode =>
      .ok (if env.globMatch globPattern dirNode.name.display then
        paths.insert (parentPath ++ dirNode.name) else paths)
  | .file fileNode =>
      .ok (if isFinal && env.globMatch globPattern fileNode.name.display then
        paths.insert (parentPath ++ fileNode.name) else paths)
  | _ => .error (.basicStr "Unexpected node type")

def expandGlobPattern (dirHashes : DirHashes) (globPattern : String) (parentPath : PathBuf)
    (isFinal : Bool) : Except OxenError (List PathBuf) :=
  match getDirWithChildren env dirHashes parentPath with
  | none => .ok []
  | some dirNode => do
      let dirChildren ← Status.listFilesAndFolders dirNode
      dirChildren.foldlM (expandChild env globPattern parentPath isFinal) []

/-- Goes on with the components that are left of the pattern. Literal ones are only appended,
except for the last. -/
def rSearchMerkleTree (dirHashes : DirHashes) :
    List String → List PathBuf → PathBuf → Except OxenError (List PathBuf)
  | [], paths, _ => .ok paths
  | [dir], paths, searchPath => do
      let matchedEntries ← expandGlobPattern env dirHashes dir searchPath true
      return (env.hashOrder matchedEntries).foldl (fun paths path => paths.insert path) paths
  | dir :: next :: components, paths, searchPath =>
      if isGlobPath dir then do
        let matchedEntries ← expandGlobPattern env dirHashes dir searchPath false
        (env.hashOrder matchedEntries).foldlM
          (fun paths entry => rSearchMerkleTree dirHashes (next :: components) paths entry) paths
      else rSearchMerkleTree dirHashes (next :: components) paths (searchPath ++ [dir])

def searchMerkleTree (paths : List PathBuf) (globPath : PathBuf) :
    Except Remove.Error (List PathBuf) :=
  match headCommitMaybe env.db env.refs with
  | .error e => .error (.revision e)
  | .ok none => .ok paths
  | .ok (some headCommit) =>
      (rSearchMerkleTree env (env.dirHashes headCommit.hash) globPath paths []).mapError .oxen

/-! ## The working directory -/

/-- The search without an `.oxenignore` file. -/
def searchWorkingDir (paths : List OsPath) (globPath : PathBuf) :
    Except String (List OsPath) :=
  (env.glob (env.path ++ globPath.map .normal)).map fun entries =>
    entries.foldl (fun paths entry => paths.insert entry) paths

/-! ## Removed paths -/

variable (disk : WorkingTree)

/-- The pattern for the children of a directory of the repository. -/
def globPathOf (dirPath : PathBuf) : Option PathBuf :=
  (pathRelativeToDir env.toLowercase (env.path ++ dirPath.map .normal) env.path).map fun path =>
    path.map Component.text ++ ["*"]

/-- Collects the paths in a directory of the repository. Without fuel there is no result, and
neither is there after a panic. -/
def rCollectRemovedPaths :
    ℕ → PathBuf → List PathBuf → ExceptT Remove.Error Option (List PathBuf)
  | 0, _, _ => (none : Option _)
  | fuel + 1, dirPath, removedPaths =>
      if disk.isDir dirPath then do
        let globPath ← (globPathOf env dirPath : Option PathBuf)
        let before := removedPaths
        let removedPaths ← ExceptT.mk (some (searchMerkleTree env removedPaths globPath))
        let newPaths := env.hashOrder (removedPaths.filter (· ∉ before))
        newPaths.foldlM
          (fun removedPaths path =>
            if disk.isDir path then rCollectRemovedPaths fuel path removedPaths
            else pure removedPaths)
          removedPaths
      else pure removedPaths

def collectRemovedPaths (fuel : ℕ) (dirPath : PathBuf) :
    ExceptT Remove.Error Option (List PathBuf) := do
  let removedPaths ← rCollectRemovedPaths env disk fuel dirPath []
  return removedPaths.filter fun path => !disk.pathExists path

end GlobSearch

end Oxen
