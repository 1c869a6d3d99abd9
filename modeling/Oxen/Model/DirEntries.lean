import Mathlib.Data.List.Sort
import Oxen.Model.Paginate
import Oxen.Model.Status

/-! Listings of a directory of a commit, page by page and with the directories below it to a
depth. -/

namespace Oxen

namespace DirEntries

open Commits CommitMerkleTree

inductive SortBy where
  | name | date
deriving DecidableEq, Repr

structure SortOpts where
  sortBy : SortBy := .name
  reverse : Bool := false
deriving DecidableEq, Repr

structure ParsedResource where
  commit : Option CommitNode := none
  path : PathBuf
  version : PathBuf
  resource : PathBuf
deriving DecidableEq

structure MetadataEntry where
  filename : String
  hash : MerkleHash
  isDir : Bool
  latestCommit : Option CommitNode
  resource : Option ParsedResource
  size : ℕ
  dataType : EntryDataType
  isQueryable : Option Bool
  children : Option (List MetadataEntry)

inductive ListError where
  | revisionNotFound (revision : String)
  | resourceNotFound (resource : String)
  | commitIdDoesNotExist (commitId : MerkleHash)
  | basicStr (message : String)
  /-- Arithmetic left the range of a `usize`. -/
  | overflow
deriving DecidableEq, Repr

structure Workspace where
  commitId : String
  isEditable : Bool
  /-- Whether it has a database for the data frame at a path. -/
  duckdbExists : PathBuf → Bool

structure Env extends Remove.Env where
  /-- The workspaces of the repository, or why one of them cannot be read. -/
  workspaces : Except ListError (List Workspace)
  /-- The quotient of two numbers as floating-point numbers, rounded up. -/
  ceilQuotient : ℕ → ℕ → ℕ

/-- The commits that were read so far are not read again. -/
abbrev FoundCommits := KeyedMap.Map MerkleHash CommitNode

abbrev ListM := StateT FoundCommits (Except ListError)

structure ResourceVersion where
  path : String
  version : String
deriving DecidableEq, Repr

structure PaginatedDirEntries where
  dir : MetadataEntry
  entries : List MetadataEntry
  resource : ResourceVersion
  pagination : Pagination

/-! ## Order -/

def compareField (sortOpts : SortOpts) (a b : MetadataEntry) : Ordering :=
  match sortOpts.sortBy with
  | .name => compare a.filename b.filename
  | .date => compare (a.latestCommit.map (·.timestamp)) (b.latestCommit.map (·.timestamp))

/-- Directories always come first. -/
def compareEntries (sortOpts : SortOpts) (a b : MetadataEntry) : Ordering :=
  (compare b.isDir a.isDir).then
    (if sortOpts.reverse then (compareField sortOpts a b).swap else compareField sortOpts a b)

def sortEntries (sortOpts : SortOpts) (entries : List MetadataEntry) : List MetadataEntry :=
  entries.mergeSort fun a b => (compareEntries sortOpts a b).isLE

/-! ## Entries -/

variable (env : Env)

def findCommit (commitId : MerkleHash) : ListM CommitNode := do
  let foundCommits ← get
  match foundCommits.lookup commitId with
  | some commit => return commit
  | none =>
      match getByHash env.db commitId with
      | none => throw (.commitIdDoesNotExist commitId)
      | some commit =>
          set (foundCommits.insert commitId commit)
          return commit

def ParsedResource.join (resource : ParsedResource) (name : PathBuf) : ParsedResource :=
  { resource with path := resource.path ++ name, resource := resource.resource ++ name }

def dirNodeToMetadataEntry (dirNode : DirNode) (parsedResource : ParsedResource)
    (shouldAppendResource : Bool) : ListM MetadataEntry := do
  let commit ← findCommit env dirNode.lastCommitId
  return {
    filename := dirNode.name.display
    hash := dirNode.hash
    isDir := true
    latestCommit := some commit
    resource := some
      (if shouldAppendResource then parsedResource.join dirNode.name else parsedResource)
    size := dirNode.numBytes
    dataType := .dir
    isQueryable := none
    children := none }

/-- Whether a workspace that is not editable has the data frame of the file's last commit. -/
def isQueryableDataFrameIndexed (fileNode : FileNode) (path : PathBuf) : Except ListError Bool := do
  let workspaces ← env.workspaces
  return workspaces.any fun workspace =>
    !workspace.isEditable && workspace.commitId == fileNode.lastCommitId.display &&
      workspace.duckdbExists path

/-- Only data frames are looked up. -/
def isIndexed (fileNode : FileNode) (path : PathBuf) : Except ListError (Option Bool) :=
  if fileNode.dataType = .tabular then (isQueryableDataFrameIndexed env fileNode path).map some
  else .ok none

/-- The name is added unless the path ends with it. -/
def fileNodeToMetadataEntry (fileNode : FileNode) (parsedResource : ParsedResource) :
    ListM MetadataEntry := do
  let commit ← findCommit env fileNode.lastCommitId
  let parsedResource :=
    if fileNode.name <:+ parsedResource.path then parsedResource
    else parsedResource.join fileNode.name
  let isIndexed ← isIndexed env fileNode parsedResource.path
  return {
    filename := fileNode.name.display
    hash := fileNode.hash
    isDir := false
    latestCommit := some commit
    resource := some parsedResource
    size := fileNode.numBytes
    dataType := fileNode.dataType
    isQueryable := isIndexed
    children := none }

section Walk

-- What the listing of a directory at a path shows below it.
variable (childrenAt : PathBuf → ListM (Option (List MetadataEntry)))
  (searchDirectory : PathBuf) (parsedResource : ParsedResource)

mutual

def pDirEntry (currentDirectory : PathBuf) (entries : List MetadataEntry) :
    MerkleTreeNode → ListM (List MetadataEntry)
  | .mk (.vnode _) children => pDirEntries currentDirectory entries children
  | .mk (.directory childDir) children => do
      let entries ←
        if currentDirectory = searchDirectory ∧ childDir.name ≠ [] then do
          let metadata ← dirNodeToMetadataEntry env childDir parsedResource true
          let nested ← childrenAt (searchDirectory ++ childDir.name)
          pure (entries ++ [{ metadata with children := nested }])
        else pure entries
      pDirEntries (currentDirectory ++ childDir.name) entries children
  | .mk (.file childFile) _ =>
      if currentDirectory = searchDirectory then do
        let metadata ← fileNodeToMetadataEntry env childFile parsedResource
        return entries ++ [metadata]
      else return entries
  | .mk (.commit _) _ => return entries

def pDirEntries (currentDirectory : PathBuf) (entries : List MetadataEntry) :
    List MerkleTreeNode → ListM (List MetadataEntry)
  | [] => return entries
  | child :: children => do
      let entries ← pDirEntry currentDirectory entries child
      pDirEntries currentDirectory entries children

end

end Walk

def getDirWithChildren (commit : CommitNode) (path : PathBuf) : Option MerkleTreeNode :=
  ((env.dirHashes commit.hash).lookup path).bind fun hash => readDepth env.db env.fuel hash 1

/-- The nested entries of a directory, none at depth 0 and none if there are none. -/
def childrenToDepth (sortOpts : SortOpts) :
    ℕ → ParsedResource → PathBuf → ListM (Option (List MetadataEntry))
  | 0, _, _ => return none
  | depth + 1, parsedResource, childPath =>
      match parsedResource.commit with
      | none => throw (.basicStr "No commit in parsed resource")
      | some commit =>
          match getDirWithChildren env commit childPath with
          | none => return none
          | some subdirNode => do
              let subResource := { parsedResource with
                path := childPath
                resource := parsedResource.version ++ childPath }
              let children ← pDirEntries env (childrenToDepth sortOpts depth subResource) childPath
                subResource childPath [] subdirNode.children
              let children := sortEntries sortOpts children
              return if children.isEmpty then none else some children

def dirEntriesWithDepth (dir : MerkleTreeNode) (searchDirectory : PathBuf)
    (parsedResource : ParsedResource) (sortOpts : SortOpts) (depth : ℕ) :
    ListM (List MetadataEntry) := do
  let entries ← pDirEntries env (childrenToDepth env sortOpts depth parsedResource)
    searchDirectory parsedResource searchDirectory [] dir.children
  return sortEntries sortOpts entries

/-- A page of a list. -/
def paginate {α : Type} (entries : List α) (page pageSize : ℕ) : Option (List α × Pagination) := do
  let start ← Paginate.startIndex page pageSize
  let stop ← Paginate.add start pageSize
  let pagination := {
    pageSize
    pageNumber := page
    totalPages := env.ceilQuotient entries.length pageSize
    totalEntries := entries.length }
  if start < entries.length ∧ entries.length < stop then return (entries.drop start, pagination)
  else if start < entries.length then return ((entries.drop start).take (stop - start), pagination)
  else return ([], pagination)

def listDirectoryM (directory : PathBuf) (parsedResource : ParsedResource)
    (page pageSize : ℕ) (sortOpts : SortOpts) (depth : ℕ) : ListM PaginatedDirEntries :=
  match parsedResource.commit with
  | none => throw (.revisionNotFound parsedResource.version.display)
  | some commit =>
      match getDirWithChildren env commit directory with
      | some (.mk (.directory dirNode) vnodes) => do
          let dir ← dirNodeToMetadataEntry env dirNode parsedResource false
          let entries ← dirEntriesWithDepth env (.mk (.directory dirNode) vnodes) directory
            parsedResource sortOpts depth
          match paginate env entries page pageSize with
          | none => throw .overflow
          | some (entries, pagination) =>
              return {
                dir, entries, pagination
                resource := {
                  path := directory.display
                  version := parsedResource.version.display } }
      | _ => throw (.resourceNotFound directory.display)

def listDirectoryWithDepth (directory : PathBuf) (parsedResource : ParsedResource)
    (page pageSize : ℕ) (sortOpts : SortOpts) (depth : ℕ) :
    Except ListError PaginatedDirEntries :=
  (listDirectoryM env directory parsedResource page pageSize sortOpts depth).run' ∅

/-- The listing as it is asked for under a revision. -/
def listDirectoryWDepth (commit : Option CommitNode) (revision : PathBuf) (directory : PathBuf)
    (page pageSize : ℕ) (sortOpts : SortOpts) (depth : ℕ) :
    Except ListError PaginatedDirEntries :=
  listDirectoryWithDepth env directory
    { commit, path := directory, version := revision, resource := revision ++ directory }
    page pageSize sortOpts depth

end DirEntries

end Oxen
