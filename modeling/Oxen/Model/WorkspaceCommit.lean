import Oxen.Lib.Steps
import Oxen.Model.DataFrameRows
import Oxen.Model.Server

/-! The commit of a workspace, operation by operation: its branch, its staged database, the
tables of its data frames, its working files and the version store. -/

namespace Oxen

namespace WorkspaceCommit

open Steps

/-- A row of an indexed data frame: the columns of the workspace's own, and the rest. -/
structure TableRow (Value : Type) where
  status : Rows.StagedRowStatus
  hash : Option String
  values : List Value
deriving DecidableEq

/-- The staged database, or what is left of it when only some of its files are removed. -/
inductive StagedFiles where
  | db (entries : StagedDb)
  | damaged

/-- A workspace and the repository it belongs to. -/
structure State (Value : Type) where
  repo : Repository
  staged : StagedFiles
  /-- The tables of the data frames that are indexed. -/
  tables : KeyedMap.Map PathBuf (List (TableRow Value))
  working : KeyedMap.Map PathBuf Content
  versions : KeyedMap.Map MerkleHash Content
  /-- The commit that the workspace's config names, until the workspace is deleted. -/
  config : Option String

inductive Op where
  | createBranch (name commitId : String)
  | deleteRemovedRows (path : PathBuf)
  | exportFile (path : PathBuf) (content : Content)
  | storeVersion (hash : MerkleHash) (content : Content)
  | writeRepo (op : RepoOp)
  /-- Removing the staged database begins: some of its files are gone. -/
  | removeStagedFiles
  | removeStagedDb
  | setBranch (name commitId : String)
  | updateCommit (commitId : String)
  | deleteWorkspace
deriving DecidableEq

variable {Value : Type}

def withoutRemoved (rows : List (TableRow Value)) : List (TableRow Value) :=
  rows.filter (·.status ≠ .removed)

def Op.apply (s : State Value) : Op → State Value
  | createBranch name commitId =>
      { s with repo := RepoOp.apply s.repo (.setBranchCommitId name commitId) }
  | deleteRemovedRows path =>
      match s.tables.lookup path with
      | none => s
      | some rows => { s with tables := s.tables.insert path (withoutRemoved rows) }
  | exportFile path content => { s with working := s.working.insert path content }
  | storeVersion hash content =>
      { s with versions := KeyedMap.insertNew s.versions hash content }
  | writeRepo op => { s with repo := RepoOp.apply s.repo op }
  | removeStagedFiles => { s with staged := .damaged }
  | removeStagedDb => { s with staged := .db ∅ }
  | setBranch name commitId =>
      { s with repo := RepoOp.apply s.repo (.setBranchCommitId name commitId) }
  | updateCommit commitId => { s with config := some commitId }
  | deleteWorkspace =>
      { s with staged := .db ∅, tables := ∅, working := ∅, config := none }

inductive Error where
  | server (error : ServerError)
  | revision (error : RevisionError)
  | stagedDb
  | workspaceNotFound
  /-- A statement on a table that is missing, or that cannot be exported. -/
  | duckDb
  | noMetadata (path : PathBuf)
deriving DecidableEq

/-- What the export of a data frame takes from outside. -/
structure Env (Value : Type) extends CommitEnv where
  /-- The text of the rows in the format of the extension. -/
  copyTo : PathBuf → List (List Value) → Except Error Content
  /-- The data type by the content, and the hash of the metadata, in which a staged schema has
  priority. -/
  dataType : PathBuf → Content → EntryDataType
  metadataHash : StagedDb → PathBuf → Content → Except Error MerkleHash
  /-- When the exported file is written, in seconds and nanoseconds. -/
  mtime : Int × ℕ

/-- The workspace as it was loaded. -/
structure Workspace where
  commit : CommitNode
  name : Option String

abbrev Action (Value : Type) := Program (@Op.apply Value) Error

def readStaged : Action Value StagedDb :=
  Program.read fun s =>
    match s.staged with
    | .db entries => .ok entries
    | .damaged => .error .stagedDb

/-- What follows the last dot of the name, unless the name starts with it. -/
def extension (path : PathBuf) : String :=
  let name := (path.getLast?.getD "").toList
  let after := (name.reverse.takeWhile (· ≠ '.')).reverse
  if after.length + 1 < name.length then String.ofList after else ""

def validExportExtensions : List String := ["csv", "tsv", "parquet", "jsonl", "json", "ndjson"]

/-- Rows that are marked as removed are deleted before the rest is written. Other extensions
write no file. -/
def extractFileNodeToWorkingDir (env : Env Value) (fileNode : FileNode) :
    Action Value PathBuf := do
  let path := fileNode.name
  let rows ← Program.read fun s =>
    match s.tables.lookup path with
    | none => .error .duckDb
    | some rows => .ok rows
  Program.perform (.deleteRemovedRows path)
  if extension path ∈ validExportExtensions then do
    let content ← Program.read fun _ =>
      env.copyTo path ((withoutRemoved rows).map TableRow.values)
    Program.perform (.exportFile path content)
    pure path
  else pure path

def getCombinedHash (env : Env Value) (metadataHash contentHash : MerkleHash) : MerkleHash :=
  env.xxh3 (contentHash.toLeBytes ++ metadataHash.toLeBytes)

def computeStagedMerkleTreeNode (env : Env Value) (path : PathBuf) (status : StagedEntryStatus) :
    Action Value StagedMerkleTreeNode := do
  let content ← Program.read fun s =>
    match s.working.lookup path with
    | none => .error (.noMetadata path)
    | some content => .ok content
  let staged ← readStaged
  let metadataHash ← Program.read fun _ => env.metadataHash staged path content
  let hash := env.xxh3 content
  Program.perform (.storeVersion hash content)
  pure
    { status
      node := .file
        { name := path
          hash
          combinedHash := getCombinedHash env metadataHash hash
          metadataHash := some metadataHash
          numBytes := content.length
          lastModifiedSeconds := env.mtime.1
          lastModifiedNanoseconds := env.mtime.2
          dataType := env.dataType path content } }

/-- The full path of a staged file, whose name may be relative to the directory. -/
def nodePath (dirPath name : PathBuf) : PathBuf :=
  if dirPath <+: name then name else dirPath ++ name

def exportEntry (env : Env Value) (dirPath : PathBuf) (dirEntry : StagedMerkleTreeNode) :
    Action Value StagedMerkleTreeNode :=
  match dirEntry.node with
  | .file fileNode => do
      let isIndexed ← Program.read fun s =>
        .ok (s.tables.lookup (nodePath dirPath fileNode.name)).isSome
      if fileNode.dataType = .tabular ∧ isIndexed then do
        let exportedPath ← extractFileNodeToWorkingDir env fileNode
        computeStagedMerkleTreeNode env exportedPath dirEntry.status
      else pure dirEntry
  | _ => pure dirEntry

def pushEntry (newDirEntries : DirEntries) (dirPath : PathBuf) (entry : StagedMerkleTreeNode) :
    DirEntries :=
  newDirEntries.insert dirPath ((newDirEntries.lookup dirPath).getD [] ++ [entry])

/-- Directories without entries are not taken over. -/
def exportTabularDataFrames (env : Env Value) (dirEntries : DirEntries) :
    Action Value DirEntries :=
  (KeyedMap.toList dirEntries).foldlM
    (fun newDirEntries (dirPath, entries) =>
      entries.foldlM
        (fun newDirEntries entry => do
          let entry ← exportEntry env dirPath entry
          pure (pushEntry newDirEntries dirPath entry))
        newDirEntries)
    ∅

/-- The branch, which is created where the workspace is when it does not exist. -/
def getBranch (workspace : Workspace) (branchName : String) : Action Value Branch := do
  let found ← Program.read fun s => .ok (s.repo.refs.branches.lookup branchName)
  match found with
  | some commitId => pure ⟨branchName, commitId⟩
  | none => do
      let commitId := workspace.commit.hash.display
      Program.read fun s =>
        (Branches.checkCreate s.repo.db s.repo.refs branchName commitId).mapError .server
      Program.perform (.createBranch branchName commitId)
      pure ⟨branchName, commitId⟩

def commitDirEntries (env : Env Value) (dirEntries : DirEntries) (branchName : String) :
    Action Value CommitNode := fun s =>
  let plan := CommitWriter.commitDirEntries env.toCommitEnv s.repo dirEntries branchName
  (plan.ops.map .writeRepo, plan.result.mapError .revision)

/-- The config of a named workspace moves to the new commit; others are deleted. -/
def finishWorkspace (workspace : Workspace) (commitId : String) : Action Value Unit := do
  Program.read fun s => if s.config.isSome then .ok () else .error .workspaceNotFound
  match workspace.name with
  | some _ => Program.perform (.updateCommit commitId)
  | none => Program.perform .deleteWorkspace

/-- The entries to commit, when none of them is in conflict with the branch. -/
def prepare (env : Env Value) (fuel : ℕ) (workspace : Workspace) (branchName : String) :
    Action Value DirEntries := do
  let branch ← getBranch workspace branchName
  let staged ← readStaged
  let dirEntries := CommitWriter.readStagedEntries staged
  let conflicts ← Program.read fun s =>
    (Workspaces.listConflicts s.repo.db fuel workspace.commit dirEntries branch).mapError .server
  if conflicts ≠ [] then Program.throw (.server .workspaceBehind)
  else exportTabularDataFrames env dirEntries

/-- What is left to do once the commit is written. -/
def publish (workspace : Workspace) (branchName : String) (commit : CommitNode) :
    Action Value CommitNode := do
  Program.perform .removeStagedFiles
  Program.perform .removeStagedDb
  Program.perform (.setBranch branchName commit.hash.display)
  finishWorkspace workspace commit.hash.display
  pure commit

def commit (env : Env Value) (fuel : ℕ) (workspace : Workspace) (branchName : String) :
    Action Value CommitNode := do
  let dirEntries ← prepare env fuel workspace branchName
  let commit ← commitDirEntries env dirEntries branchName
  publish workspace branchName commit

end WorkspaceCommit

end Oxen
