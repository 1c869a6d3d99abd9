import Mathlib.Data.List.Sort
import Oxen.Lib.KeySet
import Oxen.Model.Paginate
import Oxen.Model.TreeSearch

/-! The listing of the files and directories that differ between two commits. -/

namespace Oxen

/-- The data type counts are the numbers of files of each type. -/
def DirNode.numFiles (d : DirNode) : ℕ :=
  (d.dataTypeCounts.entries.map Sigma.snd).sum

namespace Diff

open MerkleTreeNode

inductive DiffEntryStatus where
  | added | modified | removed
deriving DecidableEq, Repr

structure AddRemoveModifyCounts where
  added : ℕ
  removed : ℕ
  modified : ℕ
deriving DecidableEq, Repr

/-! ## The files and directories below a node -/

structure FileNodeWithDir where
  fileNode : FileNode
  dir : PathBuf
deriving DecidableEq

/-- Files are compared by their paths. -/
def FileNodeWithDir.path (f : FileNodeWithDir) : PathBuf :=
  f.dir ++ f.fileNode.name

structure DirNodeWithPath where
  dirNode : DirNode
  path : PathBuf
deriving DecidableEq

abbrev FileSet := KeySet FileNodeWithDir.path

abbrev DirSet := KeySet DirNodeWithPath.path

mutual

/-- What is inserted into the two sets, in this order. -/
def rListFilesAndDirs (traversedPath : PathBuf) :
    MerkleTreeNode → List (FileNodeWithDir ⊕ DirNodeWithPath)
  | .mk (.file f) _ => [.inl ⟨f, traversedPath⟩]
  | .mk _ children => rListChildren traversedPath children

def rListChildren (traversedPath : PathBuf) :
    List MerkleTreeNode → List (FileNodeWithDir ⊕ DirNodeWithPath)
  | [] => []
  | .mk (.file f) _ :: rest => .inl ⟨f, traversedPath⟩ :: rListChildren traversedPath rest
  | .mk (.directory d) children :: rest =>
      let newPath := traversedPath ++ d.name
      (if newPath ≠ [] then [.inr ⟨d, newPath⟩] else [])
        ++ rListFilesAndDirs newPath (.mk (.directory d) children)
        ++ rListChildren traversedPath rest
  | .mk (.vnode v) children :: rest =>
      rListFilesAndDirs traversedPath (.mk (.vnode v) children)
        ++ rListChildren traversedPath rest
  | .mk (.commit _) _ :: rest => rListChildren traversedPath rest

end

/-- The files and directories of one side of a comparison. -/
structure Listing where
  files : FileSet := ∅
  dirs : DirSet := ∅

def listFilesAndDirs (root : MerkleTreeNode) : Listing where
  files := .ofList ((rListFilesAndDirs [] root).filterMap Sum.getLeft?)
  dirs := .ofList ((rListFilesAndDirs [] root).filterMap Sum.getRight?)

/-! ## The two sides -/

inductive DiffError where
  | baseTree (commit : CommitNode)
  | headTree (commit : CommitNode)
  | invalidMetadataType
deriving DecidableEq, Repr

def displayCommit (commit : CommitNode) : String :=
  commit.hash.display ++ " -> '" ++ commit.message ++ "'"

def DiffError.display : DiffError → String
  | baseTree commit => "Failed to get base tree for commit: " ++ displayCommit commit
  | headTree commit => "Failed to get head tree for commit: " ++ displayCommit commit
  | invalidMetadataType => "Invalid metadata type"

/-- A file is listed in the directory of the path that was asked for. -/
def listFile (path : PathBuf) (file : FileNode) : Listing where
  files := .ofList [⟨file, path.dropLast⟩]

def listSides (baseCommit headCommit : CommitNode) (basePath headPath : PathBuf) :
    Option MerkleTreeNode → Option MerkleTreeNode → Except DiffError (Listing × Listing)
  | some (.mk (.file base) _), some (.mk (.file head) _) =>
      .ok (listFile basePath base, listFile headPath head)
  | some (.mk (.directory base) baseChildren), some (.mk (.directory head) headChildren) =>
      .ok (listFilesAndDirs (.mk (.directory base) baseChildren),
        listFilesAndDirs (.mk (.directory head) headChildren))
  | some _, some _ => .error (.baseTree baseCommit)
  | some (.mk (.file base) _), none => .ok (listFile basePath base, {})
  | some (.mk (.directory base) baseChildren), none =>
      .ok (listFilesAndDirs (.mk (.directory base) baseChildren), {})
  | some _, none => .error (.baseTree baseCommit)
  | none, some (.mk (.file head) _) => .ok ({}, listFile headPath head)
  | none, some (.mk (.directory head) headChildren) =>
      .ok ({}, listFilesAndDirs (.mk (.directory head) headChildren))
  | none, some _ => .error (.headTree headCommit)
  | none, none => .ok ({}, {})

/-! ## The entries -/

structure ParsedResource where
  version : String
  path : PathBuf
deriving DecidableEq, Repr

structure MetadataEntry where
  filename : PathBuf
  hash : MerkleHash
  isDir : Bool
  latestCommit : MerkleHash
  resource : Option ParsedResource
  size : ℕ
  dataType : EntryDataType
  metadata : Option MerkleHash
deriving DecidableEq

structure TabularDiffSummary where
  numAddedRows : ℕ
  numAddedCols : ℕ
  numRemovedRows : ℕ
  numRemovedCols : ℕ
  schemaHasChanged : Bool
deriving DecidableEq, Repr

inductive GenericDiffSummary where
  | dir (fileCounts : AddRemoveModifyCounts)
  | tabular (summary : TabularDiffSummary)
deriving DecidableEq, Repr

structure DiffEntry where
  status : DiffEntryStatus
  dataType : EntryDataType
  filename : PathBuf
  isDir : Bool
  size : ℕ
  headResource : Option ParsedResource
  baseResource : Option ParsedResource
  headEntry : Option MetadataEntry
  baseEntry : Option MetadataEntry
  diffSummary : Option GenericDiffSummary
deriving DecidableEq

def DiffEntry.resourceFromDirNode (dirPath : PathBuf) (d : DirNode) : ParsedResource where
  version := d.lastCommitId.display
  path := dirPath

def DiffEntry.resourceFromFileNode (filePath : PathBuf) (commit : CommitNode) : ParsedResource where
  version := commit.hash.display
  path := filePath

def MetadataEntry.fromDirNode (dirPath : PathBuf) (commit : CommitNode) (d : DirNode) :
    MetadataEntry where
  filename := d.name
  hash := d.hash
  isDir := true
  latestCommit := commit.hash
  resource := some (DiffEntry.resourceFromDirNode dirPath d)
  size := d.numBytes
  dataType := .dir
  metadata := none

/-- The metadata of a file stands there by its hash. -/
def MetadataEntry.fromFileNode (filePath : PathBuf) (commit : CommitNode) (f : FileNode) :
    MetadataEntry where
  filename := f.name
  hash := f.hash
  isDir := false
  latestCommit := commit.hash
  resource := some (DiffEntry.resourceFromFileNode filePath commit)
  size := f.numBytes
  dataType := f.dataType
  metadata := f.metadataHash

/-- The counters of the nodes, without a look at the files. -/
def DirDiffSummary.fromDirNodes : Option DirNode → Option DirNode → AddRemoveModifyCounts
  | some base, some head =>
      { added := head.numFiles - base.numFiles
        removed := base.numFiles - head.numFiles
        modified := 0 }
  | some base, none => { added := 0, removed := base.numFiles, modified := 0 }
  | none, some head => { added := head.numFiles, removed := 0, modified := 0 }
  | none, none => { added := 0, removed := 0, modified := 0 }

/-- One of the two nodes is there. -/
def DiffEntry.fromDirNodes (dirPath : PathBuf) (base : Option DirNode) (baseCommit : CommitNode)
    (head : Option DirNode) (headCommit : CommitNode) (status : DiffEntryStatus) : DiffEntry where
  status
  dataType := .dir
  filename := dirPath
  isDir := true
  size := ((head.or base).map (·.numBytes)).getD 0
  headResource := head.map (resourceFromDirNode dirPath)
  baseResource := base.map (resourceFromDirNode dirPath)
  headEntry := head.map (MetadataEntry.fromDirNode dirPath headCommit)
  baseEntry := base.map (MetadataEntry.fromDirNode dirPath baseCommit)
  diffSummary := some (.dir (DirDiffSummary.fromDirNodes base head))

def DiffEntry.hasChanges (entry : DiffEntry) : Bool :=
  match entry.headEntry, entry.baseEntry with
  | some head, some base => head.hash ≠ base.hash || head.size ≠ base.size
  | _, _ => false

structure DataFrameSize where
  height : ℕ
  width : ℕ
deriving DecidableEq, Repr

/-- What a listing takes from outside: the size of a data frame that the metadata of a file
has, the number of pages, which is divided in floating point, and the order in which the
entries of a page are finished. -/
structure DiffEnv extends LocalRepository where
  tabularSize : FileNode → Option DataFrameSize
  ceilQuotient : ℕ → ℕ → ℕ
  buffered : List DiffEntry → List DiffEntry
  buffered_perm : ∀ entries, (buffered entries).Perm entries

section

variable (env : DiffEnv)

def TabularDiffWrapper.fromFileNodes :
    Option FileNode → Option FileNode → Except DiffError TabularDiffSummary
  | some base, some head =>
      match env.tabularSize base, env.tabularSize head with
      | some baseSize, some headSize =>
          .ok
            { numAddedRows := headSize.height - baseSize.height
              numAddedCols := headSize.width - baseSize.width
              numRemovedRows := baseSize.height - headSize.height
              numRemovedCols := baseSize.width - headSize.width
              schemaHasChanged := baseSize.width ≠ headSize.width }
      | _, _ => .error .invalidMetadataType
  | some base, none =>
      match env.tabularSize base with
      | some size => .ok ⟨0, 0, size.height, size.width, false⟩
      | none => .error .invalidMetadataType
  | none, some head =>
      match env.tabularSize head with
      | some size => .ok ⟨size.height, size.width, 0, 0, false⟩
      | none => .error .invalidMetadataType
  | none, none => .ok ⟨0, 0, 0, 0, false⟩

def DiffEntry.diffSummaryFromFileNodes (dataType : EntryDataType) (base head : Option FileNode) :
    Except DiffError (Option GenericDiffSummary) :=
  match dataType with
  | .tabular =>
      (TabularDiffWrapper.fromFileNodes env base head).map fun summary => some (.tabular summary)
  | _ => .ok none

structure DiffFileNode where
  path : PathBuf
  baseEntry : Option FileNode
  headEntry : Option FileNode
  status : DiffEntryStatus
deriving DecidableEq

/-- The node that is shown, of the two that may be there. -/
def DiffFileNode.currentEntry (entry : DiffFileNode) : Option FileNode :=
  entry.headEntry.or entry.baseEntry

def DiffFileNode.dataType (entry : DiffFileNode) : EntryDataType :=
  (entry.currentEntry.map (·.dataType)).getD .binary

def DiffEntry.ofFileNodes (baseCommit headCommit : CommitNode) (entry : DiffFileNode)
    (diffSummary : Option GenericDiffSummary) : DiffEntry where
  status := entry.status
  dataType := entry.dataType
  filename := entry.path
  isDir := false
  size := (entry.currentEntry.map (·.numBytes)).getD 0
  headResource := entry.headEntry.map fun _ => resourceFromFileNode entry.path headCommit
  baseResource := entry.baseEntry.map fun _ => resourceFromFileNode entry.path baseCommit
  headEntry := entry.headEntry.map (MetadataEntry.fromFileNode entry.path headCommit)
  baseEntry := entry.baseEntry.map (MetadataEntry.fromFileNode entry.path baseCommit)
  diffSummary

def DiffEntry.fromFileNodes (baseCommit headCommit : CommitNode) (entry : DiffFileNode) :
    Except DiffError DiffEntry :=
  (diffSummaryFromFileNodes env entry.dataType entry.baseEntry entry.headEntry).map
    (ofFileNodes baseCommit headCommit entry)

end

/-! ## Collecting -/

section

variable (baseDirs headDirs : DirSet) (baseCommit headCommit : CommitNode) (basePath : PathBuf)
  (baseFiles headFiles : FileSet)

def collectAddedDirectories : List DiffEntry :=
  headDirs.elems.filterMap fun headDir =>
    if baseDirs.contains headDir then none
    else some (.fromDirNodes (basePath ++ headDir.path) none baseCommit (some headDir.dirNode)
      headCommit .added)

def collectRemovedDirectories : List DiffEntry :=
  baseDirs.elems.filterMap fun baseDir =>
    if headDirs.contains baseDir then none
    else some (.fromDirNodes (basePath ++ baseDir.path) (some baseDir.dirNode) baseCommit none
      headCommit .removed)

/-- The numbers of files that differ in a directory that both sides have. -/
def fileCounts (dirPath : PathBuf) : AddRemoveModifyCounts :=
  let dirBase := baseFiles.filter fun f => dirPath <+: f.dir
  let dirHead := headFiles.filter fun f => dirPath <+: f.dir
  { added := dirHead.elems.countP fun f => !dirBase.contains f
    removed := dirBase.elems.countP fun f => !dirHead.contains f
    modified := dirHead.elems.countP fun f =>
      match dirBase.get f.path with
      | some b => b.fileNode.hash ≠ f.fileNode.hash
      | none => false }

def collectModifiedDirectories : List DiffEntry :=
  headDirs.elems.filterMap fun headDir =>
    match baseDirs.get headDir.path with
    | none => none
    | some baseDir =>
        let entry := DiffEntry.fromDirNodes (basePath ++ headDir.path) (some baseDir.dirNode)
          baseCommit (some headDir.dirNode) headCommit .modified
        if entry.hasChanges then
          some
            { entry with
              diffSummary := some (.dir (fileCounts baseFiles headFiles headDir.path)) }
        else none

def collectAddedEntries : List DiffFileNode :=
  headFiles.elems.filterMap fun headEntry =>
    if baseFiles.contains headEntry then none
    else some
      { path := basePath ++ (headEntry.dir ++ headEntry.fileNode.name)
        baseEntry := none
        headEntry := some headEntry.fileNode
        status := .added }

def collectRemovedEntries : List DiffFileNode :=
  baseFiles.elems.filterMap fun baseEntry =>
    if headFiles.contains baseEntry then none
    else some
      { path := basePath ++ (baseEntry.dir ++ baseEntry.fileNode.name)
        baseEntry := some baseEntry.fileNode
        headEntry := none
        status := .removed }

/-- Only the hashes of the contents are compared. -/
def collectModifiedEntries : List DiffFileNode :=
  headFiles.elems.filterMap fun headEntry =>
    match baseFiles.get headEntry.path with
    | none => none
    | some baseEntry =>
        if headEntry.fileNode.hash ≠ baseEntry.fileNode.hash then
          some
            { path := basePath ++ (baseEntry.dir ++ baseEntry.fileNode.name)
              baseEntry := some baseEntry.fileNode
              headEntry := some headEntry.fileNode
              status := .modified }
        else none

end

/-! ## The listing -/

structure DiffEntriesCounts where
  entries : List DiffEntry
  counts : AddRemoveModifyCounts
  pagination : Pagination
deriving DecidableEq

/-- A tree that cannot be read is taken for a missing one. -/
def readFromPathMaybe (host : Host) (db : NodeStore) (dirHashes : MerkleHash → DirHashes)
    (fuel : ℕ) (commit : CommitNode) (path : PathBuf) : Option MerkleTreeNode :=
  (CommitMerkleTree.readDepthFromPath host db dirHashes fuel commit.hash path (-1)).toOption

/-- A list in memory. -/
def sliceOf {α : Type} (elems : List α) : Option (Slice α) :=
  if h : elems.length < 2 ^ 63 then some ⟨elems, h⟩ else none

def sortedDirs (base head : Listing) (baseCommit headCommit : CommitNode) (basePath : PathBuf) :
    List DiffEntry :=
  (collectAddedDirectories base.dirs head.dirs baseCommit headCommit basePath
    ++ collectRemovedDirectories base.dirs head.dirs baseCommit headCommit basePath
    ++ collectModifiedDirectories base.dirs head.dirs baseCommit headCommit basePath base.files
      head.files).insertionSort fun a b => a.filename.display ≤ b.filename.display

def sortedFiles (base head : Listing) (basePath : PathBuf) : List DiffFileNode :=
  (collectAddedEntries basePath base.files head.files
    ++ collectRemovedEntries basePath base.files head.files
    ++ collectModifiedEntries basePath base.files head.files).insertionSort
      fun a b => a.path ≤ b.path

variable (env : DiffEnv)

/-- One page of the sorted directories and files. -/
def pageOf (baseCommit headCommit : CommitNode) (dirEntries : List DiffEntry)
    (combined : List DiffFileNode) (counts : AddRemoveModifyCounts) (page pageSize : ℕ) :
    Option (Except DiffError DiffEntriesCounts) := do
  let dirSlice ← sliceOf dirEntries
  let fileSlice ← sliceOf combined
  let (files, pagination) ←
    Paginate.paginateFilesAssumingDirs env.ceilQuotient fileSlice dirEntries.length page pageSize
  match files.mapM (DiffEntry.fromFileNodes env baseCommit headCommit) with
  | .error e => return .error e
  | .ok fileEntries =>
      let (dirs, _) ←
        Paginate.paginateDirsAssumingFiles env.ceilQuotient dirSlice combined.length page pageSize
      return .ok { entries := dirs ++ env.buffered fileEntries, counts, pagination }

def listDiffEntries (db : NodeStore) (dirHashes : MerkleHash → DirHashes) (fuel : ℕ)
    (baseCommit headCommit : CommitNode) (basePath headPath : PathBuf) (page pageSize : ℕ) :
    Option (Except DiffError DiffEntriesCounts) :=
  match listSides baseCommit headCommit basePath headPath
    (readFromPathMaybe env.toHost db dirHashes fuel baseCommit basePath)
    (readFromPathMaybe env.toHost db dirHashes fuel headCommit headPath) with
  | .error e => some (.error e)
  | .ok (base, head) =>
      pageOf env baseCommit headCommit (sortedDirs base head baseCommit headCommit basePath)
        (sortedFiles base head basePath)
        { added := (collectAddedEntries basePath base.files head.files).length
          removed := (collectRemovedEntries basePath base.files head.files).length
          modified := (collectModifiedEntries basePath base.files head.files).length }
        page pageSize

end Diff

end Oxen
