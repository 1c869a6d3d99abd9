import Mathlib.Data.List.Sort
import Oxen.Model.Merge
import Oxen.Model.Revisions

/-! How a commit distributes the entries of a directory over virtual nodes, and
how it sums up a directory. -/

namespace Oxen

def utf8 (s : String) : List UInt8 :=
  s.toList.flatMap String.utf8EncodeChar

/-- A file or directory to commit. Its name is its full path. -/
structure StagedMerkleTreeNode where
  status : StagedEntryStatus
  node : EMerkleTreeNode
deriving DecidableEq

namespace StagedMerkleTreeNode

/-- Nodes other than files and directories have no path. -/
def path (entry : StagedMerkleTreeNode) : PathBuf :=
  entry.node.ownPath []

def setName (entry : StagedMerkleTreeNode) (path : PathBuf) : StagedMerkleTreeNode :=
  match entry.node with
  | .file f => { entry with node := .file { f with name := path } }
  | .directory d => { entry with node := .directory { d with name := path } }
  | _ => entry

end StagedMerkleTreeNode

/-- The staged entries of every directory that has some. -/
abbrev DirEntries := KeyedMap.Map PathBuf (List StagedMerkleTreeNode)

structure NewCommitBody where
  message : String := ""
  author : String := ""
  email : String := ""

/-- What one commit takes from outside: the number of virtual nodes for a number
of children, which the source divides in floating point; fresh uuids; the clock,
in nanoseconds. -/
structure CommitEnv extends LocalRepository where
  numVNodes : ℕ → ℕ
  numVNodes_zero : numVNodes 0 = 0
  numVNodes_pos : ∀ n, 0 < n → 0 < numVNodes n
  uuid : PathBuf → ℕ → List UInt8
  timestamp : ℕ
  newCommit : NewCommitBody := {}

/-- A virtual node to write. -/
structure EntryVNode where
  id : MerkleHash
  entries : List StagedMerkleTreeNode
deriving DecidableEq

/-- For every directory to write its virtual nodes and its removed entries. -/
abbrev VNodeEntries :=
  KeyedMap.Map PathBuf (List EntryVNode × List StagedMerkleTreeNode)

/-- The children of a directory, and those that were staged as removed. -/
structure DirChildren where
  children : KeyedMap.Map PathBuf StagedMerkleTreeNode := ∅
  removed : KeyedMap.Map PathBuf StagedMerkleTreeNode := ∅

section Split

variable (env : CommitEnv) (db : NodeStore) (dirHashes : DirHashes)

/-- The directories of the previous tree are found through its index. -/
def existingNode (directory : PathBuf) : Option MerkleHash :=
  (dirHashes.lookup directory).filter fun hash => (db hash).isSome

def nodeDataToStagedNode (baseDir : PathBuf) : EMerkleTreeNode → Option StagedMerkleTreeNode
  | .directory d => some ⟨.unmodified, .directory { d with name := baseDir ++ d.name }⟩
  | .file f => some ⟨.unmodified, .file { f with name := baseDir ++ f.name }⟩
  | _ => none

def listFilesAndFolders (hash : MerkleHash) : List EMerkleTreeNode :=
  (db.readChildrenFromHash hash).flatMap fun
    | .vnode v => db.readChildrenFromHash v.hash
    | _ => []

def getNodeDirChildren (baseDir : PathBuf) (hash : MerkleHash) :
    KeyedMap.Map PathBuf StagedMerkleTreeNode :=
  ((listFilesAndFolders db hash).filterMap (nodeDataToStagedNode baseDir)).foldl
    (fun m entry => KeyedMap.insertNew m entry.path entry) ∅

/-- Puts or removes one staged child. A leaf name is completed to a full path. -/
def updateChildren (directory : PathBuf) (dir : DirChildren) (child : StagedMerkleTreeNode) :
    DirChildren :=
  if child.path = [] then dir
  else
    let child :=
      if directory ≠ [] ∧ ¬ directory <+: child.path then child.setName (directory ++ child.path)
      else child
    match child.status with
    | .removed =>
        { children := dir.children.erase child.path
          removed := KeyedMap.insertNew dir.removed child.path child }
    | _ => { dir with children := dir.children.insert child.path child }

def dirChildren (directory : PathBuf) (newChildren : List StagedMerkleTreeNode) : DirChildren :=
  newChildren.foldl (updateChildren directory)
    { children := ((existingNode db dirHashes directory).map
        (getNodeDirChildren db directory)).getD ∅ }

/-- Files count with their combined hash. -/
def entryHash (entry : StagedMerkleTreeNode) : MerkleHash :=
  match entry.node with
  | .file f => f.combinedHash
  | node => node.hash

/-- A virtual node with changes in a directory that exists already is new. -/
def vnodeId (directory : PathBuf) (bucket : ℕ) (entries : List StagedMerkleTreeNode) :
    MerkleHash :=
  let hasNewEntries := entries.any (·.status ≠ .unmodified)
  env.xxh3 (utf8 "vnode" ++ directory.toBytes
    ++ entries.flatMap (fun entry => (entryHash entry).toLeBytes)
    ++ if (existingNode db dirHashes directory).isSome ∧ hasNewEntries
      then env.uuid directory bucket else [])

/-- The entries of one bucket, by path. -/
def bucketEntries (children : List StagedMerkleTreeNode) (bucket : ℕ) :
    List StagedMerkleTreeNode :=
  (children.filter fun child =>
    CommitMerkleTree.bucketOf env.toHost child.path (env.numVNodes children.length) = bucket)
    |>.insertionSort fun a b => a.path ≤ b.path

def splitDirectory (directory : PathBuf) (newChildren : List StagedMerkleTreeNode) :
    List EntryVNode × List StagedMerkleTreeNode :=
  let dir := dirChildren db dirHashes directory newChildren
  let children := (KeyedMap.toList dir.children).map Prod.snd
  ((List.range (env.numVNodes children.length)).map fun bucket =>
      let entries := bucketEntries env children bucket
      { id := vnodeId env db dirHashes directory bucket entries, entries },
    (KeyedMap.toList dir.removed).map Prod.snd)

def splitIntoVNodes (entries : DirEntries) : VNodeEntries :=
  KeyedMap.mapValues (splitDirectory env db dirHashes) entries

end Split

/-- The value that a 64-bit register holds. -/
def u64 (n : ℤ) : ℕ :=
  (n % 2 ^ 64).toNat

def TypeCounts.get (counts : TypeCounts) (dataType : EntryDataType) : ℕ :=
  (counts.lookup dataType.display).getD 0

def TypeCounts.add (counts : TypeCounts) (dataType : EntryDataType) (n : ℤ) : TypeCounts :=
  counts.insert dataType.display (u64 (counts.get dataType + n))

/-- Only counters that exist are lowered. -/
def TypeCounts.saturatingSub (counts : TypeCounts) (dataType : EntryDataType) (n : ℕ) :
    TypeCounts :=
  match counts.lookup dataType.display with
  | some count => counts.insert dataType.display (count - n)
  | none => counts

/-- The metadata of a directory that is summed up. -/
structure DirTotals where
  numBytes : ℕ := 0
  numEntries : ℕ := 0
  dataTypeCounts : TypeCounts := ∅
  dataTypeSizes : TypeCounts := ∅

namespace DirTotals

def ofDirNode (d : DirNode) : DirTotals where
  numBytes := d.numBytes
  numEntries := d.numEntries
  dataTypeCounts := d.dataTypeCounts
  dataTypeSizes := d.dataTypeSizes

/-- Accounts for an entry of a virtual node of the directory itself or of one
below it. A modified file changes the size by the difference to the old file. -/
def addEntry (oldFile : PathBuf → Option FileNode) (direct : Bool) (totals : DirTotals)
    (entry : StagedMerkleTreeNode) : DirTotals :=
  match entry.node with
  | .directory _ =>
      if direct then { totals with numEntries := u64 (totals.numEntries + 1) } else totals
  | .file f =>
      match entry.status with
      | .added =>
          { numBytes := u64 (totals.numBytes + f.numBytes)
            numEntries := if direct then u64 (totals.numEntries + 1) else totals.numEntries
            dataTypeCounts := totals.dataTypeCounts.add f.dataType 1
            dataTypeSizes := totals.dataTypeSizes.add f.dataType f.numBytes }
      | .modified =>
          match oldFile f.name with
          | some old =>
              let delta : ℤ := f.numBytes - old.numBytes
              { totals with
                numBytes := u64 (totals.numBytes + delta)
                dataTypeSizes := totals.dataTypeSizes.add f.dataType delta }
          | none => totals
      | _ => totals
  | _ => totals

def removeEntry (direct : Bool) (totals : DirTotals) (entry : StagedMerkleTreeNode) :
    DirTotals :=
  match entry.node with
  | .file f =>
      if entry.status = .removed then
        { numBytes := totals.numBytes - f.numBytes
          numEntries := if direct then u64 (totals.numEntries - 1) else totals.numEntries
          dataTypeCounts := totals.dataTypeCounts.saturatingSub f.dataType 1
          dataTypeSizes := totals.dataTypeSizes.saturatingSub f.dataType f.numBytes }
      else totals
  | _ => totals

end DirTotals

/-- The directories to write at or below a path. -/
def getChildren (entries : VNodeEntries) (dirPath : PathBuf) :
    List (PathBuf × List EntryVNode × List StagedMerkleTreeNode) :=
  (KeyedMap.toList entries).filter fun child => dirPath <+: child.1

def dirHashBytes (entries : VNodeEntries) (path : PathBuf) : List UInt8 :=
  utf8 "dir" ++ path.toBytes ++
    (getChildren entries path).flatMap fun (_, vnodes, _) =>
      vnodes.flatMap fun vnode =>
        vnode.id.toLeBytes ++ vnode.entries.flatMap fun entry =>
          entry.path.toBytes ++ (entryHash entry).toLeBytes

/-- The totals start from the old directory and account for everything that is
written at or below it. -/
def dirTotals (entries : VNodeEntries) (oldDir : Option DirNode)
    (oldFile : PathBuf → Option FileNode) (path : PathBuf) : DirTotals :=
  (getChildren entries path).foldl
    (fun totals (child, vnodes, removedEntries) =>
      removedEntries.foldl (DirTotals.removeEntry (path = child))
        ((vnodes.flatMap (·.entries)).foldl
          (DirTotals.addEntry (fun name => oldFile (path ++ name)) (path = child)) totals))
    ((oldDir.map DirTotals.ofDirNode).getD {})

def leafName (path : PathBuf) : PathBuf :=
  path.getLast?.toList

def computeDirNode (host : Host) (commitId : MerkleHash) (entries : VNodeEntries)
    (oldDir : PathBuf → Option DirNode) (oldFile : PathBuf → Option FileNode) (path : PathBuf) :
    DirNode :=
  let totals := dirTotals entries (oldDir path) oldFile path
  { name := leafName path
    hash := host.xxh3 (dirHashBytes entries path)
    numEntries := totals.numEntries
    numBytes := totals.numBytes
    lastCommitId := commitId
    dataTypeCounts := totals.dataTypeCounts
    dataTypeSizes := totals.dataTypeSizes }

end Oxen
