import Oxen.Model.VNodes

/-! How a commit sums up a directory when it comes to the changed directories in
some order, and to the removed entries of each in some order. -/

namespace Oxen

/-- A changed directory with its virtual nodes and its removed entries. -/
abbrev ChangedDir := PathBuf × List EntryVNode × List StagedMerkleTreeNode

/-- What an iteration over the changed directories may come to: every one once,
its virtual nodes as they are, its removed entries in any order. -/
def IsOrder (entries : VNodeEntries) (order : List ChangedDir) : Prop :=
  ∃ dirs, dirs.Perm (KeyedMap.toList entries) ∧
    List.Forall₂ (fun (x y : ChangedDir) => x.1 = y.1 ∧ x.2.1 = y.2.1 ∧ x.2.2.Perm y.2.2) order dirs

def getChildrenIn (order : List ChangedDir) (dirPath : PathBuf) : List ChangedDir :=
  order.filter fun child => dirPath <+: child.1

/-- What the hasher is fed for one virtual node. -/
def vnodeBytes (vnode : EntryVNode) : List UInt8 :=
  vnode.id.toLeBytes ++ vnode.entries.flatMap fun entry =>
    entry.path.toBytes ++ (entryHash entry).toLeBytes

/-- What the hasher is fed for one changed directory. -/
def ChangedDir.bytes (dir : ChangedDir) : List UInt8 :=
  dir.2.1.flatMap vnodeBytes

/-- What the hasher is fed for a directory, its own path and then the changed
directories at or below it. -/
def digestBytes (path : PathBuf) (children : List ChangedDir) : List UInt8 :=
  utf8 "dir" ++ path.toBytes ++ children.flatMap ChangedDir.bytes

def dirTotalsIn (order : List ChangedDir) (oldDir : Option DirNode)
    (oldFile : PathBuf → Option FileNode) (path : PathBuf) : DirTotals :=
  (getChildrenIn order path).foldl
    (fun totals (child, vnodes, removedEntries) =>
      removedEntries.foldl (DirTotals.removeEntry (path = child))
        ((vnodes.flatMap (·.entries)).foldl
          (DirTotals.addEntry (fun name => oldFile (path ++ name)) (path = child)) totals))
    ((oldDir.map DirTotals.ofDirNode).getD {})

def computeDirNodeIn (host : Host) (commitId : MerkleHash) (order : List ChangedDir)
    (oldDir : PathBuf → Option DirNode) (oldFile : PathBuf → Option FileNode) (path : PathBuf) :
    DirNode :=
  let totals := dirTotalsIn order (oldDir path) oldFile path
  { name := leafName path
    hash := host.xxh3 (digestBytes path (getChildrenIn order path))
    numEntries := totals.numEntries
    numBytes := totals.numBytes
    lastCommitId := commitId
    dataTypeCounts := totals.dataTypeCounts
    dataTypeSizes := totals.dataTypeSizes }

/-- The writer comes to the directories in the order of its map. -/
theorem computeDirNode_eq (host : Host) (commitId : MerkleHash) (entries : VNodeEntries)
    (oldDir : PathBuf → Option DirNode) (oldFile : PathBuf → Option FileNode) (path : PathBuf) :
    computeDirNode host commitId entries oldDir oldFile path =
      computeDirNodeIn host commitId (KeyedMap.toList entries) oldDir oldFile path :=
  rfl

end Oxen
