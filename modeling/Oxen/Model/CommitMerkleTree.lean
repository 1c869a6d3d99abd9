import Oxen.Lib.KeyedMap
import Oxen.Model.WorkingTree

/-! Lookups in the tree of a commit through its index of directories. -/

namespace Oxen

/-- The `dir_hashes` database of a commit: the node of every directory. -/
abbrev DirHashes := KeyedMap.Map PathBuf MerkleHash

namespace CommitMerkleTree

/-- The child of a virtual node with the given leaf name. -/
def getByName (children : List EMerkleTreeNode) (name : String) : Option EMerkleTreeNode :=
  children.find? fun
    | .file f => f.name = [name]
    | .directory d => d.name = [name]
    | _ => false

/-- The virtual node that a path falls into. -/
def bucketOf (host : Host) (path : PathBuf) (numVNodes : ℕ) : ℕ :=
  (host.xxh3 path.toBytes).toNat % numVNodes

/-- Goes to the directory of a path through the index, and from there to the
virtual node whose bucket the path falls into. -/
def readFile (host : Host) (db : NodeStore) (dirHashes : DirHashes) (path : PathBuf) :
    Option EMerkleTreeNode := do
  let fileName ← path.getLast?
  let nodeHash ← dirHashes.lookup path.dropLast
  let _ ← db nodeHash
  let vnodes := db.readChildrenFromHash nodeHash
  let vnode ← vnodes[bucketOf host path vnodes.length]?
  let _ ← db vnode.hash
  getByName (db.readChildrenFromHash vnode.hash) fileName

/-- The node at a path. A path in the index is taken for a directory. -/
def getNodeByPath (host : Host) (db : NodeStore) (dirHashes : DirHashes) (path : PathBuf) :
    Option EMerkleTreeNode :=
  match dirHashes.lookup path with
  | some nodeHash => (db nodeHash).map (·.node)
  | none => readFile host db dirHashes path

def getFileByPath (host : Host) (db : NodeStore) (dirHashes : DirHashes) (path : PathBuf) :
    Option FileNode :=
  match getNodeByPath host db dirHashes path with
  | some (.file f) => some f
  | _ => none

end CommitMerkleTree

namespace MerkleTreeNode

mutual

/-- All files that do not lie in a shared container. -/
def uniqueDirEntries (sharedHashes : List MerkleHash) (basePath : PathBuf) :
    MerkleTreeNode → List (PathBuf × FileNode)
  | .mk n cs =>
      if n.hasChildren ∧ n.hash ∉ sharedHashes then uniqueChildren sharedHashes basePath cs else []

def uniqueChildren (sharedHashes : List MerkleHash) (basePath : PathBuf) :
    List MerkleTreeNode → List (PathBuf × FileNode)
  | [] => []
  | .mk (.file f) _ :: rest =>
      (basePath ++ f.name, f) :: uniqueChildren sharedHashes basePath rest
  | .mk (.directory d) cs :: rest =>
      uniqueDirEntries sharedHashes (basePath ++ d.name) (.mk (.directory d) cs)
        ++ uniqueChildren sharedHashes basePath rest
  | .mk (.vnode v) cs :: rest =>
      uniqueDirEntries sharedHashes basePath (.mk (.vnode v) cs)
        ++ uniqueChildren sharedHashes basePath rest
  | .mk (.commit _) _ :: rest => uniqueChildren sharedHashes basePath rest

end

end MerkleTreeNode

end Oxen
