import Mathlib.Algebra.Group.Int.Defs
import Oxen.Model.Node

/-! The Merkle node database and the loaders that rebuild trees from it. -/

namespace Oxen

/-- The `node` and `children` files of one node directory. -/
structure NodeDb where
  node : EMerkleTreeNode
  parentId : Option MerkleHash := none
  children : List EMerkleTreeNode := []
deriving DecidableEq

/-- One node directory for each hash. Opening a directory for writing truncates
both of its files, so a later write replaces the whole record. -/
abbrev NodeStore := MerkleHash → Option NodeDb

namespace NodeStore

def write (db : NodeStore) (record : NodeDb) : NodeStore :=
  Function.update db record.node.hash (some record)

/-- A node directory that is missing reads as a node without children. -/
def readChildrenFromHash (db : NodeStore) (hash : MerkleHash) : List EMerkleTreeNode :=
  match db hash with
  | none => []
  | some record => record.children

end NodeStore

/-- The part of a file node that a checkout compares the working tree with. -/
structure PartialNode where
  hash : MerkleHash
  lastModified : FileTime
  size : Nat
deriving DecidableEq, Repr

/-- The time of a node, added to the epoch. The sum panics when it leaves the range
of `i64` seconds; a negative number of seconds always does, for it is cast to `u64`. -/
def lastModifiedTime (seconds : Int) (nanoseconds : Nat) : Option FileTime :=
  if 0 ≤ seconds ∧ seconds + nanoseconds / 1000000000 < 2 ^ 63 then
    some (seconds * 1000000000 + nanoseconds)
  else none

/-- The modification time that was recorded. -/
def FileNode.lastModified (f : FileNode) : FileTime :=
  f.lastModifiedSeconds * 1000000000 + f.lastModifiedNanoseconds

/-- The recorded time is one that the code can compute. -/
def FileNode.hasTime (f : FileNode) : Bool :=
  (lastModifiedTime f.lastModifiedSeconds f.lastModifiedNanoseconds).isSome

theorem FileNode.lastModifiedTime_eq (f : FileNode) :
    lastModifiedTime f.lastModifiedSeconds f.lastModifiedNanoseconds =
      if f.hasTime then some f.lastModified else none := by
  simp only [FileNode.hasTime, FileNode.lastModified, lastModifiedTime]
  split <;> simp

/-- A time that can be computed is none before the epoch. -/
theorem FileNode.lastModified_nonneg {f : FileNode} (h : f.hasTime = true) :
    0 ≤ f.lastModified := by
  simp only [FileNode.hasTime, lastModifiedTime] at h
  split at h
  · rename_i hrange
    exact Int.add_nonneg (Int.mul_nonneg hrange.1 (by decide)) (Int.natCast_nonneg _)
  · cases h

def FileNode.toPartialNode (f : FileNode) : PartialNode :=
  { hash := f.hash, lastModified := f.lastModified, size := f.numBytes }

/-- A loaded node with the hashes and the partial nodes collected on the way. The
load has panicked if the time of one of the partial nodes could not be computed. -/
structure LoadedNode where
  tree : MerkleTreeNode
  uniqueHashes : List MerkleHash := []
  sharedHashes : List MerkleHash := []
  partialNodes : List (PathBuf × PartialNode) := []
  panicked : Bool := false

/-- A file is a leaf that leaves a partial node; any other child is loaded at
its own path. -/
def loadChild (load : PathBuf → EMerkleTreeNode → LoadedNode) (currentPath : PathBuf) :
    EMerkleTreeNode → LoadedNode
  | .file f =>
      { tree := .mk (.file f) []
        partialNodes := [(currentPath ++ f.name, f.toPartialNode)]
        panicked := !f.hasTime }
  | child => load (child.ownPath currentPath) child

/-- Loads a node to any depth. Nodes whose hash is among `baseHashes` are
reported as shared and keep no children. The fuel bounds the height. -/
def loadChildrenAndCollectPartialNodes (db : NodeStore) (baseHashes : List MerkleHash) :
    ℕ → PathBuf → EMerkleTreeNode → LoadedNode
  | 0, _, node => { tree := .mk node [] }
  | fuel + 1, currentPath, node =>
      if !node.hasChildren then
        { tree := .mk node [] }
      else if node.hash ∈ baseHashes then
        { tree := .mk node [], sharedHashes := [node.hash] }
      else
        let children := (db.readChildrenFromHash node.hash).map
          (loadChild (loadChildrenAndCollectPartialNodes db baseHashes fuel) currentPath)
        { tree := .mk node (children.map (·.tree))
          uniqueHashes := node.hash :: children.flatMap (·.uniqueHashes)
          sharedHashes := children.flatMap (·.sharedHashes)
          partialNodes := children.flatMap (·.partialNodes)
          panicked := children.any (·.panicked) }

/-- The same traversal without partial nodes and their times. -/
def loadChildren (db : NodeStore) (baseHashes : List MerkleHash) (fuel : ℕ)
    (node : EMerkleTreeNode) : LoadedNode :=
  { loadChildrenAndCollectPartialNodes db baseHashes fuel [] node with
    partialNodes := []
    panicked := false }

def rootWithChildrenAndNodeHashes (db : NodeStore) (baseHashes : List MerkleHash) (fuel : ℕ)
    (commitId : MerkleHash) : Option LoadedNode :=
  (db commitId).map fun record => loadChildren db baseHashes fuel record.node

def rootWithChildrenAndPartialNodes (db : NodeStore) (baseHashes : List MerkleHash) (fuel : ℕ)
    (commitId : MerkleHash) : Option LoadedNode :=
  (db commitId).map fun record =>
    loadChildrenAndCollectPartialNodes db baseHashes fuel [] record.node

end Oxen
