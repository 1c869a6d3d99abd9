import Oxen.Model.CommitMerkleTree
import Oxen.Model.Revisions

/-! Searches for a path in a loaded tree. -/

namespace Oxen

namespace MerkleTreeNode

/-- Halves the range of a slice that starts at `base` until one item is left. -/
def binarySearchLoop {α : Type*} (compare : α → Ordering) (items : List α) :
    ℕ → ℕ → ℕ → Option ℕ
  | 0, _, _ => none
  | fuel + 1, base, size =>
      if 1 < size then
        let half := size / 2
        let mid := base + half
        let base := if (items[mid]?.map compare) = some .gt then base else mid
        binarySearchLoop compare items fuel base (size - half)
      else if (items[base]?.map compare) = some .eq then some base
      else none

/-- The index of an item that compares equal; the items should be in order. -/
def binarySearchBy {α : Type*} (compare : α → Ordering) (items : List α) : Option ℕ :=
  binarySearchLoop compare items items.length 0 items.length

def childName : MerkleTreeNode → String
  | .mk (.directory d) _ => d.name.display
  | .mk (.file f) _ => f.name.display
  | _ => ""

/-- Only directories add to the path that was traversed. -/
def traversedTo (traversedPath : PathBuf) : MerkleTreeNode → PathBuf
  | .mk (.directory d) _ => traversedPath ++ d.name
  | _ => traversedPath

def isAtPath (traversedPath path : PathBuf) : EMerkleTreeNode → Bool
  | .file f => traversedPath ++ f.name = path
  | .directory _ => traversedPath = path
  | _ => false

/-- The child of a virtual node that the binary search finds. -/
def searchedChild (path : PathBuf) (children : List MerkleTreeNode) : EMerkleTreeNode → Option ℕ
  | .vnode _ =>
      binarySearchBy (fun child => compare child.childName (path.getLast?.getD "")) children
  | _ => none

mutual

/-- First the child that the binary search finds, then all children in order. -/
def getByPathHelper (traversedPath path : PathBuf) : MerkleTreeNode → Option MerkleTreeNode
  | .mk node children =>
      if path.length < traversedPath.length then none
      else if isAtPath traversedPath path node then some (.mk node children)
      else
        match searchedChild path children node with
        | none => getByPathChildren traversedPath path children
        | some index =>
            (getByPathChild traversedPath path index children).or
              (getByPathChildren traversedPath path children)

def getByPathChild (traversedPath path : PathBuf) : ℕ → List MerkleTreeNode → Option MerkleTreeNode
  | _, [] => none
  | 0, child :: _ => getByPathHelper (traversedTo traversedPath child) path child
  | index + 1, _ :: children => getByPathChild traversedPath path index children

def getByPathChildren (traversedPath path : PathBuf) : List MerkleTreeNode → Option MerkleTreeNode
  | [] => none
  | child :: children =>
      (getByPathHelper (traversedTo traversedPath child) path child).or
        (getByPathChildren traversedPath path children)

end

def getByPath (tree : MerkleTreeNode) (path : PathBuf) : Option MerkleTreeNode :=
  getByPathHelper [] path tree

/-- The file that a node is. -/
def fileNode? : MerkleTreeNode → Option FileNode
  | .mk (.file f) _ => some f
  | _ => none

end MerkleTreeNode

/-- A node with everything below it. The fuel bounds the height. -/
def getNodeByIdWithChildren (db : NodeStore) (fuel : ℕ) (hash : MerkleHash) :
    Option MerkleTreeNode :=
  (rootWithChildrenAndNodeHashes db [] fuel hash).map (·.tree)

namespace CommitMerkleTree

/-! ## Loads of limited depth -/

/-- Whether a load goes on in a child. A requested depth of -1 has no end, and
depth 0 goes on in virtual nodes only. -/
def goesDeeper (requestedDepth traversedDepth : ℤ) : EMerkleTreeNode → Bool
  | .file _ => false
  | .vnode _ => requestedDepth > traversedDepth || requestedDepth = -1 || requestedDepth = 0
  | _ => requestedDepth > traversedDepth || requestedDepth = -1

/-- Virtual nodes do not count. -/
def depthOfChild (traversedDepth : ℤ) : EMerkleTreeNode → ℤ
  | .vnode _ => traversedDepth
  | _ => traversedDepth + 1

/-- The fuel bounds the height. -/
def loadChildrenToDepth (db : NodeStore) (requestedDepth : ℤ) :
    ℕ → ℤ → EMerkleTreeNode → MerkleTreeNode
  | 0, _, node => .mk node []
  | fuel + 1, traversedDepth, node =>
      if node.hasChildren then
        .mk node ((db.readChildrenFromHash node.hash).map fun child =>
          if goesDeeper requestedDepth traversedDepth child then
            loadChildrenToDepth db requestedDepth fuel (depthOfChild traversedDepth child) child
          else .mk child [])
      else .mk node []

def readDepth (db : NodeStore) (fuel : ℕ) (hash : MerkleHash) (depth : ℤ) :
    Option MerkleTreeNode :=
  (db hash).map fun record => loadChildrenToDepth db depth fuel 0 record.node

/-! ## Reading through the index -/

/-- What `readFile` finds, as it is loaded. -/
def readFileNode (host : Host) (db : NodeStore) (dirHashes : DirHashes) (fuel : ℕ)
    (path : PathBuf) : Option MerkleTreeNode := do
  let fileName ← path.getLast?
  let nodeHash ← dirHashes.lookup path.dropLast
  let dirMerkleNode ← readDepth db fuel nodeHash 0
  let vnodes := dirMerkleNode.children
  let vnodeWithoutChildren ← vnodes[bucketOf host path vnodes.length]?
  let vnodeWithChildren ← readDepth db fuel vnodeWithoutChildren.hash 0
  vnodeWithChildren.getByPath [fileName]

inductive NotFoundError where
  | dir (path : PathBuf) (commitId : MerkleHash)
  | file (path : PathBuf) (commitId : MerkleHash)
deriving DecidableEq, Repr

def NotFoundError.display : NotFoundError → String
  | dir path commitId =>
      "Merkle tree hash not found for dir: '" ++ path.display ++ "' in commit: \""
        ++ MerkleHash.display commitId ++ "\""
  | file path commitId =>
      "Merkle tree hash not found for file: '" ++ path.display ++ "' in commit: '"
        ++ MerkleHash.display commitId ++ "'"

/-- A path in the index is taken for a directory. -/
def readDepthFromPath (host : Host) (db : NodeStore) (dirHashes : MerkleHash → DirHashes)
    (fuel : ℕ) (commitId : MerkleHash) (path : PathBuf) (depth : ℤ) :
    Except NotFoundError MerkleTreeNode :=
  match (dirHashes commitId).lookup path with
  | some nodeHash =>
      match readDepth db fuel nodeHash depth with
      | none => .error (.dir path commitId)
      | some root => .ok root
  | none =>
      match readFileNode host db (dirHashes commitId) fuel path with
      | none => .error (.file path commitId)
      | some node => .ok node

/-- An unwrap that finds nothing. -/
inductive UnwrapError where
  | node (hash : MerkleHash)
  | parent
deriving DecidableEq, Repr

def unwrapNode (db : NodeStore) (fuel : ℕ) (hash : MerkleHash) :
    Except UnwrapError MerkleTreeNode :=
  match getNodeByIdWithChildren db fuel hash with
  | none => .error (.node hash)
  | some node => .ok node

def hasPath (db : NodeStore) (dirHashes : DirHashes) (fuel : ℕ) (path : PathBuf) :
    Except UnwrapError Bool :=
  match dirHashes.lookup path with
  | some dirHash => do
      let node ← unwrapNode db fuel dirHash
      .ok (node.getByPath path).isSome
  | none =>
      if path = [] then .error .parent
      else
        match dirHashes.lookup path.dropLast with
        | none => .ok false
        | some parentHash => do
            let node ← unwrapNode db fuel parentHash
            .ok (node.getByPath path).isSome

end CommitMerkleTree

end Oxen
