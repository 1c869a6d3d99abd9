import Oxen.Lib.LruCache
import Oxen.Model.Node

/-! Reads of the node database through its two caches, while its files change. -/

namespace Oxen

namespace NodeCache

/-- The `node` file: the node, its parent and where its children are. Offsets count children
instead of bytes. -/
structure NodeFile where
  node : EMerkleTreeNode
  parentId : MerkleHash
  lookup : List (MerkleHash × ℕ)
deriving DecidableEq

/-- The files of one node directory; each can be there without the other. -/
structure NodeDir where
  nodeFile : Option NodeFile
  /-- The `children` file. -/
  childrenFile : Option (List EMerkleTreeNode)
deriving DecidableEq

abbrev NodeFiles := MerkleHash → NodeDir

/-- A node as it is read, without its children. -/
structure ReadNode where
  hash : MerkleHash
  node : EMerkleTreeNode
  parentId : Option MerkleHash
deriving DecidableEq

inductive MerkleDbError where
  /-- A file of the node is missing. -/
  | open
  /-- The data of a child is missing. -/
  | io
deriving DecidableEq, Repr

namespace NodeDir

def openReadOnly (dir : NodeDir) : Except MerkleDbError (NodeFile × List EMerkleTreeNode) :=
  match dir.nodeFile, dir.childrenFile with
  | some nodeFile, some childrenFile => .ok (nodeFile, childrenFile)
  | _, _ => .error .open

def readChild (nodeFile : NodeFile) (data : List EMerkleTreeNode) (entry : MerkleHash × ℕ) :
    Except MerkleDbError (MerkleHash × ReadNode) :=
  match data[entry.2]? with
  | some child => .ok (entry.1, ⟨entry.1, child, some nodeFile.node.hash⟩)
  | none => .error .io

def map (nodeFile : NodeFile) (data : List EMerkleTreeNode) :
    Except MerkleDbError (List (MerkleHash × ReadNode)) :=
  nodeFile.lookup.mapM (readChild nodeFile data)

def fromHashUncached (dir : NodeDir) (hash : MerkleHash) : Except MerkleDbError ReadNode :=
  match dir.openReadOnly with
  | .ok (nodeFile, _) => .ok ⟨hash, nodeFile.node, some nodeFile.parentId⟩
  | .error e => .error e

/-- A node that cannot be opened reads as one without children. -/
def readChildrenFromHashUncached (dir : NodeDir) :
    Except MerkleDbError (List (MerkleHash × ReadNode)) :=
  match dir.openReadOnly with
  | .ok (nodeFile, data) => map nodeFile data
  | .error _ => .ok []

end NodeDir

def fromHashUncached (files : NodeFiles) (hash : MerkleHash) : Except MerkleDbError ReadNode :=
  (files hash).fromHashUncached hash

def readChildrenFromHashUncached (files : NodeFiles) (hash : MerkleHash) :
    Except MerkleDbError (List (MerkleHash × ReadNode)) :=
  (files hash).readChildrenFromHashUncached

/-! ## Changes of the files -/

inductive Change where
  /-- Both files are truncated and the node is written. -/
  | openReadWrite (node : EMerkleTreeNode) (parentId : Option MerkleHash)
  /-- By the writer that has the node open. -/
  | addChild (hash : MerkleHash) (item : EMerkleTreeNode)
  /-- An entry of an archive; a file that exists is kept. -/
  | unpackNode (hash : MerkleHash) (file : NodeFile)
  | unpackChildren (hash : MerkleHash) (file : List EMerkleTreeNode)
  /-- By a prune. -/
  | remove (hash : MerkleHash)

namespace Change

def hash : Change → MerkleHash
  | openReadWrite node _ => node.hash
  | addChild hash _ => hash
  | unpackNode hash _ => hash
  | unpackChildren hash _ => hash
  | remove hash => hash

def applyDir (dir : NodeDir) : Change → NodeDir
  | openReadWrite node parentId => ⟨some ⟨node, parentId.getD 0, []⟩, some []⟩
  | addChild _ item =>
      match dir.nodeFile, dir.childrenFile with
      | some nodeFile, some data =>
          ⟨some { nodeFile with lookup := nodeFile.lookup ++ [(item.hash, data.length)] },
            some (data ++ [item])⟩
      | _, _ => dir
  | unpackNode _ file => { dir with nodeFile := dir.nodeFile.or (some file) }
  | unpackChildren _ file => { dir with childrenFile := dir.childrenFile.or (some file) }
  | remove _ => ⟨none, none⟩

def apply (files : NodeFiles) (change : Change) : NodeFiles :=
  Function.update files change.hash (change.applyDir (files change.hash))

end Change

/-! ## Cached reads -/

structure State where
  files : NodeFiles
  nodeCache : LruCache MerkleHash ReadNode
  childrenCache : LruCache MerkleHash (List (MerkleHash × ReadNode))

namespace State

def fromHash (s : State) (hash : MerkleHash) : Except MerkleDbError ReadNode × State :=
  let (result, nodeCache) := s.nodeCache.readThrough (fromHashUncached s.files) hash
  (result, { s with nodeCache := nodeCache })

def readChildrenFromHash (s : State) (hash : MerkleHash) :
    Except MerkleDbError (List (MerkleHash × ReadNode)) × State :=
  let (result, childrenCache) :=
    s.childrenCache.readThrough (readChildrenFromHashUncached s.files) hash
  (result, { s with childrenCache := childrenCache })

end State

inductive Call where
  | write (change : Change)
  | fromHash (hash : MerkleHash)
  | readChildrenFromHash (hash : MerkleHash)

def Call.next (s : State) : Call → State
  | .write change => { s with files := change.apply s.files }
  | .fromHash hash => (s.fromHash hash).2
  | .readChildrenFromHash hash => (s.readChildrenFromHash hash).2

end NodeCache

end Oxen
