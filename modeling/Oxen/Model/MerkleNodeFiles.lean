import Oxen.Lib.Binary
import Oxen.Model.Node

/-! The `node` and `children` files of one Merkle node. -/

namespace Oxen

namespace NodeFiles

open Binary

inductive MerkleTreeNodeType where
  | commit | dir | vnode | file | fileChunk
deriving DecidableEq, Repr

namespace MerkleTreeNodeType

def toU8 : MerkleTreeNodeType → UInt8
  | .commit => 0
  | .dir => 1
  | .vnode => 2
  | .file => 3
  | .fileChunk => 4

def fromU8 (val : UInt8) : Option MerkleTreeNodeType :=
  if val = 0 then some .commit
  else if val = 1 then some .dir
  else if val = 2 then some .vnode
  else if val = 3 then some .file
  else if val = 4 then some .fileChunk
  else none

end MerkleTreeNodeType

/-- Nodes and their serialization. -/
structure NodeFormat (Node : Type) where
  nodeType : Node → MerkleTreeNodeType
  hash : Node → MerkleHash
  toMsgpackBytes : Node → Option Content
  deserialize : MerkleTreeNodeType → Content → Option Node

inductive MerkleDbError where
  | closeBeforeOpen
  | readOnly
  | illegalOperationWriteSizeFirst
  | writeBeforeOpen
  | readBeforeOpen
  | io
  | encode
  | decode
  | typeMismatch (val : UInt8)
deriving DecidableEq, Repr

def orElse {α : Type} (error : MerkleDbError) : Option α → Except MerkleDbError α
  | none => .error error
  | some x => .ok x

def nodeTypeOf (val : UInt8) : Except MerkleDbError MerkleTreeNodeType :=
  orElse (.typeMismatch val) (MerkleTreeNodeType.fromU8 val)

/-! ## Files -/

structure File where
  bytes : Content := []
  position : ℕ := 0
deriving DecidableEq, Repr

/-- File offsets are signed 64-bit numbers. -/
def maxFileSize : ℕ := 2 ^ 63 - 1

namespace File

def writeAll (f : File) (buf : Content) : Except MerkleDbError File :=
  if maxFileSize < f.position + buf.length then .error .io
  else
    .ok
      { bytes := f.bytes.take f.position ++ buf ++ f.bytes.drop (f.position + buf.length)
        position := f.position + buf.length }

def readToEnd (f : File) : Content × File :=
  (f.bytes.drop f.position, { f with position := max f.position f.bytes.length })

end File

/-! ## The lookup table -/

/-- The place of a child in the `children` file. -/
structure ChildOffset where
  hash : MerkleHash
  dataType : UInt8
  dataOffset : UInt64
  dataLen : UInt64
deriving DecidableEq, Repr

structure MerkleNodeLookup where
  dataType : UInt8
  parentId : MerkleHash
  data : Content
  numChildren : ℕ
  offsets : List ChildOffset
deriving DecidableEq, Repr

def readU8 : Reader UInt8 := UInt8.ofNat <$> readLe 1
def readU32 : Reader UInt32 := UInt32.ofNat <$> readLe 4
def readU64 : Reader UInt64 := UInt64.ofNat <$> readLe 8
def readU128 : Reader MerkleHash := BitVec.ofNat 128 <$> readLe 16

def readChildOffset (dataType : UInt8) : Reader ChildOffset := do
  let hash ← readU128
  let dataOffset ← readU64
  let dataLen ← readU64
  return { hash, dataType, dataOffset, dataLen }

def readHeader : Reader (UInt8 × MerkleHash × Content) := do
  let dataType ← readU8
  let parentId ← readU128
  let dataLen ← readU32
  let data ← readExact dataLen.toNat
  return (dataType, parentId, data)

/-- Every iteration of the loop reads a byte, so there are no more records than
bytes. -/
def MerkleNodeLookup.load (fileData : Content) : Except MerkleDbError MerkleNodeLookup :=
  orElse .io do
    let ((dataType, parentId, data), rest) ← readHeader fileData
    let offsets ← readWhile readU8 readChildOffset rest.length rest
    return { dataType, parentId, data, numChildren := offsets.length, offsets }

/-! ## The database of one node -/

structure MerkleNodeDB where
  dtype : MerkleTreeNodeType := .commit
  nodeId : MerkleHash := 0
  parentId : Option MerkleHash := none
  readOnly : Bool
  nodeFile : Option File
  childrenFile : Option File
  lookup : Option MerkleNodeLookup := none
  data : Content := []
  numChildren : ℕ := 0
  dataOffset : UInt64 := 0
deriving DecidableEq

/-- A node as it is loaded from the `children` file. -/
structure LoadedChild (Node : Type) where
  parentId : Option MerkleHash
  hash : MerkleHash
  node : Node
deriving DecidableEq

namespace MerkleNodeDB

variable {Node : Type}

def countChildren (db : MerkleNodeDB) : ℕ :=
  (db.lookup.map (·.numChildren)).getD db.numChildren

def nodeData (db : MerkleNodeDB) : Content :=
  (db.lookup.map (·.data)).getD db.data

def toNode (format : NodeFormat Node) (dtype : MerkleTreeNodeType) (data : Content) :
    Except MerkleDbError Node :=
  orElse .decode (format.deserialize dtype data)

def node (format : NodeFormat Node) (db : MerkleNodeDB) : Except MerkleDbError Node :=
  toNode format db.dtype db.nodeData

/-- Opening for writing truncates both files. -/
def openForWriting : MerkleNodeDB :=
  { readOnly := false, nodeFile := some {}, childrenFile := some {} }

def openReadOnly (nodeBytes childrenBytes : Content) : Except MerkleDbError MerkleNodeDB := do
  let lookup ← MerkleNodeLookup.load nodeBytes
  let dtype ← nodeTypeOf lookup.dataType
  return {
    readOnly := true
    dtype
    parentId := some lookup.parentId
    nodeFile := some { bytes := nodeBytes, position := nodeBytes.length }
    childrenFile := some { bytes := childrenBytes }
    lookup := some lookup }

/-- A node without a parent has the parent id 0 in the file. -/
def writeNode (format : NodeFormat Node) (db : MerkleNodeDB) (node : Node)
    (parentId : Option MerkleHash) : Except MerkleDbError MerkleNodeDB :=
  if db.readOnly then .error .readOnly
  else if 0 < db.dataOffset then .error .illegalOperationWriteSizeFirst
  else do
    let nodeFile ← orElse .writeBeforeOpen db.nodeFile
    let nodeFile ← nodeFile.writeAll (toLe 1 (format.nodeType node).toU8.toNat)
    let nodeFile ← nodeFile.writeAll ((parentId.map MerkleHash.toLeBytes).getD (.replicate 16 0))
    let buf ← orElse .encode (format.toMsgpackBytes node)
    let dataLen := UInt32.ofNat buf.length
    let nodeFile ← nodeFile.writeAll (toLe 4 dataLen.toNat)
    let nodeFile ← nodeFile.writeAll buf
    return { db with
      nodeFile := some nodeFile
      dtype := format.nodeType node
      nodeId := format.hash node
      parentId }

def openReadWrite (format : NodeFormat Node) (node : Node) (parentId : Option MerkleHash) :
    Except MerkleDbError MerkleNodeDB :=
  openForWriting.writeNode format node parentId

def addChild (format : NodeFormat Node) (db : MerkleNodeDB) (item : Node) :
    Except MerkleDbError MerkleNodeDB :=
  if db.readOnly then .error .readOnly
  else do
    let nodeFile ← orElse .writeBeforeOpen db.nodeFile
    let childrenFile ← orElse .writeBeforeOpen db.childrenFile
    let buf ← orElse .encode (format.toMsgpackBytes item)
    let dataLen := UInt64.ofNat buf.length
    let nodeFile ← nodeFile.writeAll (toLe 1 (format.nodeType item).toU8.toNat)
    let nodeFile ← nodeFile.writeAll (format.hash item).toLeBytes
    let nodeFile ← nodeFile.writeAll (toLe 8 db.dataOffset.toNat)
    let nodeFile ← nodeFile.writeAll (toLe 8 dataLen.toNat)
    let childrenFile ← childrenFile.writeAll buf
    return { db with
      nodeFile := some nodeFile
      childrenFile := some childrenFile
      dataOffset := db.dataOffset + dataLen }

def deserializeId (format : NodeFormat Node) (data : Content) (dtype : MerkleTreeNodeType) :
    Except MerkleDbError MerkleHash :=
  (toNode format dtype data).map format.hash

def readChild (format : NodeFormat Node) (parentId : MerkleHash) (fileData : Content)
    (child : ChildOffset) : Except MerkleDbError (MerkleHash × LoadedChild Node) := do
  let (data, _) ← orElse .io
    (readExact child.dataLen.toNat (fileData.drop child.dataOffset.toNat))
  let dtype ← nodeTypeOf child.dataType
  let node ← toNode format dtype data
  return (child.hash, { parentId := some parentId, hash := child.hash, node })

/-- The children, and the database with its `children` file read to the end. -/
def map (format : NodeFormat Node) (db : MerkleNodeDB) :
    Except MerkleDbError (List (MerkleHash × LoadedChild Node) × MerkleNodeDB) := do
  let lookup ← orElse .readBeforeOpen db.lookup
  let childrenFile ← orElse .writeBeforeOpen db.childrenFile
  let dataType ← nodeTypeOf lookup.dataType
  let parentId ← deserializeId format lookup.data dataType
  let (fileData, childrenFile) := childrenFile.readToEnd
  let children ← lookup.offsets.mapM (readChild format parentId fileData)
  return (children, { db with childrenFile := some childrenFile })

/-- What the two files hold once they are closed. -/
def close (db : MerkleNodeDB) : Except MerkleDbError (Content × Content) := do
  let nodeFile ← orElse .closeBeforeOpen db.nodeFile
  let childrenFile ← orElse .closeBeforeOpen db.childrenFile
  return (nodeFile.bytes, childrenFile.bytes)

end MerkleNodeDB

/-- The files of a node that is written with its children. -/
def writeFiles {Node : Type} (format : NodeFormat Node) (node : Node)
    (parentId : Option MerkleHash) (children : List Node) :
    Except MerkleDbError (Content × Content) := do
  let db ← MerkleNodeDB.openReadWrite format node parentId
  let db ← children.foldlM (MerkleNodeDB.addChild format) db
  db.close

end NodeFiles

end Oxen
