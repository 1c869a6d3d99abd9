import Mathlib.Data.List.Basic
import Mathlib.Data.List.AList
import Mathlib.Algebra.GroupWithZero.Nat

/-! Records of the Merkle tree: commits, directories, virtual nodes and files.
A path is the list of its components, so the repository root is the empty list
and a leaf name is a list of one component. -/

namespace Oxen

/-- The digest of XXH3-128. -/
abbrev MerkleHash := BitVec 128

abbrev PathBuf := List String

instance : LawfulBEq MerkleHash := inferInstance

instance : LawfulBEq PathBuf := inferInstance

abbrev Content := List UInt8

/-- Nanoseconds since the Unix epoch, negative for an earlier time. -/
abbrev FileTime := Int

/-- The sixteen bytes of a digest, least significant first. -/
def MerkleHash.toLeBytes (h : MerkleHash) : List UInt8 :=
  (List.range 16).map fun i => UInt8.ofNat (h.toNat / 256 ^ i)

def PathBuf.display (path : PathBuf) : String :=
  "/".intercalate path

/-- The UTF-8 bytes of the displayed path. -/
def PathBuf.toBytes (path : PathBuf) : List UInt8 :=
  path.display.toList.flatMap String.utf8EncodeChar

inductive EntryDataType where
  | dir | text | image | video | audio | tabular | binary
deriving DecidableEq, Repr

def EntryDataType.display : EntryDataType → String
  | .dir => "dir"
  | .text => "text"
  | .image => "image"
  | .video => "video"
  | .audio => "audio"
  | .tabular => "tabular"
  | .binary => "binary"

structure FileNode where
  name : PathBuf
  hash : MerkleHash
  combinedHash : MerkleHash := hash
  metadataHash : Option MerkleHash := none
  numBytes : Nat := 0
  lastCommitId : MerkleHash := 0
  lastModifiedSeconds : Int := 0
  lastModifiedNanoseconds : Nat := 0
  dataType : EntryDataType := .text
deriving DecidableEq

/-- Per data type counters of a directory. -/
abbrev TypeCounts := AList fun _ : String => Nat

/-- Compares entries, so that equality of records evaluates. -/
instance : DecidableEq TypeCounts := fun xs ys =>
  decidable_of_iff (xs.entries = ys.entries) AList.ext_iff.symm

structure DirNode where
  name : PathBuf
  hash : MerkleHash
  numEntries : Nat := 0
  numBytes : Nat := 0
  lastCommitId : MerkleHash := 0
  dataTypeCounts : TypeCounts := ∅
  dataTypeSizes : TypeCounts := ∅
deriving DecidableEq

structure VNode where
  hash : MerkleHash
  numEntries : Nat := 0
deriving DecidableEq, Repr

structure CommitNode where
  hash : MerkleHash
  parentIds : List MerkleHash := []
  message : String := ""
  author : String := ""
  email : String := ""
  timestamp : Nat := 0
deriving DecidableEq, Repr

inductive EMerkleTreeNode where
  | file (node : FileNode)
  | directory (node : DirNode)
  | vnode (node : VNode)
  | commit (node : CommitNode)
deriving DecidableEq

namespace EMerkleTreeNode

def hash : EMerkleTreeNode → MerkleHash
  | .file f => f.hash
  | .directory d => d.hash
  | .vnode v => v.hash
  | .commit c => c.hash

/-- Commits, directories and virtual nodes have children; files are leaves. -/
def hasChildren : EMerkleTreeNode → Bool
  | .file _ => false
  | _ => true

/-- The path of a node whose parent is at `path`. -/
def ownPath (path : PathBuf) : EMerkleTreeNode → PathBuf
  | .file f => path ++ f.name
  | .directory d => path ++ d.name
  | _ => path

@[simp] theorem hash_file (f : FileNode) : (file f).hash = f.hash := rfl
@[simp] theorem hash_directory (d : DirNode) : (directory d).hash = d.hash := rfl
@[simp] theorem hash_vnode (v : VNode) : (vnode v).hash = v.hash := rfl
@[simp] theorem hash_commit (c : CommitNode) : (commit c).hash = c.hash := rfl

end EMerkleTreeNode

/-- A node together with the children that were loaded for it. -/
inductive MerkleTreeNode where
  | mk (node : EMerkleTreeNode) (children : List MerkleTreeNode)

namespace MerkleTreeNode

def node : MerkleTreeNode → EMerkleTreeNode
  | .mk n _ => n

def children : MerkleTreeNode → List MerkleTreeNode
  | .mk _ cs => cs

def hash (t : MerkleTreeNode) : MerkleHash :=
  t.node.hash

@[simp] theorem node_mk (n : EMerkleTreeNode) (cs : List MerkleTreeNode) :
    (mk n cs).node = n := rfl
@[simp] theorem children_mk (n : EMerkleTreeNode) (cs : List MerkleTreeNode) :
    (mk n cs).children = cs := rfl
@[simp] theorem hash_mk (n : EMerkleTreeNode) (cs : List MerkleTreeNode) :
    (mk n cs).hash = n.hash := rfl

/-- Structural induction with the children quantified by membership. -/
@[elab_as_elim, induction_eliminator]
theorem induction {motive : MerkleTreeNode → Prop}
    (mk : ∀ node children, (∀ c ∈ children, motive c) → motive (.mk node children))
    (t : MerkleTreeNode) : motive t :=
  @MerkleTreeNode.rec motive (fun cs => ∀ c ∈ cs, motive c)
    mk (by simp) (fun _ _ hhead htail => by simpa using ⟨hhead, htail⟩) t

mutual

/-- Number of nodes. -/
def size : MerkleTreeNode → ℕ
  | .mk _ cs => 1 + sizeList cs

def sizeList : List MerkleTreeNode → ℕ
  | [] => 0
  | c :: cs => size c + sizeList cs

end

theorem sizeList_eq (cs : List MerkleTreeNode) : sizeList cs = (cs.map size).sum := by
  induction cs with
  | nil => rfl
  | cons c cs ih => simp only [sizeList, ih, List.map_cons, List.sum_cons]

theorem size_mk (n : EMerkleTreeNode) (cs : List MerkleTreeNode) :
    size (.mk n cs) = 1 + (cs.map size).sum := by
  rw [size, sizeList_eq]

theorem size_pos (t : MerkleTreeNode) : 0 < t.size := by
  cases t
  rw [size_mk]
  omega

mutual

/-- Every node below a node, itself included, with the path of its parent. -/
def subtrees (path : PathBuf) : MerkleTreeNode → List (PathBuf × MerkleTreeNode)
  | .mk n cs => (path, .mk n cs) :: subtreesList (n.ownPath path) cs

def subtreesList (path : PathBuf) : List MerkleTreeNode → List (PathBuf × MerkleTreeNode)
  | [] => []
  | c :: cs => subtrees path c ++ subtreesList path cs

end

theorem subtreesList_eq (path : PathBuf) (cs : List MerkleTreeNode) :
    subtreesList path cs = cs.flatMap (subtrees path) := by
  induction cs with
  | nil => rfl
  | cons c cs ih => simp only [subtreesList, ih, List.flatMap_cons]

theorem subtrees_mk (path : PathBuf) (n : EMerkleTreeNode) (cs : List MerkleTreeNode) :
    subtrees path (.mk n cs) = (path, .mk n cs) :: cs.flatMap (subtrees (n.ownPath path)) := by
  rw [subtrees, subtreesList_eq]

/-- A file or directory with its own path. -/
def entry? : PathBuf × MerkleTreeNode → Option (PathBuf × EMerkleTreeNode)
  | (path, .mk (.file f) _) => some (path ++ f.name, .file f)
  | (path, .mk (.directory d) _) => some (path ++ d.name, .directory d)
  | _ => none

def file? : PathBuf × MerkleTreeNode → Option (PathBuf × FileNode)
  | (path, .mk (.file f) _) => some (path ++ f.name, f)
  | _ => none

/-- The files and directories below a node. -/
def entries (path : PathBuf) (t : MerkleTreeNode) : List (PathBuf × EMerkleTreeNode) :=
  (t.subtrees path).filterMap entry?

/-- The files below a node. -/
def files (path : PathBuf) (t : MerkleTreeNode) : List (PathBuf × FileNode) :=
  (t.subtrees path).filterMap file?

/-- The hashes of the commits, directories and virtual nodes below a node. -/
def containerHashes (t : MerkleTreeNode) : List MerkleHash :=
  (((t.subtrees []).map Prod.snd).filter (·.node.hasChildren)).map hash

end MerkleTreeNode

end Oxen
