import Mathlib.Data.List.Sort
import Oxen.Lib.KeyedMap
import Oxen.Model.Node

/-! The version store in a local directory, with calls that can fail on the way. -/

namespace Oxen

/-- The directory of one version: its `data` file, and the `chunks` directory with a
directory for every offset, in which the chunk's file may be missing. -/
structure VersionDir where
  data : Option Content := none
  chunks : Option (KeyedMap.Map ℕ (Option Content)) := none
deriving DecidableEq

abbrev LocalVersionStore := MerkleHash → Option VersionDir

/-- Where a call fails, if it gets there. -/
inductive StoreFault where
  /-- After so many of the missing directories were made. -/
  | createDir (made : ℕ)
  | createFile
  | listChunks
  /-- After so many bytes were written. -/
  | write (written : ℕ)
  /-- With the chunks at these offsets still there. -/
  | removeChunks (left : List ℕ)
deriving DecidableEq, Repr

inductive StoreError where
  | io (fault : StoreFault)
  | notFound
deriving DecidableEq, Repr

namespace LocalVersionStore

def versionDir (s : LocalVersionStore) (hash : MerkleHash) : VersionDir :=
  (s hash).getD {}

def getVersion (s : LocalVersionStore) (hash : MerkleHash) : Option Content :=
  (s.versionDir hash).data

def versionExists (s : LocalVersionStore) (hash : MerkleHash) : Bool :=
  (s.getVersion hash).isSome

def putDir (s : LocalVersionStore) (hash : MerkleHash) (dir : VersionDir) : LocalVersionStore :=
  Function.update s hash (some dir)

/-- Writes a file in place unless it exists. -/
def writeNew (file : Option Content) (data : Content) (fault : Option StoreFault) :
    Except StoreError Unit × Option Content :=
  match file, fault with
  | some old, _ => (.ok (), some old)
  | none, some .createFile => (.error (.io .createFile), none)
  | none, some (.write written) => (.error (.io (.write written)), some (data.take written))
  | none, _ => (.ok (), some data)

def storeVersion (s : LocalVersionStore) (hash : MerkleHash) (data : Content)
    (fault : Option StoreFault) : Except StoreError Unit × LocalVersionStore :=
  let dir := s.versionDir hash
  match fault with
  | some (.createDir made) =>
      (.error (.io (.createDir made)), if made = 0 then s else s.putDir hash dir)
  | _ =>
      let written := writeNew dir.data data fault
      (written.1, s.putDir hash { dir with data := written.2 })

/-- The same for data that come from a reader, which may fail as well. -/
def storeVersionFromReader (s : LocalVersionStore) (hash : MerkleHash) (reader : Content)
    (fault : Option StoreFault) : Except StoreError Unit × LocalVersionStore :=
  storeVersion s hash reader fault

def storeVersionChunk (s : LocalVersionStore) (hash : MerkleHash) (offset : ℕ) (data : Content)
    (fault : Option StoreFault) : Except StoreError Unit × LocalVersionStore :=
  let dir := s.versionDir hash
  let chunks := dir.chunks.getD ∅
  match fault with
  | some (.createDir made) =>
      (.error (.io (.createDir made)),
        if made = 0 then s
        else if made = 1 then s.putDir hash dir
        else s.putDir hash { dir with chunks := some chunks })
  | _ =>
      let written := writeNew (chunks.lookup offset).join data fault
      (written.1, s.putDir hash { dir with chunks := some (chunks.insert offset written.2) })

/-- The chunk files in the order of their offsets. -/
def listVersionChunks (chunks : KeyedMap.Map ℕ (Option Content)) : List (Option Content) :=
  (chunks.keys.insertionSort (· ≤ ·)).map fun offset => (chunks.lookup offset).join

/-- The bytes of the chunks up to one whose file is missing, and whether all are there. -/
def copyChunks : List (Option Content) → Content × Bool
  | [] => ([], true)
  | none :: _ => ([], false)
  | some chunk :: chunks => (chunk ++ (copyChunks chunks).1, (copyChunks chunks).2)

/-- The chunks are removed once all of them are copied. -/
def copyAll (dir : VersionDir) (chunks : KeyedMap.Map ℕ (Option Content))
    (fault : Option StoreFault) : Except StoreError Unit × VersionDir :=
  let copied := copyChunks (listVersionChunks chunks)
  match fault with
  | some (.write written) =>
      (.error (.io (.write written)), { dir with data := some (copied.1.take written) })
  | some (.removeChunks left) =>
      if copied.2 then
        let removed := chunks.keys.filter (· ∉ left)
        (.error (.io (.removeChunks left)),
          { data := some copied.1
            chunks := some (removed.foldl (fun m offset => m.erase offset) chunks) })
      else (.error .notFound, { dir with data := some copied.1 })
  | _ =>
      if copied.2 then (.ok (), { data := some copied.1, chunks := none })
      else (.error .notFound, { dir with data := some copied.1 })

/-- Creates the version's file anew, and copies the chunks to it. -/
def combine (dir : VersionDir) (fault : Option StoreFault) :
    Except StoreError Unit × VersionDir :=
  if fault = some .createFile then (.error (.io .createFile), dir)
  else if fault = some .listChunks then (.error (.io .listChunks), { dir with data := some [] })
  else
    match dir.chunks with
    | none => (.error .notFound, { dir with data := some [] })
    | some chunks => copyAll dir chunks fault

def combineVersionChunks (s : LocalVersionStore) (hash : MerkleHash) (fault : Option StoreFault) :
    Except StoreError Unit × LocalVersionStore :=
  match s hash with
  | none => (.error .notFound, s)
  | some dir => ((combine dir fault).1, s.putDir hash (combine dir fault).2)

end LocalVersionStore

/-- The calls that write to a version store. -/
inductive StoreCall where
  | storeVersion (hash : MerkleHash) (data : Content)
  | storeVersionFromReader (hash : MerkleHash) (data : Content)
  | storeVersionChunk (hash : MerkleHash) (offset : ℕ) (data : Content)
  | combineVersionChunks (hash : MerkleHash)
deriving DecidableEq, Repr

namespace StoreCall

def run (s : LocalVersionStore) (fault : Option StoreFault) :
    StoreCall → Except StoreError Unit × LocalVersionStore
  | storeVersion hash data => s.storeVersion hash data fault
  | storeVersionFromReader hash data => s.storeVersionFromReader hash data fault
  | storeVersionChunk hash offset data => s.storeVersionChunk hash offset data fault
  | combineVersionChunks hash => s.combineVersionChunks hash fault

/-- The version that the call stores, if it returns. -/
def stores : StoreCall → Option MerkleHash
  | storeVersion hash _ => some hash
  | storeVersionFromReader hash _ => some hash
  | storeVersionChunk _ _ _ => none
  | combineVersionChunks hash => some hash

end StoreCall

end Oxen
