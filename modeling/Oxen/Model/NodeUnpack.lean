import Oxen.Lib.KeyedMap
import Oxen.Model.Archives

/-! Node files that are unpacked from an archive, where every step may fail. -/

namespace Oxen

namespace NodeUnpack

open OsPath Upload

/-- What is at a place: a directory, or a file with its bytes. -/
inductive Data where
  | dir
  | file (bytes : List UInt8)
deriving DecidableEq, Repr

abbrev NodeFiles := KeyedMap.Map (List String) Data

structure NodeEntry where
  path : String
  data : Data
deriving DecidableEq

/-- Where handling an entry fails. -/
inductive Fault where
  /-- The entry can not be read from the archive. -/
  | unreadable
  /-- The directories around it can not be created. -/
  | createDirs
  /-- Nothing can be created at its place. -/
  | create
  /-- So many bytes of it are written. -/
  | write (bytesWritten : ℕ)
deriving DecidableEq

/-- One entry, as one call meets it. -/
structure Attempt where
  entry : NodeEntry
  fault : Option Fault := none
deriving DecidableEq

inductive UnpackError where
  | openArchive
  | io (path : String)
  | invalidHash (text : String)
deriving DecidableEq

/-- The first bytes of a file; a directory is there or not. -/
def Data.truncated (n : ℕ) : Data → Option Data
  | dir => none
  | file bytes => some (file (bytes.take n))

variable (repo : Target)

def NodeEntry.dstPath (entry : NodeEntry) : OsPath :=
  repo.nodesDir.push (components entry.path)

def NodeEntry.place (entry : NodeEntry) : List String :=
  (entry.dstPath repo).place repo.cwd

/-- The directory of an entry and those above it. -/
def NodeEntry.parentPlaces (entry : NodeEntry) : List (List String) :=
  (entry.dstPath repo).parent.inits.map (OsPath.place repo.cwd)

/-- Directories that exist stay; a file in the way is an error. -/
def createDirAll (files : NodeFiles) (places : List (List String)) : Option NodeFiles :=
  if places.all fun place => (files.lookup place).all (· = .dir) then
    some (places.foldl (fun files place => KeyedMap.insertNew files place .dir) files)
  else none

def parsedHash (dstPath : OsPath) : Except UnpackError (List MerkleHash) :=
  if dstPath.getLast? = some (.normal "node") ∨ dstPath.getLast? = some (.normal "children") then
    .ok []
  else
    match MerkleHash.parse (nodeId dstPath) with
    | none => .error (.invalidHash (nodeId dstPath))
    | some hash => .ok [hash]

/-- Writes an entry whose place is free. -/
def unpackTo (files : NodeFiles) (attempt : Attempt) :
    Except UnpackError (List MerkleHash) × NodeFiles :=
  let entry := attempt.entry
  match attempt.fault with
  | some (.write n) =>
      (.error (.io entry.path),
        match entry.data.truncated n with
        | none => files
        | some data => files.insert (entry.place repo) data)
  | some _ => (.error (.io entry.path), files)
  | none => (parsedHash (entry.dstPath repo), files.insert (entry.place repo) entry.data)

/-- An entry that can not be read is skipped, and one whose place exists. -/
def unpackNode (files : NodeFiles) (attempt : Attempt) :
    Except UnpackError (List MerkleHash) × NodeFiles :=
  let entry := attempt.entry
  if attempt.fault = some .unreadable then (.ok [], files)
  else if attempt.fault = some .createDirs then (.error (.io entry.path), files)
  else
    match createDirAll files (entry.parentPlaces repo) with
    | none => (.error (.io entry.path), files)
    | some files =>
        if entry.place repo ∈ files then (.ok [], files) else unpackTo repo files attempt

def unpackEntries (files : NodeFiles) :
    List Attempt → Except UnpackError (List MerkleHash) × NodeFiles
  | [] => (.ok [], files)
  | attempt :: attempts =>
      match unpackNode repo files attempt with
      | (.error e, files) => (.error e, files)
      | (.ok hashes, files) =>
          let (result, files) := unpackEntries files attempts
          (result.map (hashes ++ ·), files)

/-- A call with an archive, which may not open. -/
structure UnpackCall where
  opens : Bool := true
  attempts : List Attempt
deriving DecidableEq

def unpackNodes (files : NodeFiles) (call : UnpackCall) :
    Except UnpackError (List MerkleHash) × NodeFiles :=
  if call.opens then unpackEntries repo files call.attempts else (.error .openArchive, files)

end NodeUnpack

end Oxen
