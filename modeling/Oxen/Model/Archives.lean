import Oxen.Lib.LexicalPath
import Oxen.Model.Revisions

/-! The archives that a client uploads, and the three ways in which they are unpacked. An entry
that is unpacked is a write at its place: where the link of an entry leads is left out. -/

namespace Oxen

open LexicalPath

inductive Component where
  | rootDir
  | curDir
  | parentDir
  | normal (name : String)
deriving DecidableEq, Repr

abbrev OsPath := List Component

namespace OsPath

/-- Empty parts and dots are no components, except a dot in front. -/
def component? (part : List Char) : Option Component :=
  if part = [] ∨ part = ['.'] then none
  else if part = ['.', '.'] then some .parentDir
  else some (.normal (String.ofList part))

def components (path : String) : OsPath :=
  let parts := path.toList.splitOn '/'
  let front : OsPath :=
    if path.toList.head? = some '/' then [.rootDir]
    else if parts.head? = some ['.'] then [.curDir]
    else []
  front ++ parts.filterMap component?

def isAbsolute (path : OsPath) : Bool :=
  path.head? = some .rootDir

/-- An absolute path replaces the one that it is pushed to. -/
def push (path other : OsPath) : OsPath :=
  if other.isAbsolute then other else path ++ other.filter (· ≠ .curDir)

def parent (path : OsPath) : OsPath :=
  path.dropLast

def steps (path : OsPath) : List (Step String) :=
  path.filterMap fun
    | .rootDir | .curDir => none
    | .parentDir => some .up
    | .normal name => some (.down name)

/-- The place that a path names to a process in `cwd`. -/
def place (cwd : List String) (path : OsPath) : List String :=
  walk (if path.isAbsolute then [] else cwd) path.steps

end OsPath

def Component.text : Component → String
  | .rootDir => "/"
  | .curDir => "."
  | .parentDir => ".."
  | .normal name => name

namespace Upload

open OsPath

inductive EntryType where
  | file
  | dir
  /-- A link, a device or the like. -/
  | other
deriving DecidableEq, Repr

structure ArchiveEntry where
  path : String
  entryType : EntryType := .file
deriving DecidableEq

/-- The entries as they are read, where some can not be read. -/
abbrev Tarball := List (Option ArchiveEntry)

inductive StorageOpts where
  /-- At a path, or in the default place. -/
  | localStorage (path : Option OsPath)
  | s3
deriving DecidableEq

/-- A repository of the server, which runs in `cwd`. -/
structure Target where
  cwd : List String
  path : OsPath
  storage : StorageOpts

/-- The places where something exists, and those that entries were unpacked to. -/
structure Disk where
  existing : List (List String)
  written : List (List String) := []
deriving DecidableEq

inductive UploadError where
  | invalidHash (text : String)
  | unreadableEntry
  | unsupportedEntryType (path : String)
  | pathTraversal (path : String)
  | noHashForFile (path : String)
deriving DecidableEq, Repr

namespace Target

variable (repo : Target)

def hiddenDir : OsPath :=
  repo.path.push [.normal ".oxen"]

def nodesDir : OsPath :=
  (repo.hiddenDir.push [.normal "tree"]).push [.normal "nodes"]

def tmpDir : OsPath :=
  repo.hiddenDir.push [.normal "tmp"]

/-- The root of the version store. One in S3 has none. -/
def versionsDir : Option OsPath :=
  match repo.storage with
  | .localStorage none =>
      some ((repo.hiddenDir.push [.normal "versions"]).push [.normal "files"])
  | .localStorage (some path) =>
      if path.head? = some (.normal ".oxen") then some (repo.path.push path) else some path
  | .s3 => none

def pathExists (disk : Disk) (path : OsPath) : Bool :=
  disk.existing.contains (path.place repo.cwd)

def createDirAll (disk : Disk) (path : OsPath) : Disk :=
  { disk with existing := disk.existing ++ path.inits.map (place repo.cwd) }

def unpack (disk : Disk) (path : OsPath) : Disk :=
  { existing := disk.existing ++ [path.place repo.cwd]
    written := disk.written ++ [path.place repo.cwd] }

end Target

variable (repo : Target)

def nodePath (entry : ArchiveEntry) : OsPath :=
  repo.nodesDir.push (components entry.path)

/-- The text of the last two components. -/
def nodeId (path : OsPath) : String :=
  String.join ((path.drop (path.length - 2)).map Component.text)

/-- One entry, skipped if its destination exists. Directories give a hash. -/
def unpackNode (disk : Disk) (entry : ArchiveEntry) :
    Except UploadError (List MerkleHash) × Disk :=
  let dstPath := nodePath repo entry
  let disk := repo.createDirAll disk dstPath.parent
  if repo.pathExists disk dstPath then (.ok [], disk)
  else
    let disk := repo.unpack disk dstPath
    if dstPath.getLast? = some (.normal "node")
        ∨ dstPath.getLast? = some (.normal "children") then
      (.ok [], disk)
    else
      match MerkleHash.parse (nodeId dstPath) with
      | none => (.error (.invalidHash (nodeId dstPath)), disk)
      | some hash => (.ok [hash], disk)

/-- Entries that can not be read are skipped. -/
def unpackNodes (disk : Disk) : Tarball → Except UploadError (List MerkleHash) × Disk
  | [] => (.ok [], disk)
  | none :: entries => unpackNodes disk entries
  | some entry :: entries =>
      match unpackNode repo disk entry with
      | (.error e, disk) => (.error e, disk)
      | (.ok hashes, disk) =>
          let (result, disk) := unpackNodes disk entries
          (result.map (hashes ++ ·), disk)

def strippedPath (path : OsPath) : OsPath :=
  if path.head? = some (.normal "history") then path.tail else path

def unpackTreeTarball (disk : Disk) : Tarball → Disk
  | [] => disk
  | none :: entries => unpackTreeTarball disk entries
  | some entry :: entries =>
      let newPath := repo.tmpDir.push (strippedPath (components entry.path))
      unpackTreeTarball (repo.unpack (repo.createDirAll disk newPath.parent) newPath) entries

/-- The two directories whose names make up the hash. The version store splits it into
them again, since the first name has two bytes. -/
def extractHashFromPath (path : OsPath) : Option (Component × Component) :=
  match path with
  | .normal "versions" :: .normal "files" :: topDir :: subDir :: _ :: _ =>
      if topDir.text.utf8ByteSize = 2 ∧ subDir.text ≠ "" then some (topDir, subDir) else none
  | _ => none

def versionPath (root : OsPath) (hash : Component × Component) : OsPath :=
  ((root.push [hash.1]).push [hash.2]).push [.normal "data"]

def storeVersionFromReader (disk : Disk) (hash : Component × Component) : Disk :=
  match repo.versionsDir with
  | none => disk
  | some root =>
      let path := versionPath root hash
      let disk := repo.createDirAll disk path.parent
      if repo.pathExists disk path then disk else repo.unpack disk path

/-- Only names are added to the path; none if the path has a parent component. -/
def destination (dest : OsPath) : OsPath → Option OsPath
  | [] => some dest
  | .normal part :: path => destination (dest.push [.normal part]) path
  | .parentDir :: _ => none
  | _ :: path => destination dest path

def isVersionFile (entry : ArchiveEntry) : Bool :=
  (components entry.path).head? = some (.normal "versions")
    && decide ("files".toList <:+: entry.path.toList)

def unpackEntry (disk : Disk) (entry : ArchiveEntry) : Except UploadError Disk :=
  let path := components entry.path
  if isVersionFile entry then
    match extractHashFromPath path with
    | none => .error (.noHashForFile entry.path)
    | some hash => .ok (storeVersionFromReader repo disk hash)
  else if entry.entryType = .other then .error (.unsupportedEntryType entry.path)
  else
    match destination repo.hiddenDir path with
    | none => .error (.pathTraversal entry.path)
    | some dest =>
        if dest = repo.hiddenDir then .ok disk
        else .ok (repo.unpack (repo.createDirAll disk dest.parent) dest)

/-- The first error ends the unpacking. -/
def unpackEntryTarballAsync (disk : Disk) : Tarball → Except UploadError Unit × Disk
  | [] => (.ok (), disk)
  | none :: _ => (.error .unreadableEntry, disk)
  | some entry :: entries =>
      match unpackEntry repo disk entry with
      | .error e => (.error e, disk)
      | .ok disk => unpackEntryTarballAsync disk entries

end Upload

end Oxen
