import Oxen.Model.NodeUnpack

/-! Zip archives that are extracted into their own directory. -/

namespace Oxen

namespace Zip

open OsPath

abbrev Disk := NodeUnpack.NodeFiles

/-- What one read returns before the end of an entry. -/
abbrev Chunk := { bytes : List UInt8 // bytes ≠ [] }

structure Entry where
  name : String
  isDir : Bool := false
  /-- The sizes that the archive declares. -/
  compressedSize : UInt64
  size : UInt64
  /-- What the entry really holds, read by read. -/
  reads : List Chunk := []
  accessible : Bool := true
  /-- The last read fails. -/
  broken : Bool := false
deriving DecidableEq

def Entry.content (entry : Entry) : List UInt8 :=
  (entry.reads.map Subtype.val).flatten

structure ZipFile where
  /-- The directory of the file, as it is canonicalized. -/
  parent : List String
  name : String
  /-- Nothing if the file is no archive. -/
  entries : Option (List Entry)
deriving DecidableEq

inductive ZipError where
  | io
  | notAnArchive
  | inaccessible (name : String)
  | compressionRatio (ratio : UInt64)
  | noCompressedSize
  | sizeLimit
  | invalidComponent (path : OsPath)
  | pathTraversal (path : OsPath)
deriving DecidableEq

def maxDecompressedSize : UInt64 := 1024 * 1024 * 1024

def maxCompressionRatio : UInt64 := 100

/-- The checks of one entry's sizes. -/
def checkRatio (entry : Entry) : Except ZipError Unit :=
  if entry.compressedSize ≠ 0 then
    if entry.size / entry.compressedSize > maxCompressionRatio then
      .error (.compressionRatio (entry.size / entry.compressedSize))
    else .ok ()
  else if entry.size > 0 then .error .noCompressedSize
  else .ok ()

/-- The sum of the declared sizes wraps around. -/
def checkSizes (totalSize : UInt64) : List Entry → Except ZipError Unit
  | [] => .ok ()
  | entry :: entries =>
      if ¬ entry.accessible then .error (.inaccessible entry.name)
      else
        match checkRatio entry with
        | .error e => .error e
        | .ok () =>
            let totalSize := totalSize + entry.size
            if totalSize > maxDecompressedSize then .error .sizeLimit
            else checkSizes totalSize entries

/-- White space, as Unicode has it. -/
def isWhitespace (c : Char) : Bool :=
  let n := c.toNat
  (9 ≤ n ∧ n ≤ 13) ∨ n = 0x20 ∨ n = 0x85 ∨ n = 0xa0 ∨ n = 0x1680 ∨ (0x2000 ≤ n ∧ n ≤ 0x200a) ∨
    n = 0x2028 ∨ n = 0x2029 ∨ n = 0x202f ∨ n = 0x205f ∨ n = 0x3000

def replaceWhitespace (name : String) : String :=
  String.ofList (name.toList.map fun c => if isWhitespace c then '_' else c)

/-- The names of a path that has nothing but names and dots. -/
def sanitizeComponents : OsPath → Option (List String)
  | [] => some []
  | .normal name :: path => (sanitizeComponents path).map (name :: ·)
  | .curDir :: path => sanitizeComponents path
  | .parentDir :: _ => none
  | .rootDir :: _ => none

def sanitizePath (path : OsPath) : Except ZipError OsPath :=
  match sanitizeComponents path with
  | none => .error (.invalidComponent path)
  | some names => .ok (names.map .normal)

/-- A path from the root. -/
def absolute (names : List String) : OsPath :=
  .rootDir :: names.map .normal

variable (mangledName : String → String) (parent : List String)

/-- Where an entry is extracted to. -/
def outPath (entry : Entry) : Except ZipError OsPath :=
  match sanitizePath (components (replaceWhitespace (mangledName entry.name))) with
  | .error e => .error e
  | .ok safePath =>
      let path := (absolute parent).push safePath
      if (absolute parent).isPrefixOf path then .ok path else .error (.pathTraversal path)

structure Extraction where
  disk : Disk
  /-- The paths of the entries so far. -/
  files : List OsPath := []
  /-- What was written where. -/
  writes : List (List String × List UInt8) := []
deriving DecidableEq

/-- No directory is created where something is, be it a file, and that is no failure. -/
def createDirAll (disk : Disk) (path : OsPath) : Option Disk :=
  if disk.lookup (path.place []) ≠ none then some disk
  else NodeUnpack.createDirAll disk (path.inits.map (place []))

/-- Creates what an entry is extracted to, which leaves a file empty. A file is created in a
directory, and in the place of none. -/
@[irreducible]
def createOutput (disk : Disk) (entry : Entry) : Except ZipError OsPath × Disk :=
  match outPath mangledName parent entry with
  | .error e => (.error e, disk)
  | .ok path =>
      match createDirAll disk path.parent with
      | none => (.error .io, disk)
      | some disk =>
          if entry.isDir then
            match createDirAll disk path with
            | none => (.error .io, disk)
            | some disk => (.ok path, disk)
          else if disk.lookup (path.place []) = some .dir ∨
              disk.lookup (path.parent.place []) ≠ some .dir then (.error .io, disk)
          else (.ok path, disk.insert (path.place []) (.file []))

/-- Copies an entry, read by read. -/
def copyReads (path : List String) (state : Extraction) : List Chunk → Extraction
  | [] => state
  | chunk :: chunks =>
      let content :=
        match state.disk.lookup path with
        | some (.file bytes) => bytes ++ chunk.val
        | _ => chunk.val
      copyReads path
        { state with
          disk := state.disk.insert path (.file content)
          writes := state.writes ++ [(path, chunk.val)] } chunks

@[irreducible]
def extractEntry (state : Extraction) (entry : Entry) : Except ZipError Unit × Extraction :=
  match createOutput mangledName parent state.disk entry with
  | (.error e, disk) => (.error e, { state with disk })
  | (.ok path, disk) =>
      let state := { state with disk }
      if entry.isDir then (.ok (), { state with files := state.files ++ [path] })
      else
        let state := copyReads (path.place []) state entry.reads
        if entry.broken then (.error .io, state)
        else (.ok (), { state with files := state.files ++ [path] })

def extractAll (state : Extraction) : List Entry → Except ZipError Unit × Extraction
  | [] => (.ok (), state)
  | entry :: entries =>
      match extractEntry mangledName parent state entry with
      | (.error e, state) => (.error e, state)
      | (.ok (), state) => extractAll state entries

/-- What comes before the extraction: the archive is opened and checked, and its directory
looked up. -/
def openArchive (disk : Disk) (zip : ZipFile) : Except ZipError (List Entry) :=
  if disk.lookup (zip.parent ++ [zip.name]) = none then .error .io
  else
    match zip.entries with
    | none => .error .notAnArchive
    | some entries =>
        match checkSizes 0 entries with
        | .error e => .error e
        | .ok () =>
            if zip.parent.inits.all fun dir => disk.lookup dir = some .dir then .ok entries
            else .error .io

/-- Extracts every entry, and removes the archive in the end. -/
def decompressZip (disk : Disk) (zip : ZipFile) : Except ZipError (List OsPath) × Extraction :=
  match openArchive disk zip with
  | .error e => (.error e, { disk })
  | .ok entries =>
      match extractAll mangledName zip.parent { disk } entries with
      | (.error e, state) => (.error e, state)
      | (.ok (), state) =>
          (.ok state.files, { state with disk := state.disk.erase (zip.parent ++ [zip.name]) })

end Zip

end Oxen
