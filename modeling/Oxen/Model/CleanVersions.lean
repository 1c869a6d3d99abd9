import Oxen.Lib.Runs
import Oxen.Model.VersionStore

/-! Cleaning a version store of corrupted versions, while other calls write to it. Reading and
removing files can fail; listing the directories of the store does not. -/

namespace Oxen

namespace CleanVersions

/-- The two parts of a hash, which name the directory of the version. -/
abbrev VersionName := String × String

def expectedHash (name : VersionName) : String := name.1 ++ name.2

/-- A file that was created, whether or not a directory still names it. -/
abbrev FileId := ℕ

structure VersionEntries where
  data : Option FileId := none
  chunks : Option (KeyedMap.Map ℕ (Option FileId)) := none

/-- The directories of the versions, and all files that were ever created. An open file takes
what is written to it also when its directory is gone. -/
structure Versions where
  dirs : KeyedMap.Map VersionName VersionEntries := ∅
  files : List Content := []
  /-- Entries of the store's root that are no directories. -/
  strays : List String := []

namespace Versions

def entries (v : Versions) (name : VersionName) : VersionEntries :=
  (v.dirs.lookup name).getD {}

def put (v : Versions) (name : VersionName) (entries : VersionEntries) : Versions :=
  { v with dirs := v.dirs.insert name entries }

/-- The bytes of the version's file. -/
def data? (v : Versions) (name : VersionName) : Option Content := do
  let file ← (v.entries name).data
  v.files[file]?

def chunkFile? (v : Versions) (name : VersionName) (offset : ℕ) : Option FileId :=
  (((v.entries name).chunks.getD ∅).lookup offset).join

/-- Opens a file for writing: one that exists is cut to nothing. -/
def openFile (v : Versions) : Option FileId → FileId × Versions
  | some file => (file, { v with files := v.files.set file [] })
  | none => (v.files.length, { v with files := v.files ++ [[]] })

def createData (v : Versions) (name : VersionName) : FileId × Versions :=
  let opened := v.openFile (v.entries name).data
  (opened.1, opened.2.put name { v.entries name with data := some opened.1 })

def createChunk (v : Versions) (name : VersionName) (offset : ℕ) : FileId × Versions :=
  let opened := v.openFile (v.chunkFile? name offset)
  let chunks := (v.entries name).chunks.getD ∅
  (opened.1, opened.2.put name
    { v.entries name with chunks := some (chunks.insert offset (some opened.1)) })

/-- Writes at a position of an open file. -/
def writeAt (v : Versions) (file : FileId) (pos : ℕ) (bytes : Content) : Versions :=
  { v with
    files := v.files.modify file fun content =>
      content.take pos ++ List.replicate (pos - content.length) 0 ++ bytes ++
        content.drop (pos + bytes.length) }

/-- The directory of a chunk exists. -/
def hasChunkDir (v : Versions) (name : VersionName) (offset : ℕ) : Bool :=
  match v.dirs.lookup name with
  | some ⟨_, some chunks⟩ => (chunks.lookup offset).isSome
  | _ => false

end Versions

/-! ## Calls that write -/

inductive Request where
  /-- `store_version`, and `store_version_from_reader`. -/
  | storeVersion (name : VersionName) (data : Content)
  | storeVersionChunk (name : VersionName) (offset : ℕ) (data : Content)
  | combineVersionChunks (name : VersionName)
deriving DecidableEq

/-- What a call does next. -/
inductive Call where
  | makeDir (name : VersionName) (data : Content)
  | lookForData (name : VersionName) (data : Content)
  | createData (name : VersionName) (data : Content)
  | makeChunkDir (name : VersionName) (offset : ℕ) (data : Content)
  | lookForChunk (name : VersionName) (offset : ℕ) (data : Content)
  | createChunk (name : VersionName) (offset : ℕ) (data : Content)
  /-- Writes the rest from a position on. -/
  | write (file : FileId) (pos : ℕ) (rest : Content)
  | createOutput (name : VersionName)
  | listChunks (name : VersionName) (output : FileId)
  /-- Writes the rest of one chunk, and then copies those at the offsets. -/
  | copy (name : VersionName) (output : FileId) (pos : ℕ) (rest : Content) (offsets : List ℕ)
  | removeChunks (name : VersionName)
  | returned (ok : Bool)
deriving DecidableEq

def Request.start : Request → Call
  | storeVersion name data => .makeDir name data
  | storeVersionChunk name offset data => .makeChunkDir name offset data
  | combineVersionChunks name => .createOutput name

/-- The next step of a call. A write takes so many bytes. -/
def Call.next (v : Versions) (bytes : ℕ) : Call → Call × Versions
  | makeDir name data => (lookForData name data, v.put name (v.entries name))
  | lookForData name data =>
      if (v.entries name).data.isSome then (returned true, v) else (createData name data, v)
  | createData name data =>
      if name ∈ v.dirs then (write (v.createData name).1 0 data, (v.createData name).2)
      else (returned false, v)
  | makeChunkDir name offset data =>
      let chunks := (v.entries name).chunks.getD ∅
      (lookForChunk name offset data,
        v.put name { v.entries name with chunks := some (KeyedMap.insertNew chunks offset none) })
  | lookForChunk name offset data =>
      if (v.chunkFile? name offset).isSome then (returned true, v)
      else (createChunk name offset data, v)
  | createChunk name offset data =>
      if v.hasChunkDir name offset then
        (write (v.createChunk name offset).1 0 data, (v.createChunk name offset).2)
      else (returned false, v)
  | write file pos rest =>
      if rest = [] then (returned true, v)
      else (write file (pos + (rest.take bytes).length) (rest.drop bytes),
        v.writeAt file pos (rest.take bytes))
  | createOutput name =>
      if name ∈ v.dirs then (listChunks name (v.createData name).1, (v.createData name).2)
      else (returned false, v)
  | listChunks name output =>
      match (v.entries name).chunks with
      | some chunks => (copy name output 0 [] (chunks.keys.insertionSort (· ≤ ·)), v)
      | none => (returned false, v)
  | copy name output pos rest offsets =>
      if rest ≠ [] then
        (copy name output (pos + (rest.take bytes).length) (rest.drop bytes) offsets,
          v.writeAt output pos (rest.take bytes))
      else
        match offsets with
        | [] => (removeChunks name, v)
        | offset :: offsets =>
            match (v.chunkFile? name offset).bind (v.files[·]?) with
            | some chunk => (copy name output pos chunk offsets, v)
            | none => (returned false, v)
  | removeChunks name =>
      (returned true,
        if name ∈ v.dirs then v.put name { v.entries name with chunks := none } else v)
  | returned ok => (returned ok, v)

/-! ## Cleaning -/

variable (hashBuffer : Content → String)

/-- What a removal that fails leaves of a directory. -/
structure RemoveFault where
  keepsData : Bool
  keptChunks : Option (List ℕ)

def RemoveFault.left (fault : RemoveFault) (entries : VersionEntries) : VersionEntries where
  data := if fault.keepsData then entries.data else none
  chunks :=
    match fault.keptChunks, entries.chunks with
    | some kept, some chunks =>
        some ((chunks.keys.filter (· ∉ kept)).foldl (fun m offset => m.erase offset) chunks)
    | _, _ => none

/-- Removes the directory of a version, and tells whether all of it is gone. -/
def removeDirAll (v : Versions) (name : VersionName) :
    Option RemoveFault → Bool × Versions
  | none => (v.dirs.lookup name |>.isSome, { v with dirs := v.dirs.erase name })
  | some fault =>
      (false, if name ∈ v.dirs then v.put name (fault.left (v.entries name)) else v)

/-- What the check of a version finds. -/
inductive Verdict where
  | good
  | corrupted
  | unreadable
deriving DecidableEq

def checkVersion (v : Versions) (name : VersionName) (readable : Bool) : Verdict :=
  match v.data? name with
  | some data =>
      if ¬ readable then .unreadable
      else if hashBuffer data = expectedHash name then .good
      else .corrupted
  | none => .unreadable

structure CleanCorruptedVersionsResult where
  scanned : ℕ := 0
  corrupted : ℕ := 0
  cleaned : ℕ := 0
  errors : ℕ := 0
deriving DecidableEq

/-- The reads and removals of a cleaning that fail. -/
structure CleanFaults where
  readable : VersionName → Bool := fun _ => true
  remove : VersionName → Option RemoveFault := fun _ => none

def cleanVersion (dryRun : Bool) (faults : CleanFaults)
    (s : Versions × CleanCorruptedVersionsResult) (name : VersionName) :
    Versions × CleanCorruptedVersionsResult :=
  let (v, stats) := s
  let removed := removeDirAll v name (faults.remove name)
  match checkVersion hashBuffer v name (faults.readable name) with
  | .unreadable =>
      let stats := { stats with errors := stats.errors + 1 }
      if dryRun then (v, stats)
      else if removed.1 then (removed.2, { stats with cleaned := stats.cleaned + 1 })
      else (removed.2, stats)
  | .good => (v, { stats with scanned := stats.scanned + 1 })
  | .corrupted =>
      let stats := { stats with
        scanned := stats.scanned + 1
        corrupted := stats.corrupted + 1 }
      if dryRun then (v, stats)
      else if removed.1 then (removed.2, { stats with cleaned := stats.cleaned + 1 })
      else (removed.2, { stats with errors := stats.errors + 1 })

/-- Checks the versions in the order in which the directories list them, which does not fail. -/
def cleanCorruptedVersions (dryRun : Bool) (faults : CleanFaults) (v : Versions)
    (listed : List VersionName) : Versions × CleanCorruptedVersionsResult :=
  listed.foldl (cleanVersion hashBuffer dryRun faults) (v, { errors := v.strays.length })

/-! ## All together -/

/-- The store, the calls so far, and the versions that a cleaning is about to remove. -/
structure State where
  versions : Versions
  calls : List Call := []
  condemned : List VersionName := []

inductive Action where
  | begins (request : Request)
  | next (call : ℕ) (bytes : ℕ)
  | fail (call : ℕ)
  /-- Of a version that was listed, and that may be gone by now. -/
  | check (name : VersionName) (readable : Bool)
  | remove (name : VersionName) (fault : Option RemoveFault)

def State.step (s : State) : Action → Option State
  | .begins request => some { s with calls := s.calls ++ [request.start] }
  | .next i bytes =>
      s.calls[i]?.map fun call =>
        { s with
          versions := (call.next s.versions bytes).2
          calls := s.calls.set i (call.next s.versions bytes).1 }
  | .fail i => s.calls[i]?.map fun _ => { s with calls := s.calls.set i (.returned false) }
  | .check name readable =>
      some (if checkVersion hashBuffer s.versions name readable = .good then s
        else { s with condemned := name :: s.condemned })
  | .remove name fault =>
      if name ∈ s.condemned then
        some { s with
          versions := (removeDirAll s.versions name fault).2
          condemned := s.condemned.erase name }
      else none

/-- The steps of calls and cleanings, in any order. -/
def Step (action : Action) (s s' : State) : Prop := s.step hashBuffer action = some s'

end CleanVersions

end Oxen
