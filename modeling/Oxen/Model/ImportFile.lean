import Oxen.Model.Staging
import Oxen.Model.ZipArchive

/-! A file that an import downloads into a workspace and stages there. -/

namespace Oxen

namespace ImportFile

open Unstage

/-- What staging a file in a workspace depends on. -/
structure Env extends LocalRepository where
  /-- The file that the workspace's commit has at a path. -/
  headFile : PathBuf → Option FileNode
  /-- The paths of the merge conflicts. -/
  conflicts : List PathBuf := []
  /-- The hash of a file with its metadata. -/
  combinedHash : MerkleHash → MerkleHash → MerkleHash
  dataType : PathBuf → Content → EntryDataType
  isAlphanumeric : Char → Bool
  /-- When files are written. -/
  now : FileTime

/-- A workspace: its directory, what is staged, and the versions of its repository. -/
structure State where
  disk : WorkingTree
  staged : StagedDb
  versions : KeyedMap.Map MerkleHash Content

inductive Error where
  | io (error : OxenError)
  | tooLarge
  | contentLength (length : ℕ)
  | noFilename
  | stream
  | incomplete
deriving DecidableEq

/-- The names that a file may have, the caller's first. -/
structure Filenames where
  caller : Option String := none
  contentDisposition : Option String := none
  url : Option String := none
  uuid : String

/-- A response that is no zip archive. -/
structure Response where
  contentLength : Option ℕ
  chunks : List Content
  /-- Reading on fails after the chunks. -/
  fails : Bool := false

def Response.body (response : Response) : Content :=
  response.chunks.flatten

def maxContentLength : ℕ := 1024 * 1024 * 1024

def bufferSizeThreshold : ℕ := 262144

def Filenames.raw (names : Filenames) : String :=
  names.caller.getD ((names.contentDisposition.or names.url).getD names.uuid)

variable (env : Env)

def sanitizeFilename (name : String) : String :=
  String.ofList ((name.toList.map fun c => if Zip.isWhitespace c then '_' else c).filter fun c =>
    env.isAlphanumeric c || c = '.' || c = '-' || c = '_')

/-! ## The download -/

/-- Removes what was saved. -/
def deleteFile (disk : WorkingTree) (path : PathBuf) : Except Error WorkingTree :=
  let path := path.filter fun name => name ≠ "." ∧ name ≠ ".."
  if disk.pathExists path then (disk.removeFile path).mapError .io else .ok disk

/-- Appends to the file at the path. -/
def saveStream (disk : WorkingTree) (path : PathBuf) (chunk : Content) :
    Except Error Unit × WorkingTree :=
  match disk.createDirAll [] path.dropLast with
  | .error e => (.error (.io e), disk)
  | .ok disk =>
      if path.getLast? = some "." ∨ path.getLast? = some ".." then
        (.error (.io (.fileError path)), disk)
      else
        match disk.writeFile path ((disk.content path).getD [] ++ chunk) env.now with
        | .error e => (.error (.io e), disk)
        | .ok disk => (.ok (), disk)

structure Download where
  disk : WorkingTree
  buffer : Content := []
  /-- Where something was saved. -/
  savePath : Option PathBuf := none
  bytesDownloaded : ℕ := 0

def flush (path : PathBuf) (download : Download) : Except Error Unit × Download :=
  match saveStream env download.disk path download.buffer with
  | (.error e, disk) => (.error e, { download with disk })
  | (.ok (), disk) => (.ok (), { download with disk, buffer := [], savePath := some path })

def readChunk (path : PathBuf) (download : Download) (chunk : Content) :
    Except Error Unit × Download :=
  let download :=
    { download with
      buffer := download.buffer ++ chunk
      bytesDownloaded := download.bytesDownloaded + chunk.length }
  if download.bytesDownloaded > maxContentLength then
    match deleteFile download.disk path with
    | .error e => (.error e, download)
    | .ok disk => (.error .tooLarge, { download with disk })
  else if download.buffer.length > bufferSizeThreshold then flush env path download
  else (.ok (), download)

def readChunks (path : PathBuf) (download : Download) :
    List Content → Except Error Unit × Download
  | [] => (.ok (), download)
  | chunk :: chunks =>
      match readChunk env path download chunk with
      | (.error e, download) => (.error e, download)
      | (.ok (), download) => readChunks path download chunks

/-- Saves what is left in the buffer when the body ends. -/
def downloadBody (path : PathBuf) (disk : WorkingTree) (response : Response) :
    Except Error Unit × Download :=
  match readChunks env path { disk } response.chunks with
  | (.error e, download) => (.error e, download)
  | (.ok (), download) =>
      if response.fails then (.error .stream, download)
      else if download.buffer ≠ [] then flush env path download
      else (.ok (), download)

/-- The length of the file that was saved, if any was. -/
def bytesWritten (download : Download) : ℕ :=
  match download.savePath with
  | none => 0
  | some path => ((download.disk.content path).getD []).length

/-! ## Staging -/

structure FileStatus where
  status : StagedEntryStatus
  hash : MerkleHash
  numBytes : ℕ
  mtime : FileTime
deriving DecidableEq

/-- Compares a file with the commit's. The time of the commit's file may panic. -/
def determineFileStatus (disk : WorkingTree) (path : PathBuf) (content : Content)
    (mtime : FileTime) : Except OxenError FileStatus :=
  let changed (status : StagedEntryStatus) : FileStatus :=
    { status, hash := env.xxh3 content, numBytes := content.length, mtime }
  match env.headFile path with
  | none => .ok (changed .added)
  | some node =>
      (env.isModifiedFromNode disk path node).map fun isModified =>
        if isModified then changed .modified
        else { status := .unmodified, hash := node.hash, numBytes := node.numBytes, mtime }

/-- The status that a file is staged with. -/
def effectiveStatus (path : PathBuf) (updateTimestamp : Bool) (fileStatus : FileStatus) :
    FileStatus :=
  let fileStatus :=
    if updateTimestamp ∧ fileStatus.status = .unmodified then
      { fileStatus with status := .modified, mtime := env.now }
    else fileStatus
  if (env.headFile path).isSome ∧ path ∈ env.conflicts then { fileStatus with status := .modified }
  else fileStatus

def fileNode (path : PathBuf) (entry : FsEntry) (content : Content) (fileStatus : FileStatus) :
    FileNode :=
  let metadataHash := env.fileMetadataHash path entry
  { name := path
    hash := fileStatus.hash
    combinedHash :=
      match metadataHash with
      | none => fileStatus.hash
      | some metadataHash => env.combinedHash metadataHash fileStatus.hash
    metadataHash
    numBytes := fileStatus.numBytes
    lastModifiedSeconds := fileStatus.mtime / 10 ^ 9
    lastModifiedNanoseconds := (fileStatus.mtime % 10 ^ 9).toNat
    dataType := env.dataType path content }

/-- Keeps the version of a file, and stages it unless it is as the commit has it. -/
def pAddFile (s : State) (path : PathBuf) (updateTimestamp : Bool) : Except Error Unit × State :=
  match s.disk.lookup path with
  | some (.file content mtime) =>
      match determineFileStatus env s.disk path content mtime with
      | .error e => (.error (.io e), s)
      | .ok fileStatus =>
          let s := { s with versions := KeyedMap.insertNew s.versions fileStatus.hash content }
          let fileStatus := effectiveStatus env path updateTimestamp fileStatus
          if fileStatus.status = .unmodified then (.ok (), s)
          else
            let file : AddedFile :=
              { path, status := fileStatus.status
                node := fileNode env path (.file content mtime) content fileStatus }
            (.ok (), { s with staged := addFiles s.staged [file] })
  | _ => (.ok (), s)

/-- Downloads a response into the directory and stages the file. Without anything saved the path
to stage is empty, which names no file. -/
def fetchFile (s : State) (directory : PathBuf) (names : Filenames) (response : Response)
    (updateTimestamp : Bool) : Except Error Unit × State :=
  if response.contentLength.any (· > maxContentLength) then
    (.error (.contentLength (response.contentLength.getD 0)), s)
  else if sanitizeFilename env names.raw = "" then (.error .noFilename, s)
  else
    let path := directory ++ [sanitizeFilename env names.raw]
    match downloadBody env path s.disk response with
    | (.error e, download) => (.error e, { s with disk := download.disk })
    | (.ok (), download) =>
        let s := { s with disk := download.disk }
        if response.contentLength.any (· ≠ bytesWritten download) then (.error .incomplete, s)
        else pAddFile env s (download.savePath.getD []) updateTimestamp

end ImportFile

end Oxen
