import Oxen.Lib.Batches
import Oxen.Lib.KeyedMap
import Oxen.Lib.Retries
import Oxen.Lib.ZeroPadded
import Oxen.Model.Archives

/-! Bulk uploads to a server: a client posts a buffer in one request or chunk by chunk, and the
server puts the chunks together. -/

namespace Oxen

namespace BulkUpload

open Upload OsPath Retries

def avgChunkSize : ℕ := 1024 * 1024 * 10

def numHttpRetries : ℕ := 5

def versionFileName : String := "data"

inductive ServerError where
  | unpack (e : UploadError)
  | missingFileName
deriving DecidableEq, Repr

inductive PostError where
  /-- The request was not sent, or its answer did not come. -/
  | request
  | server (e : ServerError)
  | uploadRetryFailed
  | uploadChunkRetryFailed (lastError : PostError)
deriving DecidableEq, Repr

structure ChunkedDataUploadQuery where
  hash : String
  chunkNum : ℕ
  totalChunks : ℕ
  totalSize : ℕ
  isCompressed : Bool
  filename : Option String

/-- What the server put together: the bytes, the file that they were written to unless they are
an archive, and whether it went well. -/
structure Unpacked where
  bytes : Content
  file : Option OsPath
  ok : Bool
deriving DecidableEq

/-- The chunk files in `tmp/chunked`, by upload and by name. -/
structure State where
  chunked : String → KeyedMap.Map (List Char) Content
  disk : Disk
  /-- Everything that was put together so far. -/
  unpacked : List Unpacked

/-- The server, and what it and the client use of other code: the entries of an archive, paths
with the separators of the system, and the hash of a buffer. -/
structure Service where
  repo : Target
  entries : Content → Tarball
  toPathbuf : String → OsPath
  hashBuffer : Content → String

/-- A buffer to post. One that is not compressed needs a file name. A buffer is never longer than
an address can tell. -/
structure Payload where
  buffer : Content
  isCompressed : Bool
  filename : Option String
  named : isCompressed = false → filename.isSome
  fits : buffer.length < 2 ^ 63

/-- What follows the last dot of a name, unless it is in front. -/
def extension (name : String) : Option String :=
  let stem := (name.toList.reverse.dropWhile (· ≠ '.')).tail
  if stem = [] then none
  else some (String.ofList (name.toList.reverse.takeWhile (· ≠ '.')).reverse)

def replaceFileNameKeepExtension (path : OsPath) (newFilename : String) : OsPath :=
  match path.getLast? with
  | some (.normal name) =>
      match extension name with
      | none => push path.dropLast [.normal newFilename]
      | some ext =>
          push path.dropLast
            [.normal (if ext = "" then newFilename else newFilename ++ "." ++ ext)]
  | _ => path.push [.normal newFilename]

def chunkFile (chunkNum : ℕ) : List Char :=
  "chunk_".toList ++ ZeroPadded.pad 16 chunkNum

variable (service : Service)

namespace Service

def unpackEntryTarballAsync (s : State) (bytes : Content) : Except ServerError Unit × State :=
  let result := Upload.unpackEntryTarballAsync service.repo s.disk (service.entries bytes)
  (result.1.mapError .unpack,
    { s with
      disk := result.2
      unpacked := s.unpacked ++ [⟨bytes, none, result.1.isOk⟩] })

/-- The file that a payload is written to. -/
def fullPath (filename : String) : OsPath :=
  replaceFileNameKeepExtension (service.repo.hiddenDir.push (service.toPathbuf filename))
    versionFileName

def unpackToFile (s : State) (files : List Content) (filename : String) : State :=
  let path := service.fullPath filename
  { s with
    disk := service.repo.unpack (service.repo.createDirAll s.disk path.parent) path
    unpacked := s.unpacked ++ [⟨files.flatten, some path, true⟩] }

def unpackCompressedData (s : State) (files : List Content) : Except ServerError Unit × State :=
  service.unpackEntryTarballAsync s files.flatten

/-- The names of the chunk files in order. -/
def listFilesInDir (s : State) (hash : String) : List (List Char) :=
  (s.chunked hash).keys.insertionSort (· ≤ ·)

def removeDirAll (s : State) (hash : String) : State :=
  { s with chunked := Function.update s.chunked hash ∅ }

def checkIfUploadCompleteAndUnpack (s : State) (query : ChunkedDataUploadQuery) :
    Except ServerError Unit × State :=
  let files := listFilesInDir s query.hash
  if files.length < query.totalChunks then (.ok (), s)
  else
    let contents := files.filterMap fun file => (s.chunked query.hash).lookup file
    let uploadedSize := (contents.map List.length).sum
    if query.totalSize ≤ uploadedSize then
      if query.isCompressed then
        match service.unpackCompressedData s contents with
        | (.error e, s) => (.error e, s)
        | (.ok (), s) => (.ok (), removeDirAll s query.hash)
      else
        match query.filename with
        | none => (.error .missingFileName, s)
        | some filename =>
            (.ok (), removeDirAll (service.unpackToFile s contents filename) query.hash)
    else (.ok (), s)

def uploadChunk (query : ChunkedDataUploadQuery) (chunk : Content) (s : State) :
    Except ServerError Unit × State :=
  let files := (s.chunked query.hash).insert (chunkFile query.chunkNum) chunk
  service.checkIfUploadCompleteAndUnpack
    { s with chunked := Function.update s.chunked query.hash files } query

def upload (body : Content) (s : State) : Except ServerError Unit × State :=
  service.unpackEntryTarballAsync s body

end Service

namespace Payload

variable (payload : Payload)

def chunks : List Content :=
  Batches.split avgChunkSize payload.buffer

/-- The query of a chunk's request. The file name is sent for a payload that is not compressed. -/
def query (chunkNum : ℕ) : ChunkedDataUploadQuery where
  hash := service.hashBuffer payload.buffer
  chunkNum := chunkNum
  totalChunks := payload.chunks.length
  totalSize := payload.buffer.length
  isCompressed := payload.isCompressed
  filename := if payload.isCompressed then none else payload.filename

end Payload

/-- What a client sees of a server's answer. -/
def answer (handled : Except ServerError Unit × State) : Except PostError Unit × State :=
  (handled.1.mapError .server, handled.2)

def uploadDataChunkToServer (payload : Payload) (chunkNum : ℕ) (chunk : Content) (s : State) :
    Except PostError Unit × State :=
  answer (service.uploadChunk (payload.query service chunkNum) chunk s)

def uploadDataChunkToServerWithRetry (payload : Payload) (chunkNum : ℕ) (chunk : Content)
    (outcomes : ℕ → Outcome) (s : State) : Except PostError Unit × State :=
  let result := retry (uploadDataChunkToServer service payload chunkNum chunk) .request .request
    ((List.range numHttpRetries).map outcomes) s
  (result.1.mapError .uploadChunkRetryFailed, result.2)

/-- A chunk whose tries all fail is logged, and the next one is sent. -/
def uploadDataToServerInChunks (payload : Payload) (outcomes : ℕ → ℕ → Outcome) (s : State) :
    Except PostError Unit × State :=
  (.ok (), payload.chunks.zipIdx.foldl (fun s chunk =>
    (uploadDataChunkToServerWithRetry service payload chunk.2 chunk.1 (outcomes chunk.2) s).2) s)

def uploadSingleTarballToServer (buffer : Content) (s : State) : Except PostError Unit × State :=
  answer (service.upload buffer s)

def uploadSingleTarballToServerWithRetry (buffer : Content) (outcomes : ℕ → Outcome) (s : State) :
    Except PostError Unit × State :=
  let result := retry (uploadSingleTarballToServer service buffer) .request .request
    ((List.range numHttpRetries).map outcomes) s
  (result.1.mapError fun _ => .uploadRetryFailed, result.2)

/-- The outcomes are those of the tries of each chunk, or of the only request. -/
def postDataToServer (payload : Payload) (outcomes : ℕ → ℕ → Outcome) (s : State) :
    Except PostError Unit × State :=
  if avgChunkSize < payload.buffer.length then
    uploadDataToServerInChunks service payload outcomes s
  else uploadSingleTarballToServerWithRetry service payload.buffer (outcomes 0) s

end BulkUpload

end Oxen
