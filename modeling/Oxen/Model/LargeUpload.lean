import Mathlib.Algebra.Order.Floor.Div
import Oxen.Lib.Runs
import Oxen.Model.VersionBackends

/-! Uploads of large files: clients send the chunks of a file side by side, over connections that
lose requests and answers, and then ask the server to put them together. -/

namespace Oxen

namespace LargeUpload

def avgChunkSize : ℕ := 1024 * 1024 * 10

def parallelFailures : ℕ := 63

/-! ## The server -/

inductive HttpError where
  | badRequest (message : String)
  | notFound (message : String)
  | internal
deriving DecidableEq, Repr

structure CompletedFileUpload where
  numChunks : Option ℕ
  /-- How many results an old client sent along. -/
  uploadResults : Option ℕ
deriving DecidableEq

structure CompleteVersionUploadRequest where
  files : List CompletedFileUpload
  workspaceId : Option String
deriving DecidableEq

/-- What comes of staging the file in a workspace. -/
abbrev Staging := String → Except HttpError Unit

def Staging.run (staging : Staging) : Option String → Except HttpError Unit
  | none => .ok ()
  | some workspaceId => staging workspaceId

def combine (staging : Staging) (store : VersionDirs) (versionId : HashText) (numChunks : ℕ)
    (workspaceId : Option String) : Except HttpError Unit × VersionDirs :=
  match store.listVersionChunks versionId with
  | .error _ => (.error .internal, store)
  | .ok chunks =>
      if chunks.length ≠ numChunks then
        (.error (.badRequest
          s!"Number of chunks does not match expected number of chunks: {chunks.length} != {numChunks}"),
          store)
      else
        match store.combineVersionChunks versionId with
        | (.error _, store) => (.error .internal, store)
        | (.ok _, store) => (staging.run workspaceId, store)

def complete (staging : Staging) (store : VersionDirs) (versionId : HashText)
    (request : CompleteVersionUploadRequest) : Except HttpError Unit × VersionDirs :=
  match request.files with
  | [file] =>
      match file.numChunks.or file.uploadResults with
      | none =>
          (.error (.badRequest "Missing both num_chunks and upload_results in request"), store)
      | some numChunks => combine staging store versionId numChunks request.workspaceId
  | _ => (.error (.badRequest "Expected a single file in the request"), store)

/-! ## The clients -/

/-- Only files that do not fit into one chunk are uploaded in this way. -/
structure MultipartLargeFileUpload where
  hash : HashText
  file : Bytes
  nonempty : file.data ≠ []

/-- How a client cuts its file, how often it tries, and how much it does at once. -/
structure Config where
  chunkSize : ℕ
  chunkSize_pos : 0 < chunkSize
  parallelFailures : ℕ
  maxRetries : ℕ
  maxFiles : ℕ

/-- The values that the client passes. -/
def Config.standard (maxRetries maxFiles : ℕ) : Config where
  chunkSize := avgChunkSize
  chunkSize_pos := by decide
  parallelFailures := LargeUpload.parallelFailures
  maxRetries := maxRetries
  maxFiles := maxFiles

variable (config : Config)

def numChunks (file : Bytes) : ℕ := file.data.length ⌈/⌉ config.chunkSize

def chunkStart (chunkNumber : ℕ) : UInt64 := UInt64.ofNat (chunkNumber * config.chunkSize)

def chunk (file : Bytes) (chunkNumber : ℕ) : Content :=
  (file.data.drop (chunkNumber * config.chunkSize)).take config.chunkSize

/-- How far the task of one chunk is, after so many retries. -/
inductive Task where
  | waiting
  | sent (retries : ℕ)
  | sleeping (retries : ℕ)
  | uploaded
  | failed
deriving DecidableEq

namespace Task

/-- The task holds a permit to upload. -/
def active : Task → Bool
  | sent _ => true
  | sleeping _ => true
  | _ => false

/-- The task holds a permit to have failed. -/
def failing : Task → Bool
  | sent retries => retries ≠ 0
  | sleeping _ => true
  | _ => false

end Task

inductive Progress where
  | uploading
  | completing
  | returned (ok : Bool)
deriving DecidableEq

structure Client where
  upload : MultipartLargeFileUpload
  workspaceId : Option String
  tasks : List Task
  progress : Progress := .uploading

namespace Client

/-- What a task does whose try failed. -/
def afterFailure (c : Client) (chunkNumber retries : ℕ) : Task :=
  if config.parallelFailures = 0 then .failed
  else if config.maxRetries ≤ retries then .failed
  else if config.parallelFailures ≤ (c.tasks.eraseIdx chunkNumber).countP Task.failing then .failed
  else .sleeping retries

/-- The try that a task makes next, if it may. -/
def nextTry (c : Client) : Task → Option ℕ
  | .waiting => if c.tasks.countP Task.active < config.maxFiles then some 0 else none
  | .sleeping retries => some (retries + 1)
  | _ => none

def setTask (c : Client) (chunkNumber : ℕ) (task : Task) : Client :=
  { c with tasks := c.tasks.set chunkNumber task }

/-- The body of the request to put the chunks together. -/
def completeRequest (c : Client) : CompleteVersionUploadRequest where
  files := [{ numChunks := some c.tasks.length, uploadResults := none }]
  workspaceId := c.workspaceId

end Client

/-! ## All together -/

/-- Requests on their way to the server, with the client, and the chunk and the try of it. -/
inductive Request where
  | chunk (client chunkNumber retries : ℕ) (versionId : HashText) (offset : UInt64)
      (body : Content)
  | complete (client : ℕ) (versionId : HashText) (body : CompleteVersionUploadRequest)

inductive Response where
  | chunk (client chunkNumber retries : ℕ)
  | complete (client : ℕ) (result : Except HttpError Unit)

structure State where
  store : VersionDirs
  clients : List Client := []
  requests : List Request := []
  responses : List Response := []
  /-- The versions that the server was asked to put together so far. -/
  completed : List HashText := []

inductive Action where
  | begins (upload : MultipartLargeFileUpload) (workspaceId : Option String)
  | send (client chunkNumber : ℕ)
  | serve (request : ℕ)
  | lose (request : ℕ)
  | hear (response : ℕ)
  /-- The try of a chunk fails where the client is. -/
  | giveUp (client chunkNumber : ℕ)
  | finish (client : ℕ)
  /-- A client whose chunks failed, or that hears no answer to its last request, returns. -/
  | abort (client : ℕ)

variable (staging : Staging)

def State.serve (s : State) : Request → State
  | .chunk client chunkNumber retries versionId offset body =>
      { s with
        store := s.store.storeVersionChunk versionId offset body
        responses := s.responses ++ [.chunk client chunkNumber retries] }
  | .complete client versionId body =>
      { s with
        store := (LargeUpload.complete staging s.store versionId body).2
        responses := s.responses ++
          [.complete client (LargeUpload.complete staging s.store versionId body).1]
        completed := versionId :: s.completed }

/-- What a client does with an answer: one to an earlier try is not heard any more. -/
def Client.hear (c : Client) : Response → Client
  | .chunk _ chunkNumber retries =>
      if c.tasks[chunkNumber]? = some (.sent retries) then c.setTask chunkNumber .uploaded else c
  | .complete _ result =>
      if c.progress = .completing then { c with progress := .returned result.isOk } else c

def Response.client : Response → ℕ
  | .chunk client _ _ => client
  | .complete client _ => client

def State.step (s : State) : Action → Option State
  | .begins upload workspaceId =>
      some { s with clients := s.clients ++
        [{ upload, workspaceId, tasks := List.replicate (numChunks config upload.file) .waiting }] }
  | .send client k => do
      let c ← s.clients[client]?
      let task ← c.tasks[k]?
      let retries ← c.nextTry config task
      some { s with
        clients := s.clients.set client (c.setTask k (.sent retries))
        requests := s.requests ++ [.chunk client k retries c.upload.hash (chunkStart config k)
          (chunk config c.upload.file k)] }
  | .serve i => do
      let request ← s.requests[i]?
      some { s.serve staging request with requests := s.requests.eraseIdx i }
  | .lose i => do
      let _ ← s.requests[i]?
      some { s with requests := s.requests.eraseIdx i }
  | .hear i => do
      let response ← s.responses[i]?
      let c ← s.clients[response.client]?
      some { s with
        clients := s.clients.set response.client (c.hear response)
        responses := s.responses.eraseIdx i }
  | .giveUp client k => do
      let c ← s.clients[client]?
      match c.tasks[k]? with
      | some (.sent retries) =>
          some { s with
            clients := s.clients.set client (c.setTask k (c.afterFailure config k retries)) }
      | _ => none
  | .finish client => do
      let c ← s.clients[client]?
      if c.progress = .uploading ∧ c.tasks.all (· = .uploaded) then
        some { s with
          clients := s.clients.set client { c with progress := .completing }
          requests := s.requests ++ [.complete client c.upload.hash c.completeRequest] }
      else none
  | .abort client => do
      let c ← s.clients[client]?
      if c.progress = .uploading ∧ .failed ∈ c.tasks ∨ c.progress = .completing then
        some { s with clients := s.clients.set client { c with progress := .returned false } }
      else none

def Step (action : Action) (s s' : State) : Prop := s.step config staging action = some s'

end LargeUpload

end Oxen
