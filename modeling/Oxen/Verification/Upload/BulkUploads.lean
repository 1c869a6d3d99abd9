import Oxen.Lib.Runs
import Oxen.Model.BulkUpload

/-! Bulk uploads over failing connections: the server puts together complete payloads only, and
a posted payload is put together exactly when all its chunks arrive. -/

namespace Oxen

namespace BulkUpload

open Upload OsPath Retries Runs

/-! ## The chunk files of a payload -/

theorem chunkFile_lt {i j : ℕ} (hj : j < 10 ^ 16) (h : i < j) : chunkFile i < chunkFile j :=
  ZeroPadded.append_lt_append_left _ (ZeroPadded.pad_lt_pad hj h)

theorem chunkFile_inj {i j : ℕ} (hi : i < 10 ^ 16) (hj : j < 10 ^ 16)
    (h : chunkFile i = chunkFile j) : i = j :=
  ZeroPadded.pad_injOn hi hj (List.append_cancel_left h)

namespace Payload

variable (payload : Payload)

theorem avgChunkSize_pos : 0 < avgChunkSize := by
  decide

theorem flatten_chunks : payload.chunks.flatten = payload.buffer :=
  Batches.flatten_split avgChunkSize_pos _

/-- The numbers of the chunks fit in their file names. -/
theorem length_chunks_le : payload.chunks.length ≤ 10 ^ 16 := by
  rw [chunks, Batches.length_split_le_iff avgChunkSize_pos, avgChunkSize]
  have := payload.fits
  omega

theorem lt_of_lt_length {i : ℕ} (h : i < payload.chunks.length) : i < 10 ^ 16 :=
  h.trans_le payload.length_chunks_le

/-- The names of the chunk files in order. -/
def files : List (List Char) :=
  (List.range payload.chunks.length).map chunkFile

theorem mem_files {name : List Char} :
    name ∈ payload.files ↔ ∃ i < payload.chunks.length, chunkFile i = name := by
  simp [files]

theorem pairwise_files : payload.files.Pairwise (· < ·) := by
  rw [files, List.pairwise_map]
  apply List.pairwise_lt_range.imp_of_mem
  intro i j _ hj hlt
  exact chunkFile_lt (payload.lt_of_lt_length (List.mem_range.mp hj)) hlt

end Payload

/-- The chunk files of an upload that are chunks of the payload. -/
def ChunksOf (payload : Payload) (files : KeyedMap.Map (List Char) Content) : Prop :=
  ∀ name content, files.lookup name = some content →
    ∃ i, payload.chunks[i]? = some content ∧ name = chunkFile i

/-- No chunk file is missing. -/
def Complete (payload : Payload) (files : KeyedMap.Map (List Char) Content) : Prop :=
  ∀ i < payload.chunks.length, chunkFile i ∈ files

variable {payload : Payload} {files : KeyedMap.Map (List Char) Content} {i : ℕ} {chunk : Content}

theorem lt_of_getElem? (h : payload.chunks[i]? = some chunk) : i < payload.chunks.length :=
  (List.getElem?_eq_some_iff.mp h).1

theorem ChunksOf.empty : ChunksOf payload ∅ := by
  intro name content h
  cases h

theorem ChunksOf.insert (h : ChunksOf payload files) (hi : payload.chunks[i]? = some chunk) :
    ChunksOf payload (files.insert (chunkFile i) chunk) := by
  intro name content hlookup
  rcases KeyedMap.lookup_insert_eq_some.mp hlookup with ⟨hname, hcontent⟩ | ⟨-, hold⟩
  · exact ⟨i, by rw [hi, hcontent], hname⟩
  · exact h name content hold

theorem ChunksOf.subset (h : ChunksOf payload files) : files.keys ⊆ payload.files := by
  intro name hname
  rcases Option.isSome_iff_exists.mp (AList.lookup_isSome.mpr hname) with ⟨content, hcontent⟩
  rcases h name content hcontent with ⟨i, hi, rfl⟩
  exact payload.mem_files.mpr ⟨i, lt_of_getElem? hi, rfl⟩

theorem ChunksOf.lookup (h : ChunksOf payload files) (hi : payload.chunks[i]? = some chunk)
    (hmem : chunkFile i ∈ files) : files.lookup (chunkFile i) = some chunk := by
  rcases Option.isSome_iff_exists.mp (AList.lookup_isSome.mpr hmem) with ⟨content, hcontent⟩
  rcases h _ content hcontent with ⟨j, hj, hname⟩
  obtain rfl : i = j := chunkFile_inj (payload.lt_of_lt_length (lt_of_getElem? hi))
    (payload.lt_of_lt_length (lt_of_getElem? hj)) hname
  rw [hcontent, ← hj, hi]

/-- As many files as chunks are all of them, in order. -/
theorem ChunksOf.sorted_eq (h : ChunksOf payload files)
    (hlength : payload.chunks.length ≤ files.keys.length) :
    files.keys.insertionSort (· ≤ ·) = payload.files := by
  have hperm : (files.keys.insertionSort (· ≤ ·)).Perm payload.files := by
    apply (List.perm_insertionSort _ _).trans
    apply (List.subperm_of_subset files.nodupKeys h.subset).perm_of_length_le
    rw [Payload.files, List.length_map, List.length_range]
    exact hlength
  apply hperm.eq_of_pairwise' (List.pairwise_insertionSort _ _)
  exact payload.pairwise_files.imp le_of_lt

theorem ChunksOf.complete_iff (h : ChunksOf payload files) :
    Complete payload files ↔ payload.chunks.length ≤ files.keys.length := by
  constructor
  · intro hall
    have hsub : payload.files ⊆ files.keys := by
      intro name hname
      rcases payload.mem_files.mp hname with ⟨i, hi, rfl⟩
      exact hall i hi
    have hle := (List.subperm_of_subset (payload.pairwise_files.imp ne_of_lt) hsub).length_le
    rwa [Payload.files, List.length_map, List.length_range] at hle
  · intro hlength i hi
    have hmem : chunkFile i ∈ payload.files := payload.mem_files.mpr ⟨i, hi, rfl⟩
    rw [← h.sorted_eq hlength, List.mem_insertionSort] at hmem
    exact hmem

theorem ChunksOf.contents_eq (h : ChunksOf payload files) (hall : Complete payload files) :
    payload.files.filterMap (fun name => files.lookup name) = payload.chunks := by
  have hfound : ∀ j ∈ List.range payload.chunks.length,
      ((fun name => files.lookup name) ∘ chunkFile) j = some (payload.chunks.getD j []) := by
    intro j hj
    have hlt := List.mem_range.mp hj
    have hget := List.getElem?_eq_getElem hlt
    rw [Function.comp_apply, h.lookup hget (hall j hlt), List.getD_eq_getElem?_getD, hget,
      Option.getD_some]
  rw [Payload.files, List.filterMap_map, List.filterMap_congr hfound]
  apply List.ext_getElem
  · simp
  · intro j hj hj'
    simp [List.getElem?_eq_getElem hj']

/-! ## What the server does with a chunk -/

variable (service : Service)

namespace Service

/-- An archive whose entries are all unpacked, wherever it is. -/
def Unpackable (bytes : Content) : Prop :=
  (Upload.unpackEntryTarballAsync service.repo ⟨[], []⟩ (service.entries bytes)).1.isOk

/-- The server can put the payload together. -/
def Accepts (payload : Payload) : Prop :=
  payload.isCompressed = true → service.Unpackable payload.buffer

/-- The file that a payload is for. -/
def file (payload : Payload) : Option OsPath :=
  if payload.isCompressed then none else payload.filename.map service.fullPath

/-- The chunk files that the server has of a payload. -/
def left (s : State) (payload : Payload) : KeyedMap.Map (List Char) Content :=
  s.chunked (service.hashBuffer payload.buffer)

end Service

theorem unpackEntry_isOk (repo : Target) (disk disk' : Disk) (entry : ArchiveEntry) :
    (unpackEntry repo disk entry).isOk = (unpackEntry repo disk' entry).isOk := by
  simp only [unpackEntry]
  split_ifs
  · cases extractHashFromPath (components entry.path) <;> rfl
  · rfl
  · cases destination repo.hiddenDir (components entry.path) with
    | none => rfl
    | some dest =>
        dsimp only
        split_ifs <;> rfl

/-- Whether an archive can be unpacked does not depend on what is there. -/
theorem unpackEntryTarballAsync_isOk (repo : Target) (disk disk' : Disk) (entries : Tarball) :
    (Upload.unpackEntryTarballAsync repo disk entries).1.isOk =
      (Upload.unpackEntryTarballAsync repo disk' entries).1.isOk := by
  induction entries generalizing disk disk' with
  | nil => rfl
  | cons entry entries ih =>
      cases entry with
      | none => rfl
      | some entry =>
          have hfirst := unpackEntry_isOk repo disk disk' entry
          unfold Upload.unpackEntryTarballAsync
          cases hd : unpackEntry repo disk entry with
          | error e =>
              cases hd' : unpackEntry repo disk' entry with
              | error e' => rfl
              | ok d' =>
                  rw [hd, hd'] at hfirst
                  cases hfirst
          | ok d =>
              cases hd' : unpackEntry repo disk' entry with
              | error e' =>
                  rw [hd, hd'] at hfirst
                  cases hfirst
              | ok d' => exact ih d d'

/-- What is recorded of an archive, and what the server answers. -/
theorem unpackEntryTarballAsync_spec (s : State) (bytes : Content) :
    ∃ ok, (service.unpackEntryTarballAsync s bytes).2.unpacked =
        s.unpacked ++ [⟨bytes, none, ok⟩] ∧
      (service.unpackEntryTarballAsync s bytes).2.chunked = s.chunked ∧
      (ok = true ↔ service.Unpackable bytes) ∧
      (ok = true ↔ (service.unpackEntryTarballAsync s bytes).1 = .ok ()) := by
  refine ⟨_, rfl, rfl, ?_, ?_⟩
  · rw [Service.Unpackable, unpackEntryTarballAsync_isOk _ s.disk ⟨[], []⟩]
  · simp only [Service.unpackEntryTarballAsync]
    cases (Upload.unpackEntryTarballAsync service.repo s.disk (service.entries bytes)).1 with
    | error e => simp [Except.isOk, Except.toBool, Except.mapError]
    | ok u => simp [Except.isOk, Except.toBool, Except.mapError]

/-- Putting together all chunks of a payload. -/
def Service.combine (payload : Payload) (s : State) : Except ServerError Unit × State :=
  if payload.isCompressed then
    match service.unpackCompressedData s payload.chunks with
    | (.error e, s) => (.error e, s)
    | (.ok (), s) => (.ok (), Service.removeDirAll s (service.hashBuffer payload.buffer))
  else
    match payload.filename with
    | none => (.error .missingFileName, s)
    | some filename =>
        (.ok (), Service.removeDirAll (service.unpackToFile s payload.chunks filename)
          (service.hashBuffer payload.buffer))

/-- The state with one more chunk file. -/
def Service.store (payload : Payload) (i : ℕ) (chunk : Content) (s : State) : State :=
  { s with
    chunked := Function.update s.chunked (service.hashBuffer payload.buffer)
      ((service.left s payload).insert (chunkFile i) chunk) }

variable {service} {s : State}

theorem left_store_eq (payload q : Payload) (i : ℕ) (chunk : Content) (s : State) :
    service.left (service.store payload i chunk s) q =
      if service.hashBuffer q.buffer = service.hashBuffer payload.buffer then
        (service.left s payload).insert (chunkFile i) chunk
      else service.left s q := by
  simp only [Service.left, Service.store, Function.update_apply]

@[simp] theorem left_store : service.left (service.store payload i chunk s) payload =
    (service.left s payload).insert (chunkFile i) chunk := by
  rw [left_store_eq, if_pos rfl]

theorem uploadChunk_of_missing
    (h : ChunksOf payload (service.left (service.store payload i chunk s) payload))
    (hmissing : ¬ Complete payload (service.left (service.store payload i chunk s) payload)) :
    service.uploadChunk (payload.query service i) chunk s =
      (.ok (), service.store payload i chunk s) := by
  rw [h.complete_iff, not_le] at hmissing
  unfold Service.uploadChunk Service.checkIfUploadCompleteAndUnpack
  apply if_pos
  rw [Service.listFilesInDir, List.length_insertionSort]
  exact hmissing

theorem uploadChunk_of_complete
    (h : ChunksOf payload (service.left (service.store payload i chunk s) payload))
    (hall : Complete payload (service.left (service.store payload i chunk s) payload)) :
    service.uploadChunk (payload.query service i) chunk s =
      service.combine payload (service.store payload i chunk s) := by
  have hlength := h.complete_iff.mp hall
  have hfiles : Service.listFilesInDir (service.store payload i chunk s)
      (service.hashBuffer payload.buffer) = payload.files := h.sorted_eq hlength
  have hnumber : ¬ payload.files.length < payload.chunks.length := by
    rw [Payload.files, List.length_map, List.length_range]
    exact lt_irrefl _
  have hcontents : payload.files.filterMap (fun file =>
      ((service.store payload i chunk s).chunked
        (service.hashBuffer payload.buffer)).lookup file) = payload.chunks := h.contents_eq hall
  have hsize : payload.buffer.length ≤ (payload.chunks.map List.length).sum := by
    rw [← List.length_flatten, payload.flatten_chunks]
  change service.checkIfUploadCompleteAndUnpack (service.store payload i chunk s)
    (payload.query service i) = _
  simp only [Service.checkIfUploadCompleteAndUnpack, Payload.query, hfiles, if_neg hnumber,
    hcontents, if_pos hsize, Service.combine]
  by_cases hc : payload.isCompressed = true
  · rcases service.unpackCompressedData (service.store payload i chunk s) payload.chunks with
      ⟨_ | _, s'⟩ <;> simp only [hc, if_true]
  · cases payload.filename <;> simp only [hc, Bool.false_eq_true, if_false]

/-- What putting a payload together records, and which chunk files it leaves. -/
theorem combine_spec (payload : Payload) (s : State) :
    ∃ ok, (service.combine payload s).2.unpacked =
        s.unpacked ++ [⟨payload.buffer, service.file payload, ok⟩] ∧
      (ok = true ↔ service.Accepts payload) ∧
      ((service.combine payload s).2.chunked = s.chunked ∨
        (service.combine payload s).2.chunked =
          Function.update s.chunked (service.hashBuffer payload.buffer) ∅) := by
  by_cases hc : payload.isCompressed = true
  · rcases unpackEntryTarballAsync_spec service s payload.buffer with ⟨ok, hunpacked, hchunked, hok, -⟩
    refine ⟨ok, ?_⟩
    rw [Service.file, if_pos hc, Service.combine, if_pos hc, Service.unpackCompressedData,
      payload.flatten_chunks]
    have haccepts : ok = true ↔ service.Accepts payload := by
      rw [hok, Service.Accepts]
      simp [hc]
    rcases hresult : service.unpackEntryTarballAsync s payload.buffer with ⟨_ | _, s'⟩
    · rw [hresult] at hunpacked hchunked
      exact ⟨hunpacked, haccepts, .inl hchunked⟩
    · rw [hresult] at hunpacked hchunked
      refine ⟨hunpacked, haccepts, .inr ?_⟩
      rw [← hchunked]
      rfl
  · rcases Option.isSome_iff_exists.mp (payload.named (Bool.eq_false_iff.mpr hc)) with
      ⟨filename, hname⟩
    refine ⟨true, ?_, ?_, .inr ?_⟩
    · rw [Service.combine, if_neg hc, hname, Service.file, if_neg hc, hname]
      simp [Service.removeDirAll, Service.unpackToFile, payload.flatten_chunks]
    · simp [Service.Accepts, hc]
    · rw [Service.combine, if_neg hc, hname]
      rfl

/-! ## Runs of requests -/

/-- A request of some client: one chunk of a payload, or a buffer as a whole. -/
inductive Request where
  | uploadChunk (payload : Payload) (i : ℕ)
  | upload (payload : Payload)

def Request.sent : Request → Payload
  | uploadChunk payload _ => payload
  | upload payload => payload

def Request.serve (service : Service) : Request → State → State
  | uploadChunk payload i, s =>
      match payload.chunks[i]? with
      | none => s
      | some chunk => (service.uploadChunk (payload.query service i) chunk s).2
  | upload payload, s => (service.upload payload.buffer s).2

def Step (service : Service) (payloads : Set Payload) (request : Request) (s s' : State) : Prop :=
  request.sent ∈ payloads ∧ s' = request.serve service s

/-- No chunk files, and nothing put together. -/
def State.Fresh (s : State) : Prop :=
  (∀ hash, s.chunked hash = ∅) ∧ s.unpacked = []

/-- The server after any requests for some payloads, of any clients and in any order. -/
def Served (service : Service) (payloads : Set Payload) (s : State) : Prop :=
  ∃ start requests, State.Fresh start ∧ Run (Step service payloads) requests start s

/-- The hash tells the buffers of these payloads apart. -/
def Distinct (service : Service) (payloads : Set Payload) : Prop :=
  ∀ p ∈ payloads, ∀ q ∈ payloads,
    service.hashBuffer p.buffer = service.hashBuffer q.buffer → p.buffer = q.buffer

/-- Every chunk file is a chunk of its payload, and only whole payloads were put together. -/
structure Sound (service : Service) (payloads : Set Payload) (s : State) : Prop where
  left : ∀ p ∈ payloads, ChunksOf p (service.left s p)
  unpacked : ∀ u ∈ s.unpacked, ∃ p ∈ payloads, u.bytes = p.buffer

variable {payloads : Set Payload}

theorem Sound.of_fresh (service : Service) (payloads : Set Payload) (h : s.Fresh) :
    Sound service payloads s where
  left p _ := by
    rw [Service.left, h.1]
    exact ChunksOf.empty
  unpacked u hu := by
    rw [h.2] at hu
    cases hu

theorem chunks_congr {p q : Payload} (h : p.buffer = q.buffer) : p.chunks = q.chunks := by
  rw [Payload.chunks, h, Payload.chunks]

theorem Sound.store (h : Sound service payloads s) (hdistinct : Distinct service payloads)
    (hp : payload ∈ payloads) (hi : payload.chunks[i]? = some chunk) :
    Sound service payloads (service.store payload i chunk s) where
  left q hq := by
    rw [left_store_eq]
    split_ifs with hhash
    · have hold := h.left q hq
      rw [Service.left, hhash] at hold
      apply hold.insert
      rw [chunks_congr (hdistinct q hq payload hp hhash), hi]
    · exact h.left q hq
  unpacked := h.unpacked

theorem Sound.combine (h : Sound service payloads s) (hp : payload ∈ payloads) :
    Sound service payloads (service.combine payload s).2 := by
  rcases combine_spec payload s with ⟨ok, hunpacked, -, hchunked⟩
  constructor
  · intro q hq
    rw [Service.left]
    rcases hchunked with heq | heq
    · rw [heq]
      exact h.left q hq
    · rw [heq]
      by_cases hhash : service.hashBuffer q.buffer = service.hashBuffer payload.buffer
      · rw [hhash, Function.update_self]
        exact ChunksOf.empty
      · rw [Function.update_of_ne hhash]
        exact h.left q hq
  · intro u hu
    rw [hunpacked, List.mem_append, List.mem_singleton] at hu
    rcases hu with hold | rfl
    · exact h.unpacked u hold
    · exact ⟨payload, hp, rfl⟩

theorem Sound.uploadChunk (h : Sound service payloads s) (hdistinct : Distinct service payloads)
    (hp : payload ∈ payloads) (hi : payload.chunks[i]? = some chunk) :
    Sound service payloads (service.uploadChunk (payload.query service i) chunk s).2 := by
  have hstored := h.store hdistinct hp hi
  by_cases hall : Complete payload (service.left (service.store payload i chunk s) payload)
  · rw [uploadChunk_of_complete (hstored.left payload hp) hall]
    exact hstored.combine hp
  · rw [uploadChunk_of_missing (hstored.left payload hp) hall]
    exact hstored

theorem Sound.upload (h : Sound service payloads s) (hp : payload ∈ payloads) :
    Sound service payloads (service.upload payload.buffer s).2 := by
  rcases unpackEntryTarballAsync_spec service s payload.buffer with ⟨ok, hunpacked, hchunked, -, -⟩
  constructor
  · intro q hq
    rw [Service.left, Service.upload, hchunked]
    exact h.left q hq
  · intro u hu
    rw [Service.upload, hunpacked, List.mem_append, List.mem_singleton] at hu
    rcases hu with hold | rfl
    · exact h.unpacked u hold
    · exact ⟨payload, hp, rfl⟩

theorem Sound.serve (h : Sound service payloads s) (hdistinct : Distinct service payloads)
    {request : Request} (hp : request.sent ∈ payloads) :
    Sound service payloads (request.serve service s) := by
  cases request with
  | uploadChunk payload i =>
      rw [Request.serve]
      cases hi : payload.chunks[i]? with
      | none => exact h
      | some chunk => exact h.uploadChunk hdistinct hp hi
  | upload payload => exact h.upload hp

theorem Served.sound (h : Served service payloads s) (hdistinct : Distinct service payloads) :
    Sound service payloads s := by
  rcases h with ⟨start, requests, hfresh, hrun⟩
  apply hrun.keeps _ (Sound.of_fresh service payloads hfresh)
  intro request s s' hstep hs
  rw [hstep.2]
  exact hs.serve hdistinct hstep.1

/-! ## Posting one payload -/

/-- What the requests for the chunks that arrived make of a state. The payload is put together
as soon as no chunk is missing, and not before. -/
structure Session (service : Service) (payload : Payload) (s : State) (arrived : Set ℕ)
    (s' : State) : Prop where
  files : ∀ i < payload.chunks.length, chunkFile i ∈ service.left s' payload →
    chunkFile i ∈ service.left s payload ∨ i ∈ arrived
  unpacked : ∃ new, s'.unpacked = s.unpacked ++ new ∧
    (∀ u ∈ new, u.bytes = payload.buffer ∧ u.file = service.file payload ∧
      (u.ok = true ↔ service.Accepts payload)) ∧
    (new ≠ [] → arrived.Nonempty ∧ ∀ i < payload.chunks.length,
      chunkFile i ∈ service.left s payload ∨ i ∈ arrived) ∧
    (new = [] → (∀ i < payload.chunks.length,
        chunkFile i ∈ service.left s payload ∨ i ∈ arrived →
          chunkFile i ∈ service.left s' payload) ∧
      (arrived.Nonempty → ¬ Complete payload (service.left s' payload)))

variable {s' : State} {arrived : Set ℕ}

theorem Session.start (service : Service) (payload : Payload) (s : State) :
    Session service payload s ∅ s where
  files i _ hi := .inl hi
  unpacked := by
    refine ⟨[], (List.append_nil _).symm, fun u hu => absurd hu List.not_mem_nil,
      fun h => absurd rfl h, fun _ => ⟨fun i _ hi => ?_, fun h => absurd h Set.not_nonempty_empty⟩⟩
    exact hi.resolve_right (Set.notMem_empty i)

theorem mem_left_store (hi : payload.chunks[i]? = some chunk) {j : ℕ}
    (hj : j < payload.chunks.length) :
    chunkFile j ∈ service.left (service.store payload i chunk s) payload ↔
      j = i ∨ chunkFile j ∈ service.left s payload := by
  rw [left_store, AList.mem_insert]
  constructor
  · rintro (heq | hold)
    · exact .inl (chunkFile_inj (payload.lt_of_lt_length hj)
        (payload.lt_of_lt_length (lt_of_getElem? hi)) heq)
    · exact .inr hold
  · rintro (rfl | hold)
    · exact .inl rfl
    · exact .inr hold

/-- One more chunk arrives. -/
theorem Session.uploadChunk (h : Session service payload s arrived s')
    (hsound : ChunksOf payload (service.left (service.store payload i chunk s') payload))
    (hi : payload.chunks[i]? = some chunk) :
    Session service payload s (insert i arrived)
      (service.uploadChunk (payload.query service i) chunk s').2 := by
  have hfiles : ∀ j < payload.chunks.length,
      chunkFile j ∈ service.left (service.store payload i chunk s') payload →
        chunkFile j ∈ service.left s payload ∨ j ∈ insert i arrived := by
    intro j hj hmem
    rcases (mem_left_store hi hj).mp hmem with rfl | hold
    · exact .inr (Set.mem_insert j arrived)
    · exact (h.files j hj hold).imp_right (Set.mem_insert_of_mem i)
  rcases h.unpacked with ⟨new, hnew, hall, hput, hopen⟩
  by_cases hcomplete : Complete payload (service.left (service.store payload i chunk s') payload)
  · -- the last missing chunk: the payload is put together
    rw [uploadChunk_of_complete hsound hcomplete]
    rcases combine_spec payload (service.store payload i chunk s') with
      ⟨ok, hunpacked, hok, hchunked⟩
    constructor
    · intro j hj hmem
      apply hfiles j hj
      rcases hchunked with heq | heq
      · rwa [Service.left, heq] at hmem
      · rw [Service.left, heq, Function.update_self] at hmem
        exact absurd hmem (AList.notMem_empty _)
    · refine ⟨new ++ [⟨payload.buffer, service.file payload, ok⟩], ?_, ?_, ?_, ?_⟩
      · rw [hunpacked, ← List.append_assoc, ← hnew]
        rfl
      · intro u hu
        rcases List.mem_append.mp hu with hold | hlast
        · exact hall u hold
        · rw [List.mem_singleton.mp hlast]
          exact ⟨rfl, rfl, hok⟩
      · intro _
        exact ⟨Set.insert_nonempty i arrived, fun j hj => hfiles j hj (hcomplete j hj)⟩
      · intro hnil
        exact absurd hnil (by simp)
  · -- the chunk is kept for later
    rw [uploadChunk_of_missing hsound hcomplete]
    constructor
    · exact hfiles
    · refine ⟨new, hnew, hall, fun hne => ⟨Set.insert_nonempty i arrived, fun j hj => ?_⟩,
        fun hnil => ⟨fun j hj hmem => ?_, fun _ => hcomplete⟩⟩
      · exact ((hput hne).2 j hj).imp_right (Set.mem_insert_of_mem i)
      · rw [mem_left_store hi hj]
        by_cases hij : j = i
        · exact .inl hij
        · apply Or.inr
          apply (hopen hnil).1 j hj
          exact hmem.imp_right fun hins => (Set.mem_insert_iff.mp hins).resolve_left hij

/-- The outcomes of the tries that a client has for one request. -/
def tries (outcomes : ℕ → Outcome) : List Outcome :=
  (List.range numHttpRetries).map outcomes

theorem Session.uploadWithRetry (h : Session service payload s arrived s')
    (hsound : Sound service payloads s') (hdistinct : Distinct service payloads)
    (hp : payload ∈ payloads) (hi : payload.chunks[i]? = some chunk) (outcomes : ℕ → Outcome) :
    let after := (uploadDataChunkToServerWithRetry service payload i chunk outcomes s').2
    Sound service payloads after ∧
      Session service payload s (arrived ∪ {j | j = i ∧ Arrives (tries outcomes)}) after := by
  have hstep : ∀ {A : Set ℕ} {t : State}, Sound service payloads t ∧ Session service payload s A t →
      let after := (uploadDataChunkToServer service payload i chunk t).2
      Sound service payloads after ∧ Session service payload s (insert i A) after := by
    intro A t ht
    exact ⟨ht.1.uploadChunk hdistinct hp hi,
      ht.2.uploadChunk ((ht.1.store hdistinct hp hi).left payload hp) hi⟩
  intro after
  by_cases harrives : Arrives (tries outcomes)
  · have hset : arrived ∪ {j | j = i ∧ Arrives (tries outcomes)} = insert i arrived := by
      ext j
      simp [harrives]
    rw [hset]
    apply retry_arrives (P := fun t => Sound service payloads t ∧ Session service payload s arrived t)
      (Q := fun t => Sound service payloads t ∧
        Session service payload s (insert i arrived) t) _ _ harrives ⟨hsound, h⟩
    · intro t ht
      exact hstep ht
    · intro t ht
      have hagain := hstep ht
      rwa [Set.insert_idem] at hagain
  · have hset : arrived ∪ {j | j = i ∧ Arrives (tries outcomes)} = arrived := by
      ext j
      simp [harrives]
    have hlost : ∃ e, retry (uploadDataChunkToServer service payload i chunk) .request .request
        (tries outcomes) s' = (.error e, s') := retry_of_not_arrives harrives
    rcases hlost with ⟨e, he⟩
    have hafter : after = s' := congrArg Prod.snd he
    rw [hset, hafter]
    exact ⟨hsound, h⟩

/-- All chunks of a list, one after the other. -/
theorem Session.uploadAll (hdistinct : Distinct service payloads) (hp : payload ∈ payloads)
    (outcomes : ℕ → ℕ → Outcome) {chunks : List (Content × ℕ)}
    (hchunks : ∀ c ∈ chunks, payload.chunks[c.2]? = some c.1)
    (h : Session service payload s arrived s') (hsound : Sound service payloads s') :
    let after := chunks.foldl (fun s chunk => (uploadDataChunkToServerWithRetry service payload
      chunk.2 chunk.1 (outcomes chunk.2) s).2) s'
    Sound service payloads after ∧
      Session service payload s
        (arrived ∪ {j | ∃ c ∈ chunks, j = c.2 ∧ Arrives (tries (outcomes c.2))}) after := by
  induction chunks generalizing s' arrived with
  | nil =>
      have hset : arrived ∪ {j | ∃ c ∈ ([] : List (Content × ℕ)),
          j = c.2 ∧ Arrives (tries (outcomes c.2))} = arrived := by
        ext j
        simp
      rw [hset]
      exact ⟨hsound, h⟩
  | cons c chunks ih =>
      have hfirst := h.uploadWithRetry hsound hdistinct hp (hchunks c List.mem_cons_self)
        (outcomes c.2)
      have hrest := ih (fun d hd => hchunks d (List.mem_cons_of_mem c hd)) hfirst.2 hfirst.1
      have hset : arrived ∪ {j | ∃ d ∈ c :: chunks, j = d.2 ∧ Arrives (tries (outcomes d.2))} =
          arrived ∪ {j | j = c.2 ∧ Arrives (tries (outcomes c.2))} ∪
            {j | ∃ d ∈ chunks, j = d.2 ∧ Arrives (tries (outcomes d.2))} := by
        ext j
        simp only [Set.mem_union, Set.mem_ofPred_eq, List.mem_cons]
        constructor
        · rintro (hj | ⟨d, rfl | hd, hj⟩)
          · exact .inl (.inl hj)
          · exact .inl (.inr hj)
          · exact .inr ⟨d, hd, hj⟩
        · rintro ((hj | hj) | ⟨d, hd, hj⟩)
          · exact .inl hj
          · exact .inr ⟨c, .inl rfl, hj⟩
          · exact .inr ⟨d, .inr hd, hj⟩
      rw [hset]
      exact hrest

/-- The chunks that reach the server. -/
def arriving (payload : Payload) (outcomes : ℕ → ℕ → Outcome) : Set ℕ :=
  {i | i < payload.chunks.length ∧ Arrives (tries (outcomes i))}

theorem session_uploadDataToServerInChunks (hdistinct : Distinct service payloads)
    (hp : payload ∈ payloads) (hsound : Sound service payloads s) (outcomes : ℕ → ℕ → Outcome) :
    let after := (uploadDataToServerInChunks service payload outcomes s).2
    Sound service payloads after ∧
      Session service payload s (arriving payload outcomes) after := by
  have hchunks : ∀ c ∈ payload.chunks.zipIdx, payload.chunks[c.2]? = some c.1 :=
    fun c hc => List.mem_zipIdx_iff_getElem?.mp hc
  have hall := (Session.start service payload s).uploadAll hdistinct hp outcomes hchunks hsound
  have hset : ∅ ∪ {j | ∃ c ∈ payload.chunks.zipIdx, j = c.2 ∧ Arrives (tries (outcomes c.2))} =
      arriving payload outcomes := by
    ext j
    simp only [Set.empty_union, Set.mem_ofPred_eq, arriving]
    constructor
    · rintro ⟨c, hc, rfl, harrives⟩
      exact ⟨lt_of_getElem? (hchunks c hc), harrives⟩
    · rintro ⟨hlt, harrives⟩
      exact ⟨(payload.chunks[j], j),
        List.mem_zipIdx_iff_getElem?.mpr (List.getElem?_eq_getElem hlt), rfl, harrives⟩
  rw [hset] at hall
  exact hall

/-- The payload was put together between two states. -/
def Delivered (service : Service) (payload : Payload) (s s' : State) : Prop :=
  ∃ new, s'.unpacked = s.unpacked ++ new ∧
    ⟨payload.buffer, service.file payload, true⟩ ∈ new

/-- Every chunk reaches the server now or is there from before, one of them now. -/
def AllArrive (service : Service) (payload : Payload) (outcomes : ℕ → ℕ → Outcome) (s : State) :
    Prop :=
  (arriving payload outcomes).Nonempty ∧ ∀ i < payload.chunks.length,
    chunkFile i ∈ service.left s payload ∨ i ∈ arriving payload outcomes

theorem Session.delivered_iff {outcomes : ℕ → ℕ → Outcome}
    (h : Session service payload s (arriving payload outcomes) s') :
    Delivered service payload s s' ↔
      service.Accepts payload ∧ AllArrive service payload outcomes s := by
  rcases h.unpacked with ⟨new, hnew, hall, hput, hopen⟩
  constructor
  · rintro ⟨new', hnew', hmem⟩
    rw [hnew, List.append_cancel_left_eq] at hnew'
    rw [← hnew'] at hmem
    exact ⟨(hall _ hmem).2.2.mp rfl, hput (List.ne_nil_of_mem hmem)⟩
  · rintro ⟨haccepts, hsome, harrived⟩
    have hne : new ≠ [] := by
      intro hnil
      apply (hopen hnil).2 hsome
      exact fun i hi => (hopen hnil).1 i hi (harrived i hi)
    rcases List.exists_mem_of_ne_nil new hne with ⟨u, hu⟩
    rcases hall u hu with ⟨hbytes, hfile, hok⟩
    refine ⟨new, hnew, ?_⟩
    rw [← hbytes, ← hfile, ← hok.mpr haccepts]
    exact hu

/-! ## Buffers of one request -/

theorem uploadSingleTarballToServer_spec (service : Service) (buffer : Content) (s : State) :
    ∃ ok, (uploadSingleTarballToServer service buffer s).2.unpacked =
        s.unpacked ++ [⟨buffer, none, ok⟩] ∧
      (ok = true ↔ service.Unpackable buffer) ∧
      ((uploadSingleTarballToServer service buffer s).1 = .ok () ↔ service.Unpackable buffer) := by
  rcases unpackEntryTarballAsync_spec service s buffer with ⟨ok, hunpacked, -, hok, hanswer⟩
  refine ⟨ok, hunpacked, hok, ?_⟩
  rw [← hok, hanswer]
  simp only [uploadSingleTarballToServer, answer, Service.upload]
  cases (service.unpackEntryTarballAsync s buffer).1 with
  | error e => simp [Except.mapError]
  | ok u => simp [Except.mapError]

/-- Any number of requests with one buffer. -/
def Tried (service : Service) (buffer : Content) (s s' : State) : Prop :=
  ∃ new, s'.unpacked = s.unpacked ++ new ∧
    ∀ u ∈ new, u.bytes = buffer ∧ u.file = none ∧ (u.ok = true ↔ service.Unpackable buffer)

theorem Tried.again {buffer : Content} (h : Tried service buffer s s') :
    Tried service buffer s (uploadSingleTarballToServer service buffer s').2 := by
  rcases h with ⟨new, hnew, hall⟩
  rcases uploadSingleTarballToServer_spec service buffer s' with ⟨ok, hunpacked, hok, -⟩
  refine ⟨new ++ [⟨buffer, none, ok⟩], ?_, fun u hu => ?_⟩
  · rw [hunpacked, hnew, List.append_assoc]
  · rcases List.mem_append.mp hu with hold | hlast
    · exact hall u hold
    · rw [List.mem_singleton.mp hlast]
      exact ⟨rfl, rfl, hok⟩

theorem mapError_eq_ok {ε ε' : Type} {x : Except ε Unit} {f : ε → ε'} :
    x.mapError f = .ok () ↔ x = .ok () := by
  cases x with
  | error e => simp [Except.mapError]
  | ok u => simp [Except.mapError]

/-- The request is answered exactly when the buffer is an archive and a try succeeds. -/
theorem uploadSingleTarballToServerWithRetry_ok_iff (buffer : Content) (outcomes : ℕ → Outcome)
    (s : State) :
    (uploadSingleTarballToServerWithRetry service buffer outcomes s).1 = .ok () ↔
      service.Unpackable buffer ∧ .success ∈ tries outcomes := by
  have hanswer : ∀ t, (uploadSingleTarballToServer service buffer t).1 = .ok () ↔
      service.Unpackable buffer := by
    intro t
    rcases uploadSingleTarballToServer_spec service buffer t with ⟨ok, -, -, h⟩
    exact h
  rw [uploadSingleTarballToServerWithRetry, mapError_eq_ok]
  constructor
  · intro hok
    rcases retry_ok (P := fun _ => True) (fun _ _ => trivial) trivial hok with
      ⟨hmem, t, -, hserved⟩
    exact ⟨(hanswer t).mp (by rw [hserved]), hmem⟩
  · rintro ⟨hunpackable, hmem⟩
    exact exists_retry_ok (P := fun _ => True) (fun _ _ => trivial)
      (fun t _ => (hanswer t).mpr hunpackable) trivial hmem

theorem tried_uploadSingleTarballToServerWithRetry (service : Service) (buffer : Content)
    (outcomes : ℕ → Outcome) (s : State) :
    Tried service buffer s (uploadSingleTarballToServerWithRetry service buffer outcomes s).2 :=
  retry_keeps (P := Tried service buffer s) (fun _ ht => ht.again)
    ⟨[], (List.append_nil _).symm, fun _ hu => absurd hu List.not_mem_nil⟩

/-- An archive that is answered for was unpacked. -/
theorem delivered_of_ok (hc : payload.isCompressed = true) {outcomes : ℕ → Outcome}
    (hok : (uploadSingleTarballToServerWithRetry service payload.buffer outcomes s).1 = .ok ()) :
    Delivered service payload s
      (uploadSingleTarballToServerWithRetry service payload.buffer outcomes s).2 := by
  rw [uploadSingleTarballToServerWithRetry, mapError_eq_ok] at hok
  rcases retry_ok (P := Tried service payload.buffer s) (fun _ ht => ht.again)
    ⟨[], (List.append_nil _).symm, fun _ hu => absurd hu List.not_mem_nil⟩ hok with
    ⟨-, t, ⟨new, hnew, -⟩, hserved⟩
  rcases uploadSingleTarballToServer_spec service payload.buffer t with
    ⟨ok, hunpacked, hok, hanswer⟩
  have htrue : ok = true := by
    rw [hok, ← hanswer, hserved]
  refine ⟨new ++ [⟨payload.buffer, none, ok⟩], ?_, ?_⟩
  · rw [hserved] at hunpacked
    rw [← List.append_assoc, ← hnew]
    exact hunpacked
  · rw [Service.file, if_pos hc, htrue]
    exact List.mem_append_right _ List.mem_cons_self

/-- A file that goes in one request is never written. -/
theorem not_delivered (hc : ¬ payload.isCompressed = true) (outcomes : ℕ → Outcome) :
    ¬ Delivered service payload s
      (uploadSingleTarballToServerWithRetry service payload.buffer outcomes s).2 := by
  rintro ⟨new', hnew', hmem⟩
  rcases tried_uploadSingleTarballToServerWithRetry service payload.buffer outcomes s with
    ⟨new, hnew, hall⟩
  rw [hnew, List.append_cancel_left_eq] at hnew'
  rw [← hnew'] at hmem
  have hfile := (hall _ hmem).2.1
  rcases Option.isSome_iff_exists.mp (payload.named (Bool.eq_false_iff.mpr hc)) with ⟨name, hname⟩
  rw [Service.file, if_neg hc, hname] at hfile
  cases hfile

/-! ## When a post delivers -/

/-- A long payload is one that the server accepts and whose chunks all arrive. A short one is an
archive, unless its request fails. -/
def Delivers (service : Service) (payload : Payload) (outcomes : ℕ → ℕ → Outcome) (s : State) :
    Prop :=
  if avgChunkSize < payload.buffer.length then
    service.Accepts payload ∧ AllArrive service payload outcomes s
  else
    payload.isCompressed = true ∨
      ¬ (service.Unpackable payload.buffer ∧ .success ∈ tries (outcomes 0))

/-- After any requests of any clients, a post that returns without an error has put its payload
together exactly when it delivers, and the server never puts anything together but payloads. -/
theorem postDataToServer_delivers_iff (h : Served service payloads s)
    (hdistinct : Distinct service payloads) (hp : payload ∈ payloads)
    (outcomes : ℕ → ℕ → Outcome) :
    (((postDataToServer service payload outcomes s).1 = .ok () →
        Delivered service payload s (postDataToServer service payload outcomes s).2) ↔
      Delivers service payload outcomes s) ∧
    ∀ u ∈ (postDataToServer service payload outcomes s).2.unpacked,
      ∃ p ∈ payloads, u.bytes = p.buffer := by
  have hsound := h.sound hdistinct
  rw [Delivers, postDataToServer]
  by_cases hlong : avgChunkSize < payload.buffer.length
  · rw [if_pos hlong, if_pos hlong]
    rcases session_uploadDataToServerInChunks hdistinct hp hsound outcomes with ⟨hafter, hsession⟩
    refine ⟨?_, hafter.unpacked⟩
    rw [← hsession.delivered_iff]
    exact ⟨fun hdelivers => hdelivers rfl, fun hdelivered _ => hdelivered⟩
  · rw [if_neg hlong, if_neg hlong]
    constructor
    · rw [uploadSingleTarballToServerWithRetry_ok_iff]
      by_cases hc : payload.isCompressed = true
      · simp only [hc, true_or, iff_true]
        intro hok
        apply delivered_of_ok hc
        exact (uploadSingleTarballToServerWithRetry_ok_iff _ _ _).mpr hok
      · simp only [hc, Bool.false_eq_true, false_or]
        constructor
        · intro hdelivers hok
          exact not_delivered hc _ (hdelivers hok)
        · intro hnot hok
          exact absurd hok hnot
    · have hkeep : Sound service payloads
          (uploadSingleTarballToServerWithRetry service payload.buffer (outcomes 0) s).2 :=
        retry_keeps (P := Sound service payloads) (fun _ ht => ht.upload hp) hsound
      exact hkeep.unpacked

namespace Outage

/-- A repository below the root, with archives of no entries. -/
def server : Service where
  repo := ⟨[], [.rootDir, .normal "repo"], .localStorage none⟩
  entries _ := []
  toPathbuf := components
  hashBuffer buffer := String.ofList (buffer.map fun byte => Char.ofNat byte.toNat)

/-- A file of one byte more than a chunk. -/
def zeros : Payload where
  buffer := List.replicate (avgChunkSize + 1) 0
  isCompressed := false
  filename := some "zeros.bin"
  named _ := rfl
  fits := by
    rw [List.length_replicate]
    decide

def start : State where
  chunked _ := ∅
  disk := ⟨[], []⟩
  unpacked := []

theorem served_start : Served server {zeros} start :=
  ⟨start, [], ⟨fun _ => rfl, rfl⟩, .nil start⟩

theorem distinct_zeros : Distinct server {zeros} := by
  intro p hp q hq _
  rw [Set.mem_singleton_iff.mp hp, Set.mem_singleton_iff.mp hq]

theorem long_zeros : avgChunkSize < zeros.buffer.length := by
  rw [zeros, List.length_replicate]
  exact Nat.lt_succ_self _

theorem ok_zeros (outcomes : ℕ → ℕ → Outcome) :
    (postDataToServer server zeros outcomes start).1 = .ok () := by
  rw [postDataToServer, if_pos long_zeros]
  rfl

/-- The first try of every request fails, the second one arrives. -/
def lateNetwork (_ attempt : ℕ) : Outcome :=
  if attempt = 0 then .failure else .success

theorem allArrive_late : AllArrive server zeros lateNetwork start := by
  have harrives : ∀ i, Arrives (tries (lateNetwork i)) := by
    intro i
    have hmem : Outcome.success ∈ tries (lateNetwork 0) := by decide
    exact ⟨.success, hmem, by decide⟩
  have hpos : 0 < zeros.chunks.length := by
    apply Nat.pos_of_ne_zero
    intro hnone
    have hempty := zeros.flatten_chunks
    rw [List.eq_nil_of_length_eq_zero hnone] at hempty
    have hlong := long_zeros
    rw [← hempty] at hlong
    exact absurd hlong (Nat.not_lt_zero _)
  exact ⟨⟨0, hpos, harrives 0⟩, fun i hi => .inr ⟨hi, harrives i⟩⟩

theorem not_allArrive_failure : ¬ AllArrive server zeros (fun _ _ => .failure) start := by
  rintro ⟨⟨i, -, outcome, houtcome, hne⟩, -⟩
  rcases List.mem_map.mp houtcome with ⟨j, -, hj⟩
  exact hne hj.symm

end Outage

open Outage in
/-- A post whose requests arrive at the second try is put together. One of which no request
arrives also returns without an error. -/
theorem postDataToServer_zeros :
    Delivered server zeros start (postDataToServer server zeros lateNetwork start).2 ∧
      (postDataToServer server zeros (fun _ _ => .failure) start).1 = .ok () ∧
      ¬ Delivered server zeros start
        (postDataToServer server zeros (fun _ _ => .failure) start).2 := by
  have hlate := (postDataToServer_delivers_iff served_start distinct_zeros
    (Set.mem_singleton zeros) lateNetwork).1
  have hfailure := (postDataToServer_delivers_iff served_start distinct_zeros
    (Set.mem_singleton zeros) fun _ _ => .failure).1
  rw [Delivers, if_pos long_zeros] at hlate hfailure
  refine ⟨hlate.mpr ⟨?_, allArrive_late⟩ (ok_zeros _), ok_zeros _, fun h => ?_⟩
  · intro hc
    exact absurd hc Bool.false_ne_true
  · exact not_allArrive_failure (hfailure.mp fun _ => h).2

end BulkUpload

end Oxen
