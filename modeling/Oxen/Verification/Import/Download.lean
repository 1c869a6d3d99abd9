import Oxen.Model.ImportFile
import Oxen.Verification.Checkout.Errors
import Oxen.Verification.Staging.Unstage

/-! Which imports stage exactly what was downloaded. -/

namespace Oxen

namespace WorkingTree

theorem content_eq {disk : WorkingTree} {path : PathBuf} {content : Content} {mtime : FileTime}
    (h : disk.lookup path = some (.file content mtime)) : disk.content path = some content := by
  rw [WorkingTree.content, h]

/-- New directories change no file. -/
theorem content_createDirAll {disk disk' : WorkingTree} {done rest : PathBuf}
    (h : disk.createDirAll done rest = .ok disk') (path : PathBuf) :
    disk'.content path = disk.content path := by
  induction rest generalizing disk done with
  | nil =>
      cases h
      rfl
  | cons name rest ih =>
      unfold createDirAll at h
      split at h
      · exact ih h
      · cases h
      · next hnone =>
        split at h
        · rw [ih h, WorkingTree.content, WorkingTree.content, lookup_put]
          by_cases hpath : path = done ++ [name]
          · rw [if_pos hpath, hpath, hnone]
          · rw [if_neg hpath]
        · cases h

theorem lookup_writeFile {disk disk' : WorkingTree} {path : PathBuf} {content : Content}
    {mtime : FileTime} (h : disk.writeFile path content mtime = .ok disk') :
    disk'.lookup path = some (.file content mtime) := by
  unfold writeFile at h
  split at h
  · cases h
    rw [lookup_put, if_pos rfl]
  · cases h

end WorkingTree

namespace ImportFile

open Unstage

variable {env : Env} {path : PathBuf}

/-! ## The download -/

/-- An error of the file system, which a panic is not. -/
def Error.IsIo (e : Error) : Prop :=
  ∃ error, e = .io error ∧ error ≠ .panicked

theorem lookup_saveStream {disk disk' : WorkingTree} {chunk : Content}
    (h : saveStream env disk path chunk = (.ok (), disk')) :
    disk'.lookup path = some (.file ((disk.content path).getD [] ++ chunk) env.now) := by
  unfold saveStream at h
  split at h
  · cases h
  next disk₁ hcreate =>
  split at h
  · cases h
  split at h
  · cases h
  next disk₂ hwrite =>
  cases h
  rw [WorkingTree.lookup_writeFile hwrite, WorkingTree.content_createDirAll hcreate]

theorem isIo_saveStream {disk disk' : WorkingTree} {chunk : Content} {e : Error}
    (h : saveStream env disk path chunk = (.error e, disk')) : e.IsIo := by
  unfold saveStream at h
  split at h
  · next hcreate =>
    cases h
    rcases createDirAll_error hcreate with ⟨q, rfl⟩
    exact ⟨_, rfl, OxenError.noConfusion⟩
  split at h
  · cases h
    exact ⟨_, rfl, OxenError.noConfusion⟩
  split at h
  · next hwrite =>
    cases h
    rw [writeFile_error hwrite]
    exact ⟨_, rfl, OxenError.noConfusion⟩
  · cases h

/-- What was read so far is what was appended to the file and what is in the buffer. -/
structure Saved (env : Env) (path : PathBuf) (disk : WorkingTree) (bytes : Content)
    (download : Download) : Prop where
  downloaded : download.bytesDownloaded = bytes.length
  saved : ∃ flushed, bytes = flushed ++ download.buffer ∧
    ((flushed = [] ∧ download.savePath = none ∧ download.disk = disk) ∨
      (flushed ≠ [] ∧ download.savePath = some path ∧
        download.disk.lookup path =
          some (.file ((disk.content path).getD [] ++ flushed) env.now)))

theorem saved_start (disk : WorkingTree) : Saved env path disk [] { disk } :=
  ⟨rfl, [], rfl, .inl ⟨rfl, rfl, rfl⟩⟩

theorem Saved.flush {disk : WorkingTree} {bytes : Content} {download download' : Download}
    (h : Saved env path disk bytes download) (hbuffer : download.buffer ≠ [])
    (hflush : flush env path download = (.ok (), download')) :
    Saved env path disk bytes download' ∧ download'.buffer = [] := by
  unfold ImportFile.flush at hflush
  split at hflush
  · cases hflush
  next disk' hsave =>
  cases hflush
  rcases h.saved with ⟨flushed, hbytes, hcases⟩
  refine ⟨⟨h.downloaded, bytes, (List.append_nil _).symm, .inr ⟨?_, rfl, ?_⟩⟩, rfl⟩
  · rw [hbytes]
    exact List.append_ne_nil_of_right_ne_nil _ hbuffer
  · simp only
    rw [lookup_saveStream hsave]
    rcases hcases with ⟨rfl, -, hdisk⟩ | ⟨-, -, hlookup⟩
    · rw [hdisk, hbytes, List.nil_append]
    · rw [WorkingTree.content_eq hlookup, Option.getD_some, List.append_assoc, ← hbytes]

theorem isIo_flush {download download' : Download} {e : Error}
    (h : flush env path download = (.error e, download')) : e.IsIo := by
  unfold flush at h
  split at h
  · next hsave =>
    cases h
    exact isIo_saveStream hsave
  · cases h

theorem Saved.buffered {disk : WorkingTree} {bytes : Content} {download : Download}
    (h : Saved env path disk bytes download) (chunk : Content) :
    Saved env path disk (bytes ++ chunk)
      { download with
        buffer := download.buffer ++ chunk
        bytesDownloaded := download.bytesDownloaded + chunk.length } := by
  rcases h.saved with ⟨flushed, hbytes, hcases⟩
  refine ⟨?_, flushed, ?_, hcases⟩
  · simp only
    rw [h.downloaded, List.length_append]
  · simp only
    rw [hbytes, List.append_assoc]

/-- One chunk is added, as long as the limit is not passed. -/
theorem Saved.readChunk {disk : WorkingTree} {bytes chunk : Content} {download : Download}
    (h : Saved env path disk bytes download)
    (hlimit : (bytes ++ chunk).length ≤ maxContentLength) :
    (∃ e download', readChunk env path download chunk = (.error e, download') ∧ e.IsIo) ∨
      ∃ download', readChunk env path download chunk = (.ok (), download') ∧
        Saved env path disk (bytes ++ chunk) download' := by
  have hbuffered := h.buffered chunk
  have hcount := hbuffered.downloaded
  unfold ImportFile.readChunk
  simp only at hcount ⊢
  rw [hcount, if_neg (not_lt.mpr hlimit)]
  rw [hcount] at hbuffered
  split
  · next hthreshold =>
    have hne : download.buffer ++ chunk ≠ [] := by
      intro hnil
      rw [hnil] at hthreshold
      simp at hthreshold
    cases hflush : ImportFile.flush env path
        { download with
          buffer := download.buffer ++ chunk
          bytesDownloaded := (bytes ++ chunk).length } with
    | mk result download' =>
        cases result with
        | error e => exact .inl ⟨e, download', rfl, isIo_flush hflush⟩
        | ok u => exact .inr ⟨download', rfl, (hbuffered.flush hne hflush).1⟩
  · exact .inr ⟨_, rfl, hbuffered⟩

theorem Saved.readChunks {disk : WorkingTree} {bytes : Content} {download : Download}
    {chunks : List Content} (h : Saved env path disk bytes download)
    (hlimit : (bytes ++ chunks.flatten).length ≤ maxContentLength) :
    (∃ e download', readChunks env path download chunks = (.error e, download') ∧ e.IsIo) ∨
      ∃ download', readChunks env path download chunks = (.ok (), download') ∧
        Saved env path disk (bytes ++ chunks.flatten) download' := by
  induction chunks generalizing bytes download with
  | nil => exact .inr ⟨download, rfl, by simpa using h⟩
  | cons chunk chunks ih =>
      rw [List.flatten_cons, ← List.append_assoc] at hlimit ⊢
      have hchunk : (bytes ++ chunk).length ≤ maxContentLength := by
        rw [List.length_append] at hlimit
        omega
      rcases h.readChunk hchunk with ⟨e, download', hread, hio⟩ | ⟨download', hread, hsaved⟩
      · exact .inl ⟨e, download', by rw [ImportFile.readChunks, hread], hio⟩
      · rw [ImportFile.readChunks, hread]
        exact ih hsaved hlimit

variable (env path) in
/-- How reading a body ends that is delivered as a whole: nothing is saved of an empty one, and any
other one is behind what the file held before. -/
theorem downloadBody_cases (disk : WorkingTree) {response : Response}
    (hfails : response.fails = false) (hlimit : response.body.length ≤ maxContentLength) :
    (∃ e download, downloadBody env path disk response = (.error e, download) ∧ e.IsIo) ∨
      ∃ download, downloadBody env path disk response = (.ok (), download) ∧
        ((response.body = [] ∧ download.savePath = none ∧ download.disk = disk) ∨
          (response.body ≠ [] ∧ download.savePath = some path ∧
            download.disk.lookup path =
              some (.file ((disk.content path).getD [] ++ response.body) env.now))) := by
  have hstart : Saved env path disk [] { disk } := saved_start disk
  unfold downloadBody
  rcases hstart.readChunks (show ([] ++ response.chunks.flatten).length ≤ _ from hlimit) with
    ⟨e, download, hread, hio⟩ | ⟨download, hread, hsaved⟩
  · rw [hread]
    exact .inl ⟨e, download, rfl, hio⟩
  rw [hread]
  simp only [hfails, Bool.false_eq_true, if_false]
  have hbody : Saved env path disk response.body download := hsaved
  split
  · next hbuffer =>
    cases hflush : flush env path download with
    | mk result download' =>
        cases result with
        | error e => exact .inl ⟨e, download', rfl, isIo_flush hflush⟩
        | ok u =>
            rcases hbody.flush hbuffer hflush with ⟨hflushed, hempty⟩
            refine .inr ⟨download', rfl, .inr ?_⟩
            rcases hflushed.saved with ⟨flushed, hbytes, ⟨rfl, -, -⟩ | hrest⟩
            · rcases hbody.saved with ⟨flushed, hbytes', -⟩
              rw [hbytes, hempty] at hbytes'
              exact absurd (List.append_eq_nil_iff.mp hbytes'.symm).2 hbuffer
            · rw [hempty, List.append_nil] at hbytes
              rw [hbytes]
              exact hrest
  · next hbuffer =>
    have hempty : download.buffer = [] := not_not.mp hbuffer
    refine .inr ⟨download, rfl, ?_⟩
    rcases hbody.saved with ⟨flushed, hbytes, hcases⟩
    rw [hempty, List.append_nil] at hbytes
    rw [hbytes]
    exact hcases

/-! ## Staging -/

/-- The times of a file written now and of the commit's file can be compared. -/
def ComparesTimes (env : Env) (node : FileNode) : Prop :=
  node.hasTime = true ∧ (env.mtimeTolerance = 0 ∨ 0 ≤ env.now)

/-- The commit's file counts as a different one. -/
def Differs (env : Env) (path : PathBuf) (content : Content) (node : FileNode) : Bool :=
  content.length ≠ node.numBytes ||
    (!env.withinTolerance env.now node.lastModified &&
      ((match node.metadataHash, env.fileMetadataHash path (.file content env.now) with
        | some nodeHash, some fileHash => nodeHash ≠ fileHash
        | _, _ => false) || node.hash ≠ env.xxh3 content))

theorem isModifiedFromNode_eq {disk : WorkingTree} {content : Content}
    (h : disk.lookup path = some (.file content env.now)) {node : FileNode}
    (htimes : ComparesTimes env node) :
    env.isModifiedFromNode disk path node = .ok (Differs env path content node) := by
  have hcontent := WorkingTree.content_eq h
  have hmetadata : env.metadata disk path = some { len := content.length, mtime := env.now } := by
    rw [LocalRepository.metadata, h]
  simp only [LocalRepository.isModifiedFromNode, h, hmetadata, FileNode.computeTime_eq, htimes.1,
    if_true, mtimeMatches_eq htimes.2, LocalRepository.classifyModifiedFromNode,
    LocalRepository.getHashGivenMetadata, hcontent, Differs, bind, Except.bind]
  by_cases hlength : content.length = node.numBytes
  · cases hmtime : env.withinTolerance env.now node.lastModified with
    | true => simp [hlength]
    | false =>
        simp only [hlength, ne_eq, not_true_eq_false, if_false, decide_false, Bool.false_or,
          Bool.not_false, Bool.true_and, Bool.false_eq_true]
        cases node.metadataHash with
        | none => rfl
        | some nodeHash =>
            cases env.fileMetadataHash path (.file content env.now) with
            | none => rfl
            | some fileHash =>
                by_cases hhash : nodeHash = fileHash
                · simp [hhash, Except.map]
                · simp [hhash]
  · simp [hlength]

theorem isModifiedFromNode_panics {disk : WorkingTree} {content : Content}
    (h : disk.lookup path = some (.file content env.now)) {node : FileNode}
    (htimes : ¬ ComparesTimes env node) :
    env.isModifiedFromNode disk path node = .error .panicked := by
  have hmetadata : env.metadata disk path = some { len := content.length, mtime := env.now } := by
    rw [LocalRepository.metadata, h]
  simp only [LocalRepository.isModifiedFromNode, h, hmetadata, FileNode.computeTime_eq, bind,
    Except.bind]
  cases htime : node.hasTime with
  | false => simp
  | true =>
      rw [ComparesTimes, htime, not_and, not_or, Int.not_le] at htimes
      rcases htimes rfl with ⟨htolerance, hnow⟩
      have hne : env.now ≠ node.lastModified := fun heq =>
        absurd (FileNode.lastModified_nonneg htime) (Int.not_le.mpr (heq ▸ hnow))
      simp [LocalRepository.mtimeMatches, hne, htolerance, hnow]

/-- The status of what was downloaded. -/
def fileStatusOf (env : Env) (path : PathBuf) (content : Content) : FileStatus :=
  let changed (status : StagedEntryStatus) : FileStatus :=
    { status, hash := env.xxh3 content, numBytes := content.length, mtime := env.now }
  match env.headFile path with
  | none => changed .added
  | some node =>
      if Differs env path content node then changed .modified
      else { status := .unmodified, hash := node.hash, numBytes := node.numBytes, mtime := env.now }

theorem determineFileStatus_eq {disk : WorkingTree} {content : Content}
    (h : disk.lookup path = some (.file content env.now))
    (htimes : ∀ node, env.headFile path = some node → ComparesTimes env node) :
    determineFileStatus env disk path content env.now = .ok (fileStatusOf env path content) := by
  unfold determineFileStatus fileStatusOf
  cases hnode : env.headFile path with
  | none => rfl
  | some node =>
      simp only [isModifiedFromNode_eq h (htimes node hnode), Except.map]

theorem determineFileStatus_panics {disk : WorkingTree} {content : Content}
    (h : disk.lookup path = some (.file content env.now))
    (htimes : ¬ ∀ node, env.headFile path = some node → ComparesTimes env node) :
    determineFileStatus env disk path content env.now = .error .panicked := by
  unfold determineFileStatus
  cases hnode : env.headFile path with
  | none => exact absurd (fun node hsome => (by cases hnode.symm.trans hsome)) htimes
  | some node =>
      have hnot : ¬ ComparesTimes env node := fun hcompares =>
        htimes fun node' hsome => Option.some.inj (hnode.symm.trans hsome) ▸ hcompares
      simp only [isModifiedFromNode_panics h hnot, Except.map]

variable (env path) in
theorem effectiveStatus_hash (updateTimestamp : Bool) (fileStatus : FileStatus) :
    (effectiveStatus env path updateTimestamp fileStatus).hash = fileStatus.hash := by
  unfold effectiveStatus
  simp only
  split
  · split <;> rfl
  · split <;> rfl

variable (env path) in
theorem effectiveStatus_ne_removed (updateTimestamp : Bool) (content : Content) :
    (effectiveStatus env path updateTimestamp (fileStatusOf env path content)).status ≠
      .removed := by
  have hstatus : (fileStatusOf env path content).status ≠ .removed := by
    unfold fileStatusOf
    simp only
    split
    · exact StagedEntryStatus.noConfusion
    · split <;> exact StagedEntryStatus.noConfusion
  unfold effectiveStatus
  simp only
  split
  · exact StagedEntryStatus.noConfusion
  · split
    · exact StagedEntryStatus.noConfusion
    · exact hstatus

/-- A file with this content is staged at the path. -/
def Holds (s : State) (path : PathBuf) (content : Content) : Prop :=
  ∃ entry node, s.staged.lookup path = some entry ∧ entry.status ≠ .removed ∧
    entry.node = .file node ∧ s.versions.lookup node.hash = some content

/-- Staging a file with the content leaves the body staged: the file is new or different from the
commit's and its version is the body, or what was staged before holds the body. -/
def StagesBody (env : Env) (s : State) (path : PathBuf) (updateTimestamp : Bool)
    (content body : Content) : Prop :=
  let fileStatus := effectiveStatus env path updateTimestamp (fileStatusOf env path content)
  let s := { s with versions := KeyedMap.insertNew s.versions fileStatus.hash content }
  if fileStatus.status = .unmodified then Holds s path body
  else s.versions.lookup fileStatus.hash = some body

theorem lookup_addFiles (db : StagedDb) (status : StagedEntryStatus) (node : FileNode) :
    (addFiles db [{ path, status, node }]).lookup path = some { status, node := .file node } := by
  rw [addFiles, List.foldl_cons, List.foldl_nil, pAddFileNodeToStagedDb, (lookup_addParents _ _).1,
    if_neg (by simp), AList.lookup_insert]

theorem pAddFile_eq {s : State} {content : Content}
    (h : s.disk.lookup path = some (.file content env.now))
    (htimes : ∀ node, env.headFile path = some node → ComparesTimes env node)
    (updateTimestamp : Bool) :
    ∃ s', pAddFile env s path updateTimestamp = (.ok (), s') ∧
      ∀ body, Holds s' path body ↔ StagesBody env s path updateTimestamp content body := by
  unfold pAddFile
  simp only [h, determineFileStatus_eq h htimes]
  have hhash := effectiveStatus_hash env path updateTimestamp (fileStatusOf env path content)
  have hremoved := effectiveStatus_ne_removed env path updateTimestamp content
  split
  · next hstatus =>
    refine ⟨_, rfl, fun body => ?_⟩
    unfold StagesBody
    simp only [hstatus, if_true, hhash]
  · next hstatus =>
    refine ⟨_, rfl, fun body => ?_⟩
    unfold StagesBody Holds
    simp only [hstatus, if_false, hhash]
    rw [lookup_addFiles]
    constructor
    · rintro ⟨entry, node, hentry, -, hnode, hversion⟩
      cases hentry
      cases hnode
      exact hversion
    · intro hversion
      exact ⟨_, _, rfl, hremoved, rfl, hversion⟩

/-! ## Imports -/

/-- The file system failed. -/
def IoFailed (outcome : Except Error Unit × State) : Prop :=
  ∃ e, outcome.1 = .error e ∧ e.IsIo

/-- An import that succeeds has staged the body, and one that gets the whole body succeeds unless
the file system fails. -/
structure ImportsExactly (path : PathBuf) (response : Response)
    (outcome : Except Error Unit × State) : Prop where
  staged : outcome.1 = .ok () → Holds outcome.2 path response.body
  succeeds : response.fails = false → ¬ IoFailed outcome → outcome.1 = .ok ()

/-- When an import of a body that is delivered works: there is a name for it, an empty body is
staged already, and any other one is not appended to what was there and its time can be compared
with that of the commit's file. -/
structure Importable (env : Env) (s : State) (directory : PathBuf) (name : String)
    (response : Response) (updateTimestamp : Bool) : Prop where
  name_ne : name ≠ ""
  empty : response.body = [] → Holds s (directory ++ [name]) []
  length : response.body ≠ [] → response.contentLength ≠ none →
    (s.disk.content (directory ++ [name])).getD [] = []
  times : response.body ≠ [] →
    ∀ node, env.headFile (directory ++ [name]) = some node → ComparesTimes env node
  stages : response.body ≠ [] →
    StagesBody env s (directory ++ [name]) updateTimestamp
      ((s.disk.content (directory ++ [name])).getD [] ++ response.body) response.body

section FetchFile

variable {s : State} {directory : PathBuf} {names : Filenames} {response : Response}
  {updateTimestamp : Bool}

theorem fetchFile_of_fails (hfails : response.fails = true) :
    (fetchFile env s directory names response updateTimestamp).1 ≠ .ok () := by
  intro hok
  unfold fetchFile at hok
  split at hok
  · cases hok
  split at hok
  · cases hok
  simp only at hok
  split at hok
  · cases hok
  next download hdownload =>
  unfold downloadBody at hdownload
  split at hdownload
  · cases hdownload
  rw [if_pos hfails] at hdownload
  cases hdownload

theorem not_large (hlimit : response.body.length ≤ maxContentLength)
    (hlength : ∀ n, response.contentLength = some n → n = response.body.length) :
    ¬ response.contentLength.any (· > maxContentLength) = true := by
  cases hcontent : response.contentLength with
  | none => simp
  | some n =>
      have hn := hlength n hcontent
      simp only [Option.any_some, gt_iff_lt, decide_eq_true_eq, not_lt]
      omega

theorem fetchFile_of_name_eq (hname : sanitizeFilename env names.raw = "")
    (hlimit : response.body.length ≤ maxContentLength)
    (hlength : ∀ n, response.contentLength = some n → n = response.body.length) :
    (fetchFile env s directory names response updateTimestamp).1 = .error .noFilename := by
  rw [fetchFile, if_neg (not_large hlimit hlength), if_pos hname]

variable (env s directory names response updateTimestamp) in
/-- What becomes of a body that is delivered, with a name and a length that is its own. -/
theorem fetchFile_cases (hname : sanitizeFilename env names.raw ≠ "")
    (hfails : response.fails = false) (hlimit : response.body.length ≤ maxContentLength)
    (hlength : ∀ n, response.contentLength = some n → n = response.body.length) :
    let path := directory ++ [sanitizeFilename env names.raw]
    let old := (s.disk.content path).getD []
    (∃ e s', fetchFile env s directory names response updateTimestamp = (.error e, s') ∧ e.IsIo) ∨
      (response.body = [] ∧
        fetchFile env s directory names response updateTimestamp = (.ok (), s)) ∨
      (response.body ≠ [] ∧ response.contentLength ≠ none ∧ old ≠ [] ∧
        ∃ s', fetchFile env s directory names response updateTimestamp =
          (.error .incomplete, s')) ∨
      (response.body ≠ [] ∧
        (¬ ∀ node, env.headFile path = some node → ComparesTimes env node) ∧
        ∃ s', fetchFile env s directory names response updateTimestamp =
          (.error (.io .panicked), s')) ∨
      (response.body ≠ [] ∧ (response.contentLength ≠ none → old = []) ∧
        (∀ node, env.headFile path = some node → ComparesTimes env node) ∧
        ∃ s', fetchFile env s directory names response updateTimestamp = (.ok (), s') ∧
          (Holds s' path response.body ↔
            StagesBody env s path updateTimestamp (old ++ response.body) response.body)) := by
  intro path old
  unfold fetchFile
  rw [if_neg (not_large hlimit hlength), if_neg hname]
  simp only
  rcases downloadBody_cases env path s.disk hfails hlimit with
    ⟨e, download, hdownload, hio⟩ |
      ⟨download, hdownload, ⟨hbody, hsave, hdisk⟩ | ⟨hbody, hsave, hlookup⟩⟩
  · rw [hdownload]
    exact .inl ⟨e, _, rfl, hio⟩
  · rw [hdownload]
    refine .inr (.inl ⟨hbody, ?_⟩)
    have hwritten : ¬ response.contentLength.any (· ≠ bytesWritten download) = true := by
      cases hcontent : response.contentLength with
      | none => simp
      | some n =>
          have hn := hlength n hcontent
          rw [hbody] at hn
          simp [bytesWritten, hsave, hn]
    simp only [if_neg hwritten, hsave, hdisk, Option.getD_none]
    unfold pAddFile
    rw [WorkingTree.lookup_nil]
  · rw [hdownload]
    have hcontent := WorkingTree.content_eq hlookup
    have hbytes : bytesWritten download = old.length + response.body.length := by
      simp only [bytesWritten, hsave, hcontent, Option.getD_some, List.length_append, old]
    simp only [hbytes, hsave, Option.getD_some]
    by_cases hold : response.contentLength ≠ none ∧ old ≠ []
    · refine .inr (.inr (.inl ⟨hbody, hold.1, hold.2, ?_⟩))
      have hany : response.contentLength.any (· ≠ old.length + response.body.length) = true := by
        cases hcase : response.contentLength with
        | none => exact absurd hcase hold.1
        | some n =>
            have hn := hlength n hcase
            have hpos := List.length_pos_iff.mpr hold.2
            simp only [Option.any_some, decide_eq_true_eq]
            omega
      rw [if_pos hany]
      exact ⟨_, rfl⟩
    · have hempty : response.contentLength ≠ none → old = [] := fun hne => by
        by_contra hne'
        exact hold ⟨hne, hne'⟩
      have hany : ¬ response.contentLength.any (· ≠ old.length + response.body.length) = true := by
        cases hcase : response.contentLength with
        | none => simp
        | some n =>
            have hn := hlength n hcase
            have hnil := hempty (by rw [hcase]; exact Option.some_ne_none n)
            simp [hnil, hn]
      rw [if_neg hany]
      have hstate : ({ s with disk := download.disk } : State).disk.lookup path =
          some (.file (old ++ response.body) env.now) := hlookup
      by_cases htimes : ∀ node, env.headFile path = some node → ComparesTimes env node
      · rcases pAddFile_eq hstate htimes updateTimestamp with ⟨s', hadd, hholds⟩
        exact .inr (.inr (.inr (.inr ⟨hbody, hempty, htimes, s', hadd, hholds response.body⟩)))
      · refine .inr (.inr (.inr (.inl ⟨hbody, htimes, { s with disk := download.disk }, ?_⟩)))
        rw [pAddFile, hlookup]
        simp only [determineFileStatus_panics hlookup htimes]

end FetchFile

/-- Short of a failure of the file system an import of a body up to the limit is exact if and only
if the download fails or it is importable. -/
theorem importsExactly_iff (env : Env) (s : State) (directory : PathBuf) (names : Filenames)
    (response : Response) (updateTimestamp : Bool)
    (hlimit : response.body.length ≤ maxContentLength)
    (hlength : response.fails = false →
      ∀ n, response.contentLength = some n → n = response.body.length) :
    let name := sanitizeFilename env names.raw
    let outcome := fetchFile env s directory names response updateTimestamp
    ImportsExactly (directory ++ [name]) response outcome ↔
      IoFailed outcome ∨ response.fails = true ∨
        Importable env s directory name response updateTimestamp := by
  intro name outcome
  cases hfails : response.fails with
  | true =>
      have hnot : outcome.1 ≠ .ok () := fetchFile_of_fails hfails
      exact iff_of_true ⟨fun hok => absurd hok hnot, fun h => (by cases hfails.symm.trans h)⟩
        (.inr (.inl rfl))
  | false =>
      simp only [Bool.false_eq_true, false_or]
      by_cases hname : name = ""
      · have herror : outcome.1 = .error .noFilename := fetchFile_of_name_eq hname hlimit
          (hlength hfails)
        have hio : ¬ IoFailed outcome := by
          rintro ⟨e, he, error, rfl, -⟩
          rw [herror] at he
          cases he
        refine iff_of_false (fun hexact => ?_) ?_
        · have hok := hexact.succeeds hfails hio
          rw [herror] at hok
          cases hok
        · rintro (h | h)
          · exact hio h
          · exact h.name_ne hname
      · have hnotIo {s' : State} (h : outcome = (.ok (), s')) : ¬ IoFailed outcome := by
          rintro ⟨e, he, -⟩
          rw [h] at he
          cases he
        rcases fetchFile_cases env s directory names response updateTimestamp hname hfails hlimit
            (hlength hfails) with
          ⟨e, s', heq, hio⟩ | ⟨hbody, heq⟩ | ⟨hbody, hknown, hold, s', heq⟩ |
            ⟨hbody, htimes, s', heq⟩ | ⟨hbody, hold, htimes, s', heq, hholds⟩
        · have hfailed : IoFailed outcome := ⟨e, congrArg Prod.fst heq, hio⟩
          refine iff_of_true ⟨fun hok => ?_, fun _ hnot => absurd hfailed hnot⟩ (.inl hfailed)
          rw [congrArg Prod.fst heq] at hok
          cases hok
        · constructor
          · intro hexact
            have hholds := hexact.staged (congrArg Prod.fst heq)
            rw [congrArg Prod.snd heq, hbody] at hholds
            exact .inr ⟨hname, fun _ => hholds, fun h => absurd hbody h, fun h => absurd hbody h,
              fun h => absurd hbody h⟩
          · rintro (hfailed | himportable)
            · exact absurd hfailed (hnotIo heq)
            · refine ⟨fun _ => ?_, fun _ _ => congrArg Prod.fst heq⟩
              rw [congrArg Prod.snd heq, hbody]
              exact himportable.empty hbody
        · have hio : ¬ IoFailed outcome := by
            rintro ⟨e, he, error, rfl, -⟩
            rw [congrArg Prod.fst heq] at he
            cases he
          refine iff_of_false (fun hexact => ?_) ?_
          · have hok := hexact.succeeds hfails hio
            rw [congrArg Prod.fst heq] at hok
            cases hok
          · rintro (hfailed | himportable)
            · exact hio hfailed
            · exact hold (himportable.length hbody hknown)
        · have hio : ¬ IoFailed outcome := by
            rintro ⟨e, he, error, rfl, herror⟩
            rw [congrArg Prod.fst heq] at he
            cases he
            exact herror rfl
          refine iff_of_false (fun hexact => ?_) ?_
          · have hok := hexact.succeeds hfails hio
            rw [congrArg Prod.fst heq] at hok
            cases hok
          · rintro (hfailed | himportable)
            · exact hio hfailed
            · exact htimes (himportable.times hbody)
        · constructor
          · intro hexact
            have hstaged := hexact.staged (congrArg Prod.fst heq)
            rw [congrArg Prod.snd heq] at hstaged
            exact .inr ⟨hname, fun h => absurd h hbody, fun _ => hold, fun _ => htimes,
              fun _ => hholds.mp hstaged⟩
          · rintro (hfailed | himportable)
            · exact absurd hfailed (hnotIo heq)
            · refine ⟨fun _ => ?_, fun _ _ => congrArg Prod.fst heq⟩
              rw [congrArg Prod.snd heq]
              exact hholds.mpr (himportable.stages hbody)

/-! Pictures that are imported into an empty workspace, whose commit has one already. -/

private def nodeContent (versions : KeyedMap.Map MerkleHash Content) :
    EMerkleTreeNode → Option Content
  | .file node => versions.lookup node.hash
  | _ => none

/-- The content of what is staged at a path. -/
private def stagedContent (s : State) (path : PathBuf) : Option Content :=
  (s.staged.lookup path).bind fun entry => nodeContent s.versions entry.node

private theorem stagedContent_of_holds {s : State} {path : PathBuf} {content : Content}
    (h : Holds s path content) : stagedContent s path = some content := by
  rcases h with ⟨entry, node, hentry, -, hnode, hversion⟩
  rw [stagedContent, hentry, Option.bind_some, hnode]
  exact hversion

private def hashOf (content : Content) : MerkleHash :=
  BitVec.ofNat 128 (content.foldl (fun n b => 256 * n + b.toNat + 1) 0)

private def zoo : Env where
  xxh3 := hashOf
  dirMetadata _ := { len := 0, mtime := 0 }
  fileMetadataHash _ _ := none
  headFile path :=
    if path = ["pets", "dog.png"] then
      some { name := ["dog.png"], hash := hashOf [3], numBytes := 1, lastModifiedSeconds := 1 }
    else none
  combinedHash := (· ^^^ ·)
  dataType _ _ := .image
  isAlphanumeric := Char.isAlphanum
  now := 7 * 10 ^ 9

private def fresh : State where
  disk := { entries := ∅, parent_isDir := fun _ _ h => absurd h (AList.notMem_empty _) }
  staged := ∅
  versions := ∅

private def cat : Filenames := { caller := some "cat.png", uuid := "u" }

private def dog : Filenames := { caller := some "dog.png", uuid := "u" }

private def whole (body : Content) : Response where
  contentLength := some body.length
  chunks := [body]

private def chunked (body : Content) : Response where
  contentLength := none
  chunks := [body]

/-- The workspace after a first import. -/
private def imported : State := (fetchFile zoo fresh ["pets"] cat (whole [1]) false).2

theorem cat_importsExactly :
    ImportsExactly ["pets", "cat.png"] (whole [1])
      (fetchFile zoo fresh ["pets"] cat (whole [1]) false) := by
  apply (importsExactly_iff zoo fresh ["pets"] cat (whole [1]) false (by decide)
    (fun _ n h => (Option.some.inj h).symm)).mpr
  refine .inr (.inr ⟨(by decide), fun h => (by cases h), fun _ _ => (by decide),
    fun _ node hnode => (by cases hnode), fun _ => ?_⟩)
  have hstatus : (effectiveStatus zoo ["pets", "cat.png"] false
      (fileStatusOf zoo ["pets", "cat.png"] [1])).status ≠ .unmodified := by decide
  show StagesBody zoo fresh ["pets", "cat.png"] false [1] [1]
  unfold StagesBody
  rw [if_neg hstatus]
  decide

/-- The second import of a name, with and without a length, an empty body, and a body that the
commit has already. -/
theorem not_importsExactly :
    ¬ ImportsExactly ["pets", "cat.png"] (whole [2])
        (fetchFile zoo imported ["pets"] cat (whole [2]) false) ∧
      ¬ ImportsExactly ["pets", "cat.png"] (chunked [2])
        (fetchFile zoo imported ["pets"] cat (chunked [2]) false) ∧
      ¬ ImportsExactly ["pets", "cat.png"] (whole [])
        (fetchFile zoo fresh ["pets"] cat (whole []) false) ∧
      ¬ ImportsExactly ["pets", "dog.png"] (whole [3])
        (fetchFile zoo fresh ["pets"] dog (whole [3]) false) := by
  refine ⟨fun hexact => ?_, fun hexact => ?_, fun hexact => ?_, fun hexact => ?_⟩
  · have herror : (fetchFile zoo imported ["pets"] cat (whole [2]) false).1 =
        .error .incomplete := by decide
    have hok := hexact.succeeds rfl (by
      rintro ⟨e, he, error, rfl, -⟩
      rw [herror] at he
      cases he)
    rw [herror] at hok
    cases hok
  · have hholds := stagedContent_of_holds (hexact.staged (by decide))
    exact absurd hholds (by decide)
  · have hholds := stagedContent_of_holds (hexact.staged (by decide))
    exact absurd hholds (by decide)
  · have hholds := stagedContent_of_holds (hexact.staged (by decide))
    exact absurd hholds (by decide)

end ImportFile

end Oxen
