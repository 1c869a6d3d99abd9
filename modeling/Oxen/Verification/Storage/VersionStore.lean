import Oxen.Model.VersionStore

/-! Sequences of calls on a version store: when a version that exists has the whole data
that it was stored with. -/

namespace Oxen

open LocalVersionStore

variable {s s' : LocalVersionStore} {hash h : MerkleHash} {data : Content} {file : Option Content}
  {fault : Option StoreFault} {content : MerkleHash → Content}

/-! ## Single calls -/

/-- The version of one hash is replaced, and all others stay. -/
structure Writes (s s' : LocalVersionStore) (hash : MerkleHash) (file : Option Content) : Prop where
  same : s'.getVersion hash = file
  other : ∀ h, h ≠ hash → s'.getVersion h = s.getVersion h

theorem Writes.refl (s : LocalVersionStore) (hash : MerkleHash) :
    Writes s s hash (s.getVersion hash) :=
  ⟨rfl, fun _ _ => rfl⟩

theorem writes_putDir (s : LocalVersionStore) (hash : MerkleHash) (dir : VersionDir) :
    Writes s (s.putDir hash dir) hash dir.data where
  same := by simp [getVersion, versionDir, putDir]
  other h hne := by simp [getVersion, versionDir, putDir, hne]

/-- The fault is one in the middle of a write. -/
def StoreFault.isWrite : Option StoreFault → Bool
  | some (.write _) => true
  | _ => false

/-- A file that is written in place, unless a fault comes before. -/
def writeOutcome (file : Option Content) (data : Content) :
    Option StoreFault → Except StoreError Unit × Option Content
  | some (.createDir made) => (.error (.io (.createDir made)), file)
  | fault => writeNew file data fault

theorem storeVersion_spec (s : LocalVersionStore) (hash : MerkleHash) (data : Content)
    (fault : Option StoreFault) :
    (s.storeVersion hash data fault).1 = (writeOutcome (s.getVersion hash) data fault).1 ∧
      Writes s (s.storeVersion hash data fault).2 hash
        (writeOutcome (s.getVersion hash) data fault).2 := by
  rw [storeVersion.eq_def]
  split
  · refine ⟨rfl, ?_⟩
    split
    · exact .refl s hash
    · exact writes_putDir s hash (s.versionDir hash)
  · next hnot =>
    have hwrite : writeOutcome (s.getVersion hash) data fault =
        writeNew (s.getVersion hash) data fault := by
      rw [writeOutcome.eq_def]
      split
      · next made => exact absurd rfl (hnot made)
      · rfl
    rw [hwrite]
    exact ⟨rfl, writes_putDir s hash _⟩

/-- Storing a chunk does not touch the version. -/
theorem writes_storeVersionChunk (s : LocalVersionStore) (hash : MerkleHash) (offset : ℕ)
    (data : Content) (fault : Option StoreFault) :
    Writes s (s.storeVersionChunk hash offset data fault).2 hash (s.getVersion hash) := by
  rw [storeVersionChunk.eq_def]
  split
  · dsimp only
    split
    · exact .refl s hash
    · split
      · exact writes_putDir s hash (s.versionDir hash)
      · exact writes_putDir s hash { s.versionDir hash with chunks := _ }
  · exact writes_putDir s hash { s.versionDir hash with chunks := _ }

theorem combineVersionChunks_spec (s : LocalVersionStore) (hash : MerkleHash)
    (fault : Option StoreFault) :
    (s hash = none ∧ s.combineVersionChunks hash fault = (.error .notFound, s)) ∨
      ∃ dir, s hash = some dir ∧
        (s.combineVersionChunks hash fault).1 = (combine dir fault).1 ∧
        Writes s (s.combineVersionChunks hash fault).2 hash (combine dir fault).2.data := by
  cases hdir : s hash with
  | none => exact .inl ⟨rfl, by simp [combineVersionChunks, hdir]⟩
  | some dir =>
      refine .inr ⟨dir, rfl, ?_⟩
      simp only [combineVersionChunks, hdir]
      exact ⟨trivial, writes_putDir s hash _⟩

/-! ## Combining chunks -/

/-- The bytes of the chunks up to a missing one, and whether none is missing. -/
def chunkBytes (dir : VersionDir) : Content × Bool :=
  match dir.chunks with
  | none => ([], false)
  | some chunks => copyChunks (listVersionChunks chunks)

/-- The bytes that are copied before the call stops. -/
def bytesCopied (dir : VersionDir) : Option StoreFault → Content
  | some .listChunks => []
  | some (.write written) => (chunkBytes dir).1.take written
  | _ => (chunkBytes dir).1

/-- The fault is none that a combine can run into. -/
def StoreFault.sparesCombine : Option StoreFault → Bool
  | none => true
  | some (.createDir _) => true
  | _ => false

theorem combine_data {dir : VersionDir} (hcreate : fault ≠ some .createFile) :
    (combine dir fault).2.data = some (bytesCopied dir fault) := by
  rw [combine, if_neg hcreate]
  by_cases hlist : fault = some .listChunks
  · rw [if_pos hlist, hlist]
    rfl
  · rw [if_neg hlist]
    cases hchunks : dir.chunks with
    | none =>
        have hbytes : chunkBytes dir = ([], false) := by rw [chunkBytes, hchunks]
        have hcopied : bytesCopied dir fault = [] := by
          rw [bytesCopied.eq_def]
          split <;> simp [hbytes]
        rw [hcopied]
    | some chunks =>
        have hbytes : chunkBytes dir = copyChunks (listVersionChunks chunks) := by
          rw [chunkBytes, hchunks]
        rw [bytesCopied.eq_def, hbytes]
        dsimp only
        rw [copyAll.eq_def]
        rcases fault with _ | fault
        · dsimp only
          split <;> rfl
        · cases fault with
          | createDir made =>
              dsimp only
              split <;> rfl
          | createFile => exact absurd rfl hcreate
          | listChunks => exact absurd rfl hlist
          | write written => rfl
          | removeChunks left =>
              dsimp only
              split <;> rfl

theorem combine_ok_iff {dir : VersionDir} :
    (combine dir fault).1 = .ok () ↔
      (chunkBytes dir).2 = true ∧ StoreFault.sparesCombine fault = true := by
  rw [combine]
  split
  · next h => simp [h, StoreFault.sparesCombine]
  split
  · next h => simp [h, StoreFault.sparesCombine]
  next hcreate hlist =>
  cases hchunks : dir.chunks with
  | none => simp [chunkBytes, hchunks]
  | some chunks =>
      have hbytes : chunkBytes dir = copyChunks (listVersionChunks chunks) := by
        rw [chunkBytes, hchunks]
      rw [hbytes]
      dsimp only
      rw [copyAll.eq_def]
      rcases fault with _ | fault
      · dsimp only
        split
        · next h => simp [h, StoreFault.sparesCombine]
        · next h => simp [h]
      · cases fault with
        | createDir made =>
            dsimp only
            split
            · next h => simp [h, StoreFault.sparesCombine]
            · next h => simp [h]
        | createFile => exact absurd rfl hcreate
        | listChunks => exact absurd rfl hlist
        | write written => simp [StoreFault.sparesCombine]
        | removeChunks left =>
            dsimp only
            split <;> simp [StoreFault.sparesCombine]

/-! ## Sequences of calls -/

/-- A store, and the versions that a call returned for. -/
structure StoreRun where
  store : LocalVersionStore := fun _ => none
  stored : List MerkleHash := []

def StoreRun.step (s : StoreRun) (call : StoreCall) (fault : Option StoreFault) : StoreRun where
  store := (call.run s.store fault).2
  stored :=
    match (call.run s.store fault).1, call.stores with
    | .ok _, some hash => hash :: s.stored
    | _, _ => s.stored

def StoreRun.steps (s : StoreRun) (calls : List (StoreCall × Option StoreFault)) : StoreRun :=
  calls.foldl (fun s (call, fault) => s.step call fault) s

/-- A version for which a call returned has its data, and no other version exists. -/
structure StoreRun.Sound (content : MerkleHash → Content) (s : StoreRun) : Prop where
  data : ∀ h ∈ s.stored, s.store.getVersion h = some (content h)
  stored : ∀ h, s.store.versionExists h → h ∈ s.stored

theorem StoreRun.Sound.mem_stored_iff {s : StoreRun} (h : s.Sound content) (hash : MerkleHash) :
    hash ∈ s.stored ↔ s.store.versionExists hash := by
  refine ⟨fun hmem => ?_, h.stored hash⟩
  rw [versionExists, h.data hash hmem]
  rfl

/-- The data that a call gives for a version are the version's data. -/
def StoreCall.Gives (content : MerkleHash → Content) : StoreCall → Prop
  | .storeVersion hash data => data = content hash
  | .storeVersionFromReader hash data => data = content hash
  | _ => True

/-- A store call does not fail in the middle of writing a new file. A combine that creates
the file anew copies the whole version, and fails only if the version existed. -/
def StoreCall.KeepsWhole (content : MerkleHash → Content) (s : LocalVersionStore)
    (fault : Option StoreFault) : StoreCall → Prop
  | .storeVersion hash _ => s.versionExists hash ∨ StoreFault.isWrite fault = false
  | .storeVersionFromReader hash _ => s.versionExists hash ∨ StoreFault.isWrite fault = false
  | .storeVersionChunk _ _ _ => True
  | .combineVersionChunks hash => ∀ dir, s hash = some dir → fault ≠ some .createFile →
      bytesCopied dir fault = content hash ∧
        (s.versionExists hash ∨
          (chunkBytes dir).2 = true ∧ StoreFault.sparesCombine fault = true)

/-- A call that returned. -/
theorem sound_stored_iff {s s' : StoreRun} (hs : s.Sound content)
    (hw : Writes s.store s'.store hash file) (hstored : s'.stored = hash :: s.stored) :
    s'.Sound content ↔ file = some (content hash) := by
  constructor
  · intro h
    rw [← hw.same]
    exact h.data hash (by simp [hstored])
  · intro hfile
    constructor
    · intro h hmem
      by_cases hh : h = hash
      · rw [hh, hw.same, hfile]
      · rw [hw.other h hh]
        apply hs.data
        simpa [hstored, hh] using hmem
    · intro h hexists
      rw [hstored, List.mem_cons]
      by_cases hh : h = hash
      · exact .inl hh
      · rw [versionExists, hw.other h hh] at hexists
        exact .inr (hs.stored h hexists)

/-- A call that failed. -/
theorem sound_failed_iff {s s' : StoreRun} (hs : s.Sound content)
    (hw : Writes s.store s'.store hash file) (hstored : s'.stored = s.stored) :
    s'.Sound content ↔
      (s.store.versionExists hash → file = some (content hash)) ∧
        (file.isSome → s.store.versionExists hash) := by
  constructor
  · intro h
    refine ⟨fun hexists => ?_, fun hsome => ?_⟩
    · rw [← hw.same]
      exact h.data hash (hstored ▸ hs.stored hash hexists)
    · rw [← hs.mem_stored_iff, ← hstored]
      apply h.stored
      rwa [versionExists, hw.same]
  · rintro ⟨hdata, hexists⟩
    constructor
    · intro h hmem
      rw [hstored] at hmem
      by_cases hh : h = hash
      · subst hh
        rw [hw.same, hdata ((hs.mem_stored_iff h).mp hmem)]
      · rw [hw.other h hh, hs.data h hmem]
    · intro h hsome
      rw [hstored]
      by_cases hh : h = hash
      · subst hh
        rw [versionExists, hw.same] at hsome
        exact (hs.mem_stored_iff h).mpr (hexists hsome)
      · rw [versionExists, hw.other h hh] at hsome
        exact hs.stored h hsome

/-- Writing a version in place keeps a sound store sound, unless it stops in the middle. -/
theorem sound_storeVersion_iff {s s' : StoreRun} (hs : s.Sound content)
    {result : Except StoreError Unit}
    (hresult : result = (writeOutcome (s.store.getVersion hash) (content hash) fault).1)
    (hw : Writes s.store s'.store hash
      (writeOutcome (s.store.getVersion hash) (content hash) fault).2)
    (hok : result = .ok () → s'.stored = hash :: s.stored)
    (herror : result ≠ .ok () → s'.stored = s.stored) :
    s'.Sound content ↔ s.store.versionExists hash ∨ StoreFault.isWrite fault = false := by
  cases hfile : s.store.getVersion hash with
  | some old =>
      have hexists : s.store.versionExists hash = true := by rw [versionExists, hfile]; rfl
      have hold : old = content hash := by
        have hdata := hs.data hash ((hs.mem_stored_iff hash).mpr hexists)
        rw [hfile] at hdata
        exact Option.some.inj hdata
      have hkept : (writeOutcome (s.store.getVersion hash) (content hash) fault).2 =
          some (content hash) := by
        rw [hfile, hold, writeOutcome.eq_def]
        split <;> rfl
      rw [hkept] at hw
      by_cases hr : result = .ok ()
      · simp [sound_stored_iff hs hw (hok hr), hexists]
      · simp [sound_failed_iff hs hw (herror hr), hexists]
  | none =>
      have hmissing : s.store.versionExists hash = false := by rw [versionExists, hfile]; rfl
      rw [hfile] at hresult hw
      simp only [hmissing, Bool.false_eq_true, false_or]
      rcases fault with _ | fault
      · simp [sound_stored_iff hs hw (hok hresult), StoreFault.isWrite, writeOutcome, writeNew]
      · cases fault with
        | createDir made =>
            simp [sound_failed_iff hs hw (herror (by simp [hresult, writeOutcome])),
              StoreFault.isWrite, writeOutcome, hmissing]
        | createFile =>
            simp [sound_failed_iff hs hw (herror (by simp [hresult, writeOutcome, writeNew])),
              StoreFault.isWrite, writeOutcome, writeNew, hmissing]
        | listChunks =>
            simp [sound_stored_iff hs hw (hok hresult), StoreFault.isWrite, writeOutcome, writeNew]
        | write written =>
            simp [sound_failed_iff hs hw (herror (by simp [hresult, writeOutcome, writeNew])),
              StoreFault.isWrite, writeOutcome, writeNew, hmissing]
        | removeChunks left =>
            simp [sound_stored_iff hs hw (hok hresult), StoreFault.isWrite, writeOutcome, writeNew]

theorem StoreRun.stored_step_ok {s : StoreRun} (call : StoreCall) (hcall : call.stores = some hash)
    (h : (call.run s.store fault).1 = .ok ()) :
    (s.step call fault).stored = hash :: s.stored := by
  simp [step, h, hcall]

theorem StoreRun.stored_step_error {s : StoreRun} (call : StoreCall)
    (h : (call.run s.store fault).1 ≠ .ok ()) : (s.step call fault).stored = s.stored := by
  simp only [step]
  split
  · next hok _ => exact absurd hok h
  · rfl

/-- Whatever was stored before, a call keeps every stored version whole if and only if it
does not leave a part of one behind. -/
theorem StoreRun.sound_step_iff {s : StoreRun} (hs : s.Sound content) {call : StoreCall}
    (hgives : call.Gives content) (fault : Option StoreFault) :
    (s.step call fault).Sound content ↔ call.KeepsWhole content s.store fault := by
  cases call with
  | storeVersion hash data =>
      obtain rfl : data = content hash := hgives
      obtain ⟨hresult, hw⟩ := storeVersion_spec s.store hash (content hash) fault
      exact sound_storeVersion_iff hs hresult hw
        (stored_step_ok (.storeVersion hash (content hash)) rfl)
        (stored_step_error (.storeVersion hash (content hash)))
  | storeVersionFromReader hash data =>
      obtain rfl : data = content hash := hgives
      obtain ⟨hresult, hw⟩ := storeVersion_spec s.store hash (content hash) fault
      exact sound_storeVersion_iff hs hresult hw
        (stored_step_ok (.storeVersionFromReader hash (content hash)) rfl)
        (stored_step_error (.storeVersionFromReader hash (content hash)))
  | storeVersionChunk hash offset data =>
      have hw := writes_storeVersionChunk s.store hash offset data fault
      have hstored : (s.step (.storeVersionChunk hash offset data) fault).stored = s.stored := by
        simp only [StoreRun.step, StoreCall.stores]
        split
        · next h => cases h
        · rfl
      rw [sound_failed_iff hs hw hstored]
      simp only [StoreCall.KeepsWhole, iff_true]
      refine ⟨fun hexists => ?_, fun hsome => hsome⟩
      exact hs.data hash ((hs.mem_stored_iff hash).mpr hexists)
  | combineVersionChunks hash =>
      rcases combineVersionChunks_spec s.store hash fault with
        ⟨hnone, hrun⟩ | ⟨dir, hdir, hresult, hw⟩
      · have hstep : s.step (.combineVersionChunks hash) fault = s := by
          simp [StoreRun.step, StoreCall.run, hrun]
        simp [hstep, hs, StoreCall.KeepsWhole, hnone]
      · have hkeeps : StoreCall.KeepsWhole content s.store fault (.combineVersionChunks hash) ↔
            (fault ≠ some .createFile → bytesCopied dir fault = content hash ∧
              (s.store.versionExists hash ∨
                (chunkBytes dir).2 = true ∧ StoreFault.sparesCombine fault = true)) := by
          simp [StoreCall.KeepsWhole, hdir]
        have herror : (combine dir fault).1 ≠ .ok () →
            (s.step (.combineVersionChunks hash) fault).stored = s.stored := by
          intro h
          apply stored_step_error
          rwa [StoreCall.run, hresult]
        rw [hkeeps]
        by_cases hcreate : fault = some .createFile
        · subst hcreate
          have hdata : dir.data = s.store.getVersion hash := by
            simp [getVersion, versionDir, hdir]
          rw [sound_failed_iff hs hw (herror (by simp [combine]))]
          simp only [combine, if_true, hdata, ne_eq, not_true, false_implies, iff_true]
          refine ⟨fun hexists => ?_, fun hsome => hsome⟩
          exact hs.data hash ((hs.mem_stored_iff hash).mpr hexists)
        · rw [combine_data hcreate] at hw
          by_cases hok : (combine dir fault).1 = .ok ()
          · have hrun : (StoreCall.run s.store fault (.combineVersionChunks hash)).1 = .ok () := by
              rw [StoreCall.run, hresult, hok]
            rw [sound_stored_iff hs hw (stored_step_ok _ rfl hrun)]
            simp [hcreate, combine_ok_iff.mp hok]
          · rw [sound_failed_iff hs hw (herror hok)]
            rw [combine_ok_iff] at hok
            simp only [hcreate, ne_eq, not_false_eq_true, true_implies, Option.some.injEq,
              Option.isSome_some, hok, or_false]
            tauto

/-! ## Whole runs -/

/-- The store and what was stored after so many of the calls. -/
def StoreRun.after (calls : List (StoreCall × Option StoreFault)) (n : ℕ) : StoreRun :=
  StoreRun.steps {} (calls.take n)

theorem StoreRun.after_succ {calls : List (StoreCall × Option StoreFault)} {n : ℕ}
    {call : StoreCall} (h : calls[n]? = some (call, fault)) :
    after calls (n + 1) = (after calls n).step call fault := by
  rw [after, List.take_add_one, h, steps, Option.toList_some, List.foldl_append]
  rfl

theorem StoreRun.sound_empty (content : MerkleHash → Content) :
    ({} : StoreRun).Sound content where
  data := by
    intro h hmem
    cases hmem
  stored := by
    intro h hexists
    cases hexists

/-- All versions that were stored are whole after every call if and only if every call keeps
them so. -/
theorem sound_iff_keepsWhole {calls : List (StoreCall × Option StoreFault)}
    (hgives : ∀ call ∈ calls, call.1.Gives content) :
    (∀ n, (StoreRun.after calls n).Sound content) ↔
      ∀ (n : ℕ) (call : StoreCall) (fault : Option StoreFault), calls[n]? = some (call, fault) →
        call.KeepsWhole content (StoreRun.after calls n).store fault := by
  constructor
  · intro hsound n call fault hcall
    rw [← StoreRun.sound_step_iff (hsound n) (hgives _ (List.mem_of_getElem? hcall)) fault,
      ← StoreRun.after_succ hcall]
    exact hsound (n + 1)
  · intro hkeeps n
    induction n with
    | zero => exact StoreRun.sound_empty content
    | succ n ih =>
        cases hcall : calls[n]? with
        | none =>
            have hlength := List.getElem?_eq_none_iff.mp hcall
            have hsame : StoreRun.after calls (n + 1) = StoreRun.after calls n := by
              rw [StoreRun.after, StoreRun.after, List.take_of_length_le (by omega),
                List.take_of_length_le hlength]
            exact hsame ▸ ih
        | some next =>
            obtain ⟨call, fault⟩ := next
            rw [StoreRun.after_succ hcall]
            exact (StoreRun.sound_step_iff ih (hgives _ (List.mem_of_getElem? hcall)) fault).mpr
              (hkeeps n call fault hcall)

/-! ## An attempt that is retried -/

namespace StoreExample

def contentOf (_ : MerkleHash) : Content :=
  [1, 2]

/-- The first attempt fails after one byte. -/
def retried : List (StoreCall × Option StoreFault) :=
  [(.storeVersion 7 [1, 2], some (.write 1)), (.storeVersion 7 [1, 2], none)]

/-- A version that is stored in two chunks. -/
def chunked : List (StoreCall × Option StoreFault) :=
  [(.storeVersionChunk 7 1 [2], some .createFile), (.storeVersionChunk 7 1 [2], none),
    (.storeVersionChunk 7 0 [1], none), (.combineVersionChunks 7, none)]

theorem retried_gives : ∀ call ∈ retried, call.1.Gives contentOf := by
  simp [retried, StoreCall.Gives, contentOf]

theorem chunked_gives : ∀ call ∈ chunked, call.1.Gives contentOf := by
  simp [chunked, StoreCall.Gives]

example : (StoreRun.after chunked 4).store.getVersion 7 = some [1, 2] := by decide

end StoreExample

theorem sound_iff_keepsWhole_example :
    (∀ n, (StoreRun.after StoreExample.chunked n).Sound StoreExample.contentOf) ↔
      ∀ (n : ℕ) (call : StoreCall) (fault : Option StoreFault),
        StoreExample.chunked[n]? = some (call, fault) →
        call.KeepsWhole StoreExample.contentOf (StoreRun.after StoreExample.chunked n).store fault :=
  sound_iff_keepsWhole StoreExample.chunked_gives

/-- The retry returns, and keeps the truncated data. -/
theorem not_sound :
    ¬ ∀ (content : MerkleHash → Content) (calls : List (StoreCall × Option StoreFault)),
      (∀ call ∈ calls, call.1.Gives content) → ∀ n, (StoreRun.after calls n).Sound content := by
  intro h
  have hsound := h StoreExample.contentOf StoreExample.retried StoreExample.retried_gives 2
  have hstored : 7 ∈ (StoreRun.after StoreExample.retried 2).stored := by decide
  have hdata : (StoreRun.after StoreExample.retried 2).store.getVersion 7 = some [1] := by
    decide
  have hwhole := hsound.data 7 hstored
  rw [hdata] at hwhole
  cases hwhole

end Oxen
