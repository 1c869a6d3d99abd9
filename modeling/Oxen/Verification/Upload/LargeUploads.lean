import Oxen.Model.LargeUpload
import Oxen.Verification.Storage.Chunks

/-! Large uploads of any clients: what the server puts together is whole, and a client that
uploads alone is not turned away. -/

namespace Oxen

namespace LargeUpload

open Backends Runs

variable {config : Config} {staging : Staging} {content : HashText → Bytes} {file : Bytes}
  {store : VersionDirs} {h h' : HashText} {k o : ℕ} {data : Content}

/-! ## The chunks of a file -/

/-- The chunks of a file, with their offsets. -/
def pieces (config : Config) (file : Bytes) : List (ℕ × Content) :=
  (List.range (numChunks config file)).map fun k => (k * config.chunkSize, chunk config file k)

theorem length_pieces : (pieces config file).length = numChunks config file := by
  rw [pieces, List.length_map, List.length_range]

theorem mem_pieces : (o, data) ∈ pieces config file ↔
    ∃ k < numChunks config file, o = k * config.chunkSize ∧ data = chunk config file k := by
  rw [pieces, List.mem_map]
  constructor
  · rintro ⟨k, hk, heq⟩
    obtain ⟨rfl, rfl⟩ := Prod.mk.inj heq
    exact ⟨k, List.mem_range.mp hk, rfl, rfl⟩
  · rintro ⟨k, hk, rfl, rfl⟩
    exact ⟨k, List.mem_range.mpr hk, rfl⟩

theorem flatten_pieces : ((pieces config file).map Prod.snd).flatten = file.data := by
  have hlength : file.data.length ≤ numChunks config file * config.chunkSize := by
    rw [Nat.mul_comm]
    exact (ceilDiv_le_iff_le_mul config.chunkSize_pos).mp le_rfl
  rw [pieces, List.map_map]
  exact (Batches.flatten_batches _ _ _).trans (List.take_of_length_le hlength)

theorem pairwise_pieces : (pieces config file).Pairwise fun a b => a.1 < b.1 := by
  rw [pieces, List.pairwise_map]
  apply List.pairwise_lt_range.imp
  intro a b hab
  exact Nat.mul_lt_mul_of_pos_right hab config.chunkSize_pos

theorem numChunks_pos (hne : file.data ≠ []) : 0 < numChunks config file := by
  rw [Nat.pos_iff_ne_zero]
  intro hzero
  have hle : file.data.length ≤ config.chunkSize * 0 :=
    (ceilDiv_le_iff_le_mul config.chunkSize_pos).mp hzero.le
  have hpos := List.length_pos_of_ne_nil hne
  omega

/-- A chunk starts within the file. -/
theorem mul_lt_length (hk : k < numChunks config file) :
    k * config.chunkSize < file.data.length := by
  by_contra hnot
  have hle : file.data.length ⌈/⌉ config.chunkSize ≤ k := by
    rw [ceilDiv_le_iff_le_mul config.chunkSize_pos, Nat.mul_comm]
    exact Nat.le_of_not_lt hnot
  exact absurd hk (Nat.not_lt.mpr hle)

theorem toNat_chunkStart (hk : k < numChunks config file) :
    (chunkStart config k).toNat = k * config.chunkSize := by
  have hstart := mul_lt_length hk
  have hlength := file.length_lt
  exact UInt64.toNat_ofNat_of_lt' (by rw [UInt64.size]; omega)

/-! ## The store -/

/-- The version holds the file. -/
def Whole (store : VersionDirs) (h : HashText) (file : Bytes) : Prop :=
  (store.versionDir h).data = some file.data

/-- The chunk is there, or the whole file is. -/
def Has (config : Config) (content : HashText → Bytes) (store : VersionDirs) (h : HashText)
    (k : ℕ) : Prop :=
  Whole store h (content h) ∨ (chunkAt store h (k * config.chunkSize)).isSome

/-- Every version has either no file or its whole file, and every chunk is one of its file. -/
structure StoreSound (config : Config) (content : HashText → Bytes) (store : VersionDirs) :
    Prop where
  written : ChunksWritten store
  chunks : ∀ h o data, chunkAt store h o = some data → (o, data) ∈ pieces config (content h)
  files : ∀ h, (store.versionDir h).data = none ∨ Whole store h (content h)

theorem data_storeVersionChunk (offset : UInt64) :
    ((store.storeVersionChunk h offset data).versionDir h').data =
      (store.versionDir h').data := by
  rw [VersionDirs.storeVersionChunk, versionDir_insert]
  split
  · next heq => rw [heq]
  · rfl

theorem chunkAt_storeVersionChunk_ne (offset : UInt64) (hne : h' ≠ h) :
    chunkAt (store.storeVersionChunk h offset data) h' o = chunkAt store h' o := by
  rw [chunkAt, VersionDirs.storeVersionChunk, versionDir_insert, if_neg hne, chunkAt]

theorem StoreSound.storeVersionChunk (hs : StoreSound config content store) {offset : UInt64}
    (hpiece : (offset.toNat, data) ∈ pieces config (content h)) :
    StoreSound config content (store.storeVersionChunk h offset data) where
  written := chunksWritten_storeVersionChunk hs.written offset
  chunks h' o d hd := by
    by_cases hh : h' = h
    · subst hh
      rw [chunkAt_storeVersionChunk] at hd
      split at hd
      · next ho =>
        subst ho
        cases hold : chunkAt store h' offset.toNat with
        | none =>
            rw [hold, Option.getD_none, Option.some.injEq] at hd
            exact hd ▸ hpiece
        | some old =>
            rw [hold, Option.getD_some, Option.some.injEq] at hd
            exact hd ▸ hs.chunks _ _ _ hold
      · exact hs.chunks _ _ _ hd
    · rw [chunkAt_storeVersionChunk_ne offset hh] at hd
      exact hs.chunks _ _ _ hd
  files h' := by
    rw [Whole, data_storeVersionChunk]
    exact hs.files h'

/-- Storing a chunk takes nothing away. -/
theorem Has.storeVersionChunk (offset : UInt64) (hhas : Has config content store h' k) :
    Has config content (store.storeVersionChunk h offset data) h' k := by
  rcases hhas with hwhole | hchunk
  · left
    rwa [Whole, data_storeVersionChunk]
  · right
    by_cases hh : h' = h
    · subst hh
      rw [chunkAt_storeVersionChunk]
      split
      · rfl
      · exact hchunk
    · rwa [chunkAt_storeVersionChunk_ne offset hh]

theorem has_storeVersionChunk (hk : k < numChunks config (content h)) :
    Has config content (store.storeVersionChunk h (chunkStart config k) data) h k := by
  right
  rw [chunkAt_storeVersionChunk, toNat_chunkStart hk, if_pos rfl]
  rfl

/-! ## Putting the chunks together -/

theorem length_storedChunks : (storedChunks store h).length = (store.chunkFiles h).keys.length := by
  rw [storedChunks, List.length_map, List.length_insertionSort]

theorem storedChunks_subset (hs : StoreSound config content store) :
    storedChunks store h ⊆ pieces config (content h) := by
  intro item hitem
  exact hs.chunks h item.1 item.2 ((mem_storedChunks hs.written).mp hitem)

/-- As many chunks as the file has are the chunks of the file. -/
theorem storedChunks_of_length (hs : StoreSound config content store)
    (hlength : (storedChunks store h).length = numChunks config (content h)) :
    storedChunks store h = pieces config (content h) := by
  have hnodup : (storedChunks store h).Nodup :=
    pairwise_storedChunks.imp fun hab heq => (heq ▸ hab).ne rfl
  have hperm : (storedChunks store h).Perm (pieces config (content h)) := by
    apply (List.subperm_of_subset hnodup (storedChunks_subset hs)).perm_of_length_le
    rw [hlength, length_pieces]
  apply hperm.eq_of_pairwise ?_ pairwise_storedChunks pairwise_pieces
  intro a b _ _ hab hba
  exact absurd hab (lt_asymm hba)

/-- With every chunk there, the chunks are those of the file. -/
theorem storedChunks_of_all (hs : StoreSound config content store)
    (hall : ∀ k < numChunks config (content h),
      (chunkAt store h (k * config.chunkSize)).isSome) :
    storedChunks store h = pieces config (content h) := by
  apply storedChunks_eq hs.written pairwise_pieces
  rintro ⟨o, data⟩
  refine ⟨hs.chunks h o data, ?_⟩
  intro hpiece
  rcases mem_pieces.mp hpiece with ⟨k, hk, rfl, -⟩
  rcases Option.isSome_iff_exists.mp (hall k hk) with ⟨d, hd⟩
  have hsame := hs.chunks _ _ _ hd
  rcases mem_pieces.mp hsame with ⟨k', -, hmul, rfl⟩
  have hk' : k' = k := (Nat.eq_of_mul_eq_mul_right config.chunkSize_pos hmul).symm
  rcases mem_pieces.mp hpiece with ⟨k'', -, hmul', rfl⟩
  have hk'' : k'' = k := (Nat.eq_of_mul_eq_mul_right config.chunkSize_pos hmul').symm
  rw [hd, hk', hk'']

/-- What the server makes of a request to put all chunks together. -/
structure Combines (config : Config) (content : HashText → Bytes) (staging : Staging)
    (store : VersionDirs) (h : HashText) (workspaceId : Option String)
    (out : Except HttpError Unit × VersionDirs) : Prop where
  sound : StoreSound config content out.2
  whole : Whole out.2 h (content h)
  other : ∀ h', h' ≠ h → out.2.versionDir h' = store.versionDir h'
  accepted : (store.versionDir h).data = none → out.1 = staging.run workspaceId

theorem combines_of_whole (hs : StoreSound config content store)
    (hwhole : Whole store h (content h)) (e : HttpError) (workspaceId : Option String) :
    Combines config content staging store h workspaceId (.error e, store) where
  sound := hs
  whole := hwhole
  other _ _ := rfl
  accepted hnone := by
    rw [Whole, hnone] at hwhole
    cases hwhole

/-- The server puts all chunks together, or has done so before. -/
theorem combine_combines (staging : Staging) (hs : StoreSound config content store)
    (hne : (content h).data ≠ [])
    (hhas : ∀ k < numChunks config (content h), Has config content store h k)
    (workspaceId : Option String) :
    Combines config content staging store h workspaceId
      (combine staging store h (numChunks config (content h)) workspaceId) := by
  have hpos : 0 < numChunks config (content h) := numChunks_pos hne
  rw [combine, VersionDirs.listVersionChunks]
  cases hchunks : (store.versionDir h).chunks with
  | none =>
      apply combines_of_whole hs
      rcases hhas 0 hpos with hwhole | hchunk
      · exact hwhole
      · simp [chunkAt, chunkOf, hchunks] at hchunk
  | some chunks =>
      have hkeys : (chunks.keys.insertionSort (· ≤ ·)).length = (storedChunks store h).length := by
        rw [length_storedChunks, List.length_insertionSort, VersionDirs.chunkFiles, hchunks,
          Option.getD_some]
      dsimp only
      split
      · next hlength =>
        apply combines_of_whole hs
        by_contra hnot
        apply hlength
        rw [hkeys, storedChunks_of_all hs fun k hk => (hhas k hk).resolve_left hnot, length_pieces]
      · next hlength =>
        have hpieces := storedChunks_of_length hs (hkeys.symm.trans (not_not.mp hlength))
        have hbytes : ((chunks.keys.insertionSort (· ≤ ·)).map
            fun o => (chunkAt store h o).getD []).flatten = (content h).data := by
          rw [← @flatten_pieces config, ← hpieces, storedChunks, List.map_map,
            VersionDirs.chunkFiles, hchunks]
          rfl
        rw [local_combineVersionChunks hs.written hchunks, hbytes]
        have hwhole : Whole (store.insert h { data := some (content h).data, chunks := none }) h
            (content h) := by
          rw [Whole, versionDir_insert, if_pos rfl]
        have hother : ∀ h', h' ≠ h → VersionDirs.versionDir
            (store.insert h { data := some (content h).data, chunks := none }) h' =
              store.versionDir h' := by
          intro h' hh
          rw [versionDir_insert, if_neg hh]
        refine ⟨⟨?_, ?_, ?_⟩, hwhole, hother, fun _ => rfl⟩
        · exact chunksWritten_insert hs.written fun _ hsome => by cases hsome
        · intro h' o d hd
          by_cases hh : h' = h
          · subst hh
            rw [chunkAt, versionDir_insert, if_pos rfl] at hd
            cases hd
          · rw [chunkAt, hother h' hh] at hd
            exact hs.chunks h' o d hd
        · intro h'
          by_cases hh : h' = h
          · exact .inr (hh ▸ hwhole)
          · rw [Whole, hother h' hh]
            exact hs.files h'

/-! ## Clients and messages -/

variable {s s' s₀ : State} {action : Action} {actions before : List Action} {c : Client}
  {r : Request} {answer : Response} {i : ℕ}

/-- The client at a place is still there, with its upload. -/
def Knows (s : State) (i : ℕ) (upload : MultipartLargeFileUpload) (workspaceId : Option String) :
    Prop :=
  ∃ c, s.clients[i]? = some c ∧ c.upload = upload ∧ c.workspaceId = workspaceId

/-- All clients keep their places and their uploads. -/
def KeepsClients (s s' : State) : Prop :=
  ∀ i upload workspaceId, Knows s i upload workspaceId → Knows s' i upload workspaceId

/-- The body of the request that is sent when all chunks are uploaded. -/
def completeBody (config : Config) (file : Bytes) (workspaceId : Option String) :
    CompleteVersionUploadRequest where
  files := [{ numChunks := some (numChunks config file), uploadResults := none }]
  workspaceId := workspaceId

/-- A request brings a chunk of its client's file, or comes when the server has all of them. -/
def RequestSound (config : Config) (content : HashText → Bytes) (s : State) : Request → Prop
  | .chunk i k _ h offset body =>
      ∃ upload workspaceId, Knows s i upload workspaceId ∧ upload.hash = h ∧
        k < numChunks config (content h) ∧ offset = chunkStart config k ∧
          body = chunk config (content h) k
  | .complete i h body =>
      ∃ upload workspaceId, Knows s i upload workspaceId ∧ upload.hash = h ∧
        body = completeBody config (content h) workspaceId ∧
          ∀ k < numChunks config (content h), Has config content s.store h k

/-- An answer tells what is so. -/
def ResponseSound (config : Config) (content : HashText → Bytes) (s : State) : Response → Prop
  | .chunk i k _ =>
      ∃ upload workspaceId, Knows s i upload workspaceId ∧ Has config content s.store upload.hash k
  | .complete i _ =>
      ∃ upload workspaceId, Knows s i upload workspaceId ∧ upload.hash ∈ s.completed

structure ClientSound (config : Config) (content : HashText → Bytes) (s : State) (c : Client) :
    Prop where
  file : c.upload.file = content c.upload.hash
  tasks : c.tasks.length = numChunks config (content c.upload.hash)
  uploaded : ∀ k, c.tasks[k]? = some .uploaded → Has config content s.store c.upload.hash k
  returned : c.progress = .returned true → c.upload.hash ∈ s.completed

structure Sound (config : Config) (content : HashText → Bytes) (s : State) : Prop where
  store : StoreSound config content s.store
  clients : ∀ c ∈ s.clients, ClientSound config content s c
  requests : ∀ r ∈ s.requests, RequestSound config content s r
  responses : ∀ answer ∈ s.responses, ResponseSound config content s answer
  completed : ∀ h ∈ s.completed, Whole s.store h (content h)

/-- Nothing is taken from the server, and no client goes away. -/
structure Grows (config : Config) (content : HashText → Bytes) (s s' : State) : Prop where
  clients : KeepsClients s s'
  has : ∀ h k, Has config content s.store h k → Has config content s'.store h k
  completed : s.completed ⊆ s'.completed

theorem RequestSound.mono (hgrows : Grows config content s s')
    (h : RequestSound config content s r) : RequestSound config content s' r := by
  cases r with
  | chunk i k retries hash offset body =>
      rcases h with ⟨upload, workspaceId, hknows, hrest⟩
      exact ⟨upload, workspaceId, hgrows.clients _ _ _ hknows, hrest⟩
  | complete i hash body =>
      rcases h with ⟨upload, workspaceId, hknows, hhash, hbody, hhas⟩
      exact ⟨upload, workspaceId, hgrows.clients _ _ _ hknows, hhash, hbody,
        fun k hk => hgrows.has _ _ (hhas k hk)⟩

theorem ResponseSound.mono (hgrows : Grows config content s s')
    (h : ResponseSound config content s answer) : ResponseSound config content s' answer := by
  cases answer with
  | chunk i k retries =>
      rcases h with ⟨upload, workspaceId, hknows, hhas⟩
      exact ⟨upload, workspaceId, hgrows.clients _ _ _ hknows, hgrows.has _ _ hhas⟩
  | complete i result =>
      rcases h with ⟨upload, workspaceId, hknows, hmem⟩
      exact ⟨upload, workspaceId, hgrows.clients _ _ _ hknows, hgrows.completed hmem⟩

theorem ClientSound.mono (hgrows : Grows config content s s')
    (h : ClientSound config content s c) : ClientSound config content s' c where
  file := h.file
  tasks := h.tasks
  uploaded k hk := hgrows.has _ _ (h.uploaded k hk)
  returned hreturned := hgrows.completed (h.returned hreturned)

/-- A client that goes on with the same upload. -/
theorem grows_setClient {c' : Client} (hc : s.clients[i]? = some c)
    (hupload : c'.upload = c.upload) (hworkspace : c'.workspaceId = c.workspaceId)
    (hclients : s'.clients = s.clients.set i c') (hstore : s'.store = s.store)
    (hcompleted : s'.completed = s.completed) : Grows config content s s' where
  clients j upload workspaceId := by
    rintro ⟨d, hd, rfl, rfl⟩
    by_cases hij : i = j
    · subst hij
      cases hc.symm.trans hd
      refine ⟨c', ?_, hupload, hworkspace⟩
      rw [hclients]
      exact List.getElem?_set_self (List.getElem?_eq_some_iff.mp hc).1
    · exact ⟨d, by rw [hclients, List.getElem?_set_ne hij, hd], rfl, rfl⟩
  has h k hhas := by rwa [hstore]
  completed := by rw [hcompleted]; exact List.Subset.refl _

theorem knows_of_getElem? (hc : s.clients[i]? = some c) : Knows s i c.upload c.workspaceId :=
  ⟨c, hc, rfl, rfl⟩

/-- One client and some messages change, and the rest is as it was. -/
theorem Sound.setClient {c' : Client} {requests : List Request} {responses : List Response}
    (hs : Sound config content s) (hc : s.clients[i]? = some c) (hupload : c'.upload = c.upload)
    (hworkspace : c'.workspaceId = c.workspaceId) (hc' : ClientSound config content s c')
    (hrequests : ∀ r ∈ requests, r ∈ s.requests ∨ RequestSound config content s r)
    (hresponses : ∀ answer ∈ responses, answer ∈ s.responses) :
    Sound config content { s with clients := s.clients.set i c', requests, responses } := by
  have hgrows : Grows config content s
      { s with clients := s.clients.set i c', requests, responses } :=
    grows_setClient hc hupload hworkspace rfl rfl rfl
  constructor
  · exact hs.store
  · intro d hd
    rcases List.mem_or_eq_of_mem_set hd with hd | rfl
    · exact (hs.clients d hd).mono hgrows
    · exact hc'.mono hgrows
  · intro r hr
    rcases hrequests r hr with hr | hr
    · exact (hs.requests r hr).mono hgrows
    · exact hr.mono hgrows
  · intro answer hanswer
    exact (hs.responses answer (hresponses answer hanswer)).mono hgrows
  · exact hs.completed

/-- A request is gone. -/
theorem Sound.eraseRequest (hs : Sound config content s) (i : ℕ) :
    Sound config content { s with requests := s.requests.eraseIdx i } := by
  have hgrows : Grows config content s { s with requests := s.requests.eraseIdx i } :=
    ⟨fun _ _ _ hknows => hknows, fun _ _ hhas => hhas, List.Subset.refl _⟩
  constructor
  · exact hs.store
  · exact fun c hc => (hs.clients c hc).mono hgrows
  · exact fun r hr => (hs.requests r (List.mem_of_mem_eraseIdx hr)).mono hgrows
  · exact fun answer hanswer => (hs.responses answer hanswer).mono hgrows
  · exact hs.completed

theorem ClientSound.setTask {task : Task} (h : ClientSound config content s c)
    (htask : task = .uploaded → Has config content s.store c.upload.hash k) :
    ClientSound config content s (c.setTask k task) where
  file := h.file
  tasks := by
    rw [Client.setTask]
    exact (List.length_set ..).trans h.tasks
  uploaded j hj := by
    by_cases hkj : k = j
    · subst hkj
      change (c.tasks.set k task)[k]? = some .uploaded at hj
      rw [List.getElem?_set_self'] at hj
      cases hold : c.tasks[k]? with
      | none => simp [hold] at hj
      | some old =>
          rw [hold] at hj
          exact htask (Option.some.inj hj)
    · change (c.tasks.set k task)[j]? = some .uploaded at hj
      rw [List.getElem?_set_ne hkj] at hj
      exact h.uploaded j hj
  returned := h.returned

/-- Whoever asks for a version has sent all its chunks. -/
theorem Sound.combines {upload : MultipartLargeFileUpload} {workspaceId : Option String}
    (hs : Sound config content s) (hknows : Knows s i upload workspaceId) (hhash : upload.hash = h)
    (hhas : ∀ k < numChunks config (content h), Has config content s.store h k) :
    Combines config content staging s.store h workspaceId
      (combine staging s.store h (numChunks config (content h)) workspaceId) := by
  have hne : (content h).data ≠ [] := by
    rcases hknows with ⟨c, hc, rfl, -⟩
    rw [← hhash, ← (hs.clients c (List.mem_of_getElem? hc)).file]
    exact c.upload.nonempty
  exact combine_combines staging hs.store hne hhas workspaceId

/-- What the server does with one request. -/
theorem sound_serve (staging : Staging) (hs : Sound config content s)
    (hr : RequestSound config content s r) :
    Sound config content (s.serve staging r) := by
  cases r with
  | chunk i k retries h offset body =>
      rcases hr with ⟨upload, workspaceId, hknows, hhash, hk, rfl, rfl⟩
      have hpiece : ((chunkStart config k).toNat, chunk config (content h) k) ∈
          pieces config (content h) := mem_pieces.mpr ⟨k, hk, toNat_chunkStart hk, rfl⟩
      have hgrows : Grows config content s
          (s.serve staging (.chunk i k retries h (chunkStart config k)
            (chunk config (content h) k))) :=
        ⟨fun _ _ _ hknows => hknows, fun _ _ hhas => hhas.storeVersionChunk _,
          List.Subset.refl _⟩
      constructor
      · exact hs.store.storeVersionChunk hpiece
      · exact fun c hc => (hs.clients c hc).mono hgrows
      · exact fun r hr => (hs.requests r hr).mono hgrows
      · intro answer hanswer
        rcases List.mem_append.mp hanswer with hanswer | hanswer
        · exact (hs.responses answer hanswer).mono hgrows
        · rw [List.mem_singleton.mp hanswer]
          exact ⟨upload, workspaceId, hknows, by
            rw [hhash]
            exact has_storeVersionChunk hk⟩
      · intro h' hh'
        change ((s.store.storeVersionChunk _ _ _).versionDir h').data = _
        rw [data_storeVersionChunk]
        exact hs.completed h' hh'
  | complete i h body =>
      rcases hr with ⟨upload, workspaceId, hknows, hhash, rfl, hhas⟩
      have hcombines := @Sound.combines config staging content h s i upload workspaceId hs hknows
        hhash hhas
      have hstore : (s.serve staging (.complete i h
          (completeBody config (content h) workspaceId))).store =
            (combine staging s.store h (numChunks config (content h)) workspaceId).2 := rfl
      have hgrows : Grows config content s
          (s.serve staging (.complete i h (completeBody config (content h) workspaceId))) := by
        refine ⟨fun _ _ _ hknows => hknows, ?_, List.subset_cons_self _ _⟩
        intro h' k hhas'
        rw [hstore]
        by_cases hh : h' = h
        · exact .inl (hh ▸ hcombines.whole)
        · rw [Has, Whole, chunkAt, hcombines.other h' hh]
          exact hhas'
      constructor
      · exact hcombines.sound
      · exact fun c hc => (hs.clients c hc).mono hgrows
      · exact fun r hr => (hs.requests r hr).mono hgrows
      · intro answer hanswer
        rcases List.mem_append.mp hanswer with hanswer | hanswer
        · exact (hs.responses answer hanswer).mono hgrows
        · rw [List.mem_singleton.mp hanswer]
          exact ⟨upload, workspaceId, hknows, hhash ▸ List.mem_cons_self⟩
      · intro h' hh'
        rw [hstore]
        rcases List.mem_cons.mp hh' with rfl | hh'
        · exact hcombines.whole
        · by_cases hh : h' = h
          · exact hh ▸ hcombines.whole
          · rw [Whole, hcombines.other h' hh]
            exact hs.completed h' hh'

/-- The same bytes under the same hash. -/
def Action.Addressed (content : HashText → Bytes) : Action → Prop
  | .begins upload _ => upload.file = content upload.hash
  | _ => True

theorem hear_upload : (c.hear answer).upload = c.upload := by
  cases answer <;> rw [Client.hear] <;> split <;> rfl

theorem hear_workspaceId : (c.hear answer).workspaceId = c.workspaceId := by
  cases answer <;> rw [Client.hear] <;> split <;> rfl

theorem ClientSound.hear (hc : ClientSound config content s c)
    (hknown : s.clients[answer.client]? = some c)
    (hanswer : ResponseSound config content s answer) :
    ClientSound config content s (c.hear answer) := by
  cases answer with
  | chunk i k retries =>
      rw [Client.hear]
      split
      · apply hc.setTask
        intro _
        rcases hanswer with ⟨upload, workspaceId, ⟨d, hd, rfl, -⟩, hhas⟩
        cases hknown.symm.trans hd
        exact hhas
      · exact hc
  | complete i result =>
      rw [Client.hear]
      split
      · refine { hc with returned := ?_ }
        intro _
        rcases hanswer with ⟨upload, workspaceId, ⟨d, hd, rfl, -⟩, hmem⟩
        cases hknown.symm.trans hd
        exact hmem
      · exact hc

/-! ## Steps -/

def newClient (config : Config) (upload : MultipartLargeFileUpload) (workspaceId : Option String) :
    Client where
  upload := upload
  workspaceId := workspaceId
  tasks := List.replicate (numChunks config upload.file) .waiting

/-- The request for a chunk of the client's file. -/
def chunkRequest (config : Config) (c : Client) (i k retries : ℕ) : Request :=
  .chunk i k retries c.upload.hash (chunkStart config k) (chunk config c.upload.file k)

/-- What the actions do, and when they can be taken. -/
inductive Does (config : Config) (staging : Staging) (s : State) : Action → State → Prop
  | begins (upload : MultipartLargeFileUpload) (workspaceId : Option String) :
      Does config staging s (.begins upload workspaceId)
        { s with clients := s.clients ++ [newClient config upload workspaceId] }
  | send {i k : ℕ} {c : Client} {retries : ℕ} (hc : s.clients[i]? = some c)
      (hk : k < c.tasks.length) :
      Does config staging s (.send i k)
        { s with
          clients := s.clients.set i (c.setTask k (.sent retries))
          requests := s.requests ++ [chunkRequest config c i k retries] }
  | serve {i : ℕ} {r : Request} (hr : s.requests[i]? = some r) :
      Does config staging s (.serve i)
        { s.serve staging r with requests := s.requests.eraseIdx i }
  | lose {i : ℕ} {r : Request} (hr : s.requests[i]? = some r) :
      Does config staging s (.lose i) { s with requests := s.requests.eraseIdx i }
  | hear {i : ℕ} {answer : Response} {c : Client} (hanswer : s.responses[i]? = some answer)
      (hc : s.clients[answer.client]? = some c) :
      Does config staging s (.hear i)
        { s with
          clients := s.clients.set answer.client (c.hear answer)
          responses := s.responses.eraseIdx i }
  | giveUp {i k retries : ℕ} {c : Client} (hc : s.clients[i]? = some c) :
      Does config staging s (.giveUp i k)
        { s with clients := s.clients.set i (c.setTask k (c.afterFailure config k retries)) }
  | finish {i : ℕ} {c : Client} (hc : s.clients[i]? = some c) (huploading : c.progress = .uploading)
      (hall : ∀ task ∈ c.tasks, task = .uploaded) :
      Does config staging s (.finish i)
        { s with
          clients := s.clients.set i { c with progress := .completing }
          requests := s.requests ++ [.complete i c.upload.hash c.completeRequest] }
  | abort {i : ℕ} {c : Client} (hc : s.clients[i]? = some c) :
      Does config staging s (.abort i)
        { s with clients := s.clients.set i { c with progress := .returned false } }

theorem does_of_step (h : Step config staging action s s') : Does config staging s action s' := by
  cases action with
  | begins upload workspaceId =>
      cases h
      exact .begins upload workspaceId
  | send i k =>
      simp only [Step, State.step, Option.bind_eq_bind, Option.bind_eq_some_iff] at h
      rcases h with ⟨c, hc, task, htask, retries, -, hnext⟩
      cases hnext
      exact .send hc (List.getElem?_eq_some_iff.mp htask).1
  | serve i =>
      simp only [Step, State.step, Option.bind_eq_bind, Option.bind_eq_some_iff] at h
      rcases h with ⟨r, hr, hnext⟩
      cases hnext
      exact .serve hr
  | lose i =>
      simp only [Step, State.step, Option.bind_eq_bind, Option.bind_eq_some_iff] at h
      rcases h with ⟨r, hr, hnext⟩
      cases hnext
      exact .lose hr
  | hear i =>
      simp only [Step, State.step, Option.bind_eq_bind, Option.bind_eq_some_iff] at h
      rcases h with ⟨answer, hanswer, c, hc, hnext⟩
      cases hnext
      exact .hear hanswer hc
  | giveUp i k =>
      simp only [Step, State.step, Option.bind_eq_bind, Option.bind_eq_some_iff] at h
      rcases h with ⟨c, hc, hnext⟩
      split at hnext
      · cases hnext
        exact .giveUp hc
      · cases hnext
  | finish i =>
      simp only [Step, State.step, Option.bind_eq_bind, Option.bind_eq_some_iff] at h
      rcases h with ⟨c, hc, hnext⟩
      split at hnext
      · next hready =>
        cases hnext
        exact .finish hc hready.1 fun task htask =>
          of_decide_eq_true (List.all_eq_true.mp hready.2 task htask)
      · cases hnext
  | abort i =>
      simp only [Step, State.step, Option.bind_eq_bind, Option.bind_eq_some_iff] at h
      rcases h with ⟨c, hc, hnext⟩
      split at hnext
      · cases hnext
        exact .abort hc
      · cases hnext

theorem grows_begins (upload : MultipartLargeFileUpload) (workspaceId : Option String) :
    Grows config content s
      { s with clients := s.clients ++ [newClient config upload workspaceId] } := by
  refine ⟨?_, fun _ _ hhas => hhas, List.Subset.refl _⟩
  rintro i _ _ ⟨c, hc, rfl, rfl⟩
  exact ⟨c, (List.getElem?_append_left (List.getElem?_eq_some_iff.mp hc).1).trans hc, rfl, rfl⟩

theorem sound_step (h : Step config staging action s s') (haction : action.Addressed content)
    (hs : Sound config content s) : Sound config content s' := by
  cases does_of_step h with
  | begins upload workspaceId =>
      have hgrows : Grows config content s
          { s with clients := s.clients ++ [newClient config upload workspaceId] } :=
        grows_begins upload workspaceId
      have hfile : upload.file = content upload.hash := haction
      constructor
      · exact hs.store
      · intro c hc
        rcases List.mem_append.mp hc with hc | hc
        · exact (hs.clients c hc).mono hgrows
        · rw [List.mem_singleton.mp hc]
          refine ⟨hfile, ?_, ?_, fun h => by cases h⟩
          · exact List.length_replicate.trans (by rw [hfile]; rfl)
          · intro k hk
            cases List.eq_of_mem_replicate (List.mem_of_getElem? hk)
      · exact fun r hr => (hs.requests r hr).mono hgrows
      · exact fun answer hanswer => (hs.responses answer hanswer).mono hgrows
      · exact hs.completed
  | send hc hk =>
      have hcs := hs.clients _ (List.mem_of_getElem? hc)
      refine hs.setClient hc (by rfl) (by rfl) ?_ ?_ ?_
      · exact hcs.setTask fun h => by cases h
      · intro r hr
        rcases List.mem_append.mp hr with hr | hr
        · exact .inl hr
        · right
          rw [List.mem_singleton.mp hr]
          rw [hcs.tasks] at hk
          exact ⟨_, _, knows_of_getElem? hc, rfl, hk, rfl, by rw [hcs.file]⟩
      · exact fun answer hanswer => hanswer
  | @serve i r hr =>
      have hserved := sound_serve staging hs (hs.requests r (List.mem_of_getElem? hr))
      have hsame : (s.serve staging r).requests = s.requests := by cases r <;> rfl
      rw [← hsame]
      exact hserved.eraseRequest i
  | lose hr => exact hs.eraseRequest _
  | hear hanswer hc =>
      have hcs := hs.clients _ (List.mem_of_getElem? hc)
      refine hs.setClient hc hear_upload hear_workspaceId ?_ ?_ ?_
      · exact hcs.hear hc (hs.responses _ (List.mem_of_getElem? hanswer))
      · exact fun r hr => .inl hr
      · exact fun a ha => List.mem_of_mem_eraseIdx ha
  | giveUp hc =>
      have hcs := hs.clients _ (List.mem_of_getElem? hc)
      refine hs.setClient hc (by rfl) (by rfl) ?_ ?_ ?_
      · apply hcs.setTask
        intro h
        rw [Client.afterFailure] at h
        repeat' split at h
        all_goals cases h
      · exact fun r hr => .inl hr
      · exact fun a ha => ha
  | finish hc huploading hall =>
      have hcs := hs.clients _ (List.mem_of_getElem? hc)
      refine hs.setClient hc (by rfl) (by rfl) ?_ ?_ ?_
      · exact { hcs with returned := fun h => by cases h }
      · intro r hr
        rcases List.mem_append.mp hr with hr | hr
        · exact .inl hr
        · right
          rw [List.mem_singleton.mp hr]
          refine ⟨_, _, knows_of_getElem? hc, rfl, ?_, ?_⟩
          · rw [Client.completeRequest, completeBody, hcs.tasks]
          · intro k hk
            apply hcs.uploaded
            rw [← hcs.tasks] at hk
            rw [List.getElem?_eq_getElem hk, hall _ (List.getElem_mem hk)]
      · exact fun a ha => ha
  | abort hc =>
      have hcs := hs.clients _ (List.mem_of_getElem? hc)
      refine hs.setClient hc (by rfl) (by rfl) ?_ ?_ ?_
      · exact { hcs with returned := fun h => by cases h }
      · exact fun r hr => .inl hr
      · exact fun a ha => ha

theorem sound_run (h : Run (Step config staging) actions s s')
    (hactions : ∀ a ∈ actions, a.Addressed content) (hs : Sound config content s) :
    Sound config content s' := by
  induction h with
  | nil s => exact hs
  | cons hstep _ ih =>
      have hfirst := hactions _ List.mem_cons_self
      exact ih (fun a ha => hactions a (List.mem_cons_of_mem _ ha)) (sound_step hstep hfirst hs)

/-! ## Whole versions -/

theorem completed_subset (h : Run (Step config staging) actions s s') :
    s.completed ⊆ s'.completed := by
  induction h with
  | nil s => exact List.Subset.refl _
  | cons hstep _ ih =>
      apply List.Subset.trans ?_ ih
      cases does_of_step hstep with
      | @serve i r hr =>
          cases r with
          | chunk => exact List.Subset.refl _
          | complete => exact List.subset_cons_self _ _
      | _ => exact List.Subset.refl _

theorem sound_start (hstart : StoreSound config content store) :
    Sound config content { store } where
  store := hstart
  clients _ hc := by cases hc
  requests _ hr := by cases hr
  responses _ hanswer := by cases hanswer
  completed _ hh := by cases hh

def Client.uploads (h : HashText) (c : Client) : Bool := c.upload.hash = h

/-- The client has yet to ask the server to put the version together. -/
def Client.pending (h : HashText) (c : Client) : Bool :=
  c.upload.hash = h ∧ c.progress = .uploading

def Request.asks (h : HashText) : Request → Bool
  | .complete _ versionId _ => versionId = h
  | _ => false

theorem countP_set_add {α : Type} {l : List α} {i : ℕ} {a b : α} (p : α → Bool)
    (ha : l[i]? = some a) :
    (l.set i b).countP p + (if p a then 1 else 0) = l.countP p + if p b then 1 else 0 := by
  rcases List.getElem?_eq_some_iff.mp ha with ⟨hlt, hget⟩
  have hset : (l.set i b).countP p =
      (l.countP p - if p a then 1 else 0) + if p b then 1 else 0 := by
    rw [List.countP_set hlt, hget]
  have hle : (if p a then 1 else 0) ≤ l.countP p := by
    split
    · next hp => exact List.countP_pos_iff.mpr ⟨a, List.mem_of_getElem? ha, hp⟩
    · exact Nat.zero_le _
  omega

theorem countP_eraseIdx_add {α : Type} {l : List α} {i : ℕ} {a : α} (p : α → Bool)
    (ha : l[i]? = some a) :
    (l.eraseIdx i).countP p + (if p a then 1 else 0) = l.countP p := by
  rcases List.getElem?_eq_some_iff.mp ha with ⟨hlt, hget⟩
  have hperm := (List.getElem_cons_eraseIdx_perm hlt).countP_eq p
  rw [List.countP_cons, hget] at hperm
  exact hperm

theorem Knows.unique {upload upload' : MultipartLargeFileUpload} {ws ws' : Option String}
    (h : Knows s i upload ws) (h' : Knows s i upload' ws') : upload = upload' ∧ ws = ws' := by
  rcases h with ⟨c, hc, rfl, rfl⟩
  rcases h' with ⟨d, hd, rfl, rfl⟩
  cases hc.symm.trans hd
  exact ⟨rfl, rfl⟩

/-- The version was put together as often as clients of it asked, at most once each; it has no
file before; and a client that is the only one of it is not turned away. -/
structure Lone (staging : Staging) (h : HashText) (s : State) : Prop where
  asked : s.clients.countP (Client.pending h) + s.requests.countP (Request.asks h) +
    s.completed.count h ≤ s.clients.countP (Client.uploads h)
  fresh : h ∉ s.completed → (s.store.versionDir h).data = none
  answered : s.clients.countP (Client.uploads h) ≤ 1 →
    ∀ i result upload workspaceId, .complete i result ∈ s.responses →
      Knows s i upload workspaceId → upload.hash = h → result = staging.run workspaceId

/-- One client changes what it has yet to do, and the server is not there. -/
theorem Lone.setClient {c' : Client} {requests : List Request} {responses : List Response}
    (hlone : Lone staging h s) (hs : Sound config content s) (hc : s.clients[i]? = some c)
    (hupload : c'.upload = c.upload) (hworkspace : c'.workspaceId = c.workspaceId)
    (hasked : (if c'.pending h then 1 else 0) + requests.countP (Request.asks h) ≤
      (if c.pending h then 1 else 0) + s.requests.countP (Request.asks h))
    (hresponses : ∀ answer ∈ responses, answer ∈ s.responses) :
    Lone staging h { s with clients := s.clients.set i c', requests, responses } := by
  have huploads := countP_set_add (b := c') (Client.uploads h) hc
  have hsame : Client.uploads h c' = Client.uploads h c := by
    rw [Client.uploads, Client.uploads, hupload]
  rw [hsame, Nat.add_right_cancel_iff] at huploads
  have hpending := countP_set_add (b := c') (Client.pending h) hc
  have hgrows : Grows config content s
      { s with clients := s.clients.set i c', requests, responses } :=
    grows_setClient hc hupload hworkspace rfl rfl rfl
  constructor
  · have := hlone.asked
    dsimp only
    omega
  · exact hlone.fresh
  · intro hcount j result upload workspaceId hanswer hknows hhash
    dsimp only at hcount
    rw [huploads] at hcount
    have hmem := hresponses _ hanswer
    rcases hs.responses _ hmem with ⟨upload', workspaceId', hknown, -⟩
    rcases hknows.unique (hgrows.clients _ _ _ hknown) with ⟨rfl, rfl⟩
    exact hlone.answered hcount j result _ _ hmem hknown hhash

theorem asks_serve {n : ℕ} (hr : s.requests[n]? = some r) :
    (s.requests.eraseIdx n).countP (Request.asks h) + (if r.asks h then 1 else 0) =
      s.requests.countP (Request.asks h) :=
  countP_eraseIdx_add (Request.asks h) hr

theorem Lone.serve_chunk {n retries : ℕ} {offset : UInt64} {body : Content}
    (hlone : Lone staging h s)
    (hr : s.requests[n]? = some (.chunk i k retries h' offset body)) :
    Lone staging h { s.serve staging (.chunk i k retries h' offset body) with
      requests := s.requests.eraseIdx n } := by
  have hasks := asks_serve (h := h) hr
  have hnone : (Request.chunk i k retries h' offset body).asks h = false := rfl
  rw [hnone, if_neg Bool.false_ne_true] at hasks
  have hasked := hlone.asked
  constructor
  · change s.clients.countP (Client.pending h) +
      (s.requests.eraseIdx n).countP (Request.asks h) + s.completed.count h ≤
        s.clients.countP (Client.uploads h)
    omega
  · intro hfresh
    change ((s.store.storeVersionChunk h' offset body).versionDir h).data = none
    rw [data_storeVersionChunk]
    exact hlone.fresh hfresh
  · intro hcount j result upload workspaceId hanswer hknows hhash
    rcases List.mem_append.mp hanswer with hanswer | hanswer
    · exact hlone.answered hcount j result upload workspaceId hanswer hknows hhash
    · cases List.mem_singleton.mp hanswer

/-- A request for a version that nobody asked for before is not turned away. -/
theorem Lone.serve_own {n : ℕ} {upload : MultipartLargeFileUpload} {workspaceId : Option String}
    (hlone : Lone staging h s) (hknown : Knows s i upload workspaceId)
    (hr : s.requests[n]? =
      some (.complete i h (completeBody config (content h) workspaceId)))
    (hcombines : Combines config content staging s.store h workspaceId
      (combine staging s.store h (numChunks config (content h)) workspaceId)) :
    Lone staging h
      { s.serve staging (.complete i h (completeBody config (content h) workspaceId)) with
        requests := s.requests.eraseIdx n } := by
  have hasks := asks_serve (h := h) hr
  have hone : (Request.complete i h (completeBody config (content h) workspaceId)).asks h = true :=
    decide_eq_true rfl
  rw [if_pos hone] at hasks
  have hasked := hlone.asked
  constructor
  · change s.clients.countP (Client.pending h) +
      (s.requests.eraseIdx n).countP (Request.asks h) + (h :: s.completed).count h ≤
        s.clients.countP (Client.uploads h)
    rw [List.count_cons_self]
    omega
  · intro hfresh
    exact absurd List.mem_cons_self hfresh
  · intro hcount j result upload' workspaceId' hanswer hknows hhash'
    rcases List.mem_append.mp hanswer with hanswer | hanswer
    · exact hlone.answered hcount j result upload' workspaceId' hanswer hknows hhash'
    · have hfresh : h ∉ s.completed := by
        rw [← List.count_eq_zero]
        change s.clients.countP _ ≤ 1 at hcount
        omega
      cases List.mem_singleton.mp hanswer
      rcases hknown.unique hknows with ⟨rfl, rfl⟩
      exact hcombines.accepted (hlone.fresh hfresh)

/-- A request for another version does not concern this one. -/
theorem Lone.serve_other {n : ℕ} {upload : MultipartLargeFileUpload} {workspaceId : Option String}
    (hlone : Lone staging h s) (hknown : Knows s i upload workspaceId) (hhash : upload.hash = h')
    (hh : h' ≠ h)
    (hr : s.requests[n]? =
      some (.complete i h' (completeBody config (content h') workspaceId)))
    (hcombines : Combines config content staging s.store h' workspaceId
      (combine staging s.store h' (numChunks config (content h')) workspaceId)) :
    Lone staging h
      { s.serve staging (.complete i h' (completeBody config (content h') workspaceId)) with
        requests := s.requests.eraseIdx n } := by
  have hasks := asks_serve (h := h) hr
  have hnone : (Request.complete i h' (completeBody config (content h') workspaceId)).asks h =
      false := decide_eq_false hh
  rw [hnone, if_neg Bool.false_ne_true] at hasks
  have hasked := hlone.asked
  constructor
  · change s.clients.countP (Client.pending h) +
      (s.requests.eraseIdx n).countP (Request.asks h) + (h' :: s.completed).count h ≤
        s.clients.countP (Client.uploads h)
    rw [List.count_cons_of_ne hh]
    omega
  · intro hfresh
    have hold : h ∉ s.completed := fun hmem => hfresh (List.mem_cons_of_mem _ hmem)
    change ((combine staging s.store h'
      (numChunks config (content h')) workspaceId).2.versionDir h).data = none
    rw [hcombines.other h (Ne.symm hh)]
    exact hlone.fresh hold
  · intro hcount j result upload' workspaceId' hanswer hknows hhash'
    rcases List.mem_append.mp hanswer with hanswer | hanswer
    · exact hlone.answered hcount j result upload' workspaceId' hanswer hknows hhash'
    · cases List.mem_singleton.mp hanswer
      rcases hknown.unique hknows with ⟨rfl, rfl⟩
      exact absurd (hhash.symm.trans hhash') hh

theorem lone_serve {n : ℕ} (hlone : Lone staging h s) (hs : Sound config content s)
    (hr : s.requests[n]? = some r) :
    Lone staging h { s.serve staging r with requests := s.requests.eraseIdx n } := by
  have hsound := hs.requests r (List.mem_of_getElem? hr)
  cases r with
  | chunk i k retries versionId offset body => exact hlone.serve_chunk hr
  | complete i versionId body =>
      rcases hsound with ⟨upload, workspaceId, hknown, hhash, rfl, hhas⟩
      have hcombines := @Sound.combines config staging content versionId s i upload workspaceId hs
        hknown hhash hhas
      by_cases hh : versionId = h
      · subst hh
        exact hlone.serve_own hknown hr hcombines
      · exact hlone.serve_other hknown hhash hh hr hcombines

theorem lone_step (h' : Step config staging action s s') (hs : Sound config content s)
    (hlone : Lone staging h s) : Lone staging h s' := by
  cases does_of_step h' with
  | begins upload workspaceId =>
      have hgrows : Grows config content s
          { s with clients := s.clients ++ [newClient config upload workspaceId] } :=
        grows_begins upload workspaceId
      have hnew : Client.pending h (newClient config upload workspaceId) =
          Client.uploads h (newClient config upload workspaceId) := by
        by_cases hhash : upload.hash = h <;>
          simp [Client.pending, Client.uploads, newClient, hhash]
      have hasked := hlone.asked
      constructor
      · dsimp only
        rw [List.countP_append, List.countP_append, List.countP_singleton, List.countP_singleton,
          hnew]
        omega
      · exact hlone.fresh
      · intro hcount j result upload' workspaceId' hanswer hknows hhash
        rcases hs.responses _ hanswer with ⟨upload'', workspaceId'', hknown, -⟩
        rcases hknows.unique (hgrows.clients _ _ _ hknown) with ⟨rfl, rfl⟩
        dsimp only at hcount
        rw [List.countP_append] at hcount
        exact hlone.answered (by omega) j result _ _ hanswer hknown hhash
  | @send i k c retries hc hk =>
      refine hlone.setClient hs hc (by rfl) (by rfl) ?_ fun _ ha => ha
      rw [List.countP_append, List.countP_singleton]
      exact le_rfl
  | serve hr => exact lone_serve hlone hs hr
  | @lose i r hr =>
      have hasks := asks_serve (h := h) hr
      have hasked := hlone.asked
      refine ⟨?_, hlone.fresh, hlone.answered⟩
      dsimp only
      omega
  | @hear i answer c hanswer hc =>
      refine hlone.setClient hs hc hear_upload hear_workspaceId ?_
        fun _ ha => List.mem_of_mem_eraseIdx ha
      apply Nat.add_le_add_right
      have hpending : (c.hear answer).pending h = true → c.pending h = true := by
        rw [Client.pending, Client.pending, hear_upload]
        simp only [decide_eq_true_eq]
        rintro ⟨hhash, hprogress⟩
        refine ⟨hhash, ?_⟩
        cases answer with
        | chunk j k retries =>
            rw [Client.hear] at hprogress
            split at hprogress <;> exact hprogress
        | complete j result =>
            rw [Client.hear] at hprogress
            split at hprogress
            · cases hprogress
            · exact hprogress
      split
      · next hafter => rw [if_pos (hpending hafter)]
      · exact Nat.zero_le _
  | giveUp hc => exact hlone.setClient hs hc (by rfl) (by rfl) le_rfl fun _ ha => ha
  | @finish i c hc huploading hall =>
      refine hlone.setClient hs hc (by rfl) (by rfl) ?_ fun _ ha => ha
      rw [List.countP_append, List.countP_singleton]
      by_cases hhash : c.upload.hash = h <;>
        simp [Client.pending, Request.asks, huploading, hhash, Nat.add_comm]
  | abort hc =>
      refine hlone.setClient hs hc (by rfl) (by rfl) ?_ fun _ ha => ha
      simp [Client.pending]

theorem lone_run (h' : Run (Step config staging) actions s s')
    (hactions : ∀ a ∈ actions, a.Addressed content) (hs : Sound config content s)
    (hlone : Lone staging h s) : Lone staging h s' := by
  induction h' with
  | nil s => exact hlone
  | cons hstep _ ih =>
      have hfirst := hactions _ List.mem_cons_self
      exact ih (fun a ha => hactions a (List.mem_cons_of_mem _ ha)) (sound_step hstep hfirst hs)
        (lone_step hstep hs hlone)

namespace LargeExample

def video : Bytes := ⟨[4, 5, 6], by decide⟩

def upload : MultipartLargeFileUpload where
  hash := ChunksExample.hash
  file := video
  nonempty := by decide

def small : Config where
  chunkSize := 2
  chunkSize_pos := by decide
  parallelFailures := 1
  maxRetries := 1
  maxFiles := 2

def noWorkspaces : Staging := fun _ => .error (.notFound "Workspace not found")

def uploading : List Action :=
  [.begins upload none, .send 0 1, .lose 0, .giveUp 0 1, .send 0 0, .send 0 1, .serve 1, .serve 0,
    .hear 0, .hear 0, .finish 0, .serve 0]

def served : State :=
  (follow (fun action s => s.step small noWorkspaces action) uploading { store := ∅ }).getD
    { store := ∅ }

def heard : State :=
  (follow (fun action s => s.step small noWorkspaces action) [.hear 0] served).getD served

def uploader : Client where
  upload := upload
  workspaceId := none
  tasks := [.uploaded, .uploaded]
  progress := .completing

theorem uploading_run : Run (Step small noWorkspaces) uploading { store := ∅ } served :=
  run_of_follow rfl

theorem heard_run : Run (Step small noWorkspaces) [.hear 0] served heard := run_of_follow rfl

theorem addressed : ∀ a ∈ uploading, a.Addressed fun _ => video := by
  simp [uploading, Action.Addressed, upload]

theorem addressed_hear : ∀ a ∈ [Action.hear 0], a.Addressed fun _ => video := by
  simp [Action.Addressed]

theorem storeSound_empty : StoreSound small (fun _ => video) ∅ where
  written := chunksWritten_empty
  chunks _ _ _ h := by cases h
  files _ := .inl rfl

end LargeExample

end LargeUpload

end Oxen
