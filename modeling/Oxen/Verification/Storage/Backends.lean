import Mathlib.Data.List.Dedup
import Oxen.Verification.Storage.Chunks
import Oxen.Verification.Storage.Multipart

/-! Runs of calls on both stores: when they answer alike and hold the same. -/

set_option linter.unusedSectionVars false

namespace Oxen

open S3 S3VersionStore

namespace Backends

variable {store : S3VersionStore} {s s' : VersionDirs} {bucket : Bucket} {h h' : HashText}
  {o : ℕ} {data : Content}

/-- How many bytes the chunks of a version have together. -/
def chunksSize (s : VersionDirs) (h : HashText) : ℕ :=
  ((s.chunkFiles h).keys.map fun o => ((chunkAt s h o).getD []).length).sum

/-! ## What a run should give -/

/-- The same versions and the same chunks. -/
structure SameVersions (store : S3VersionStore) (s : VersionDirs) (bucket : Bucket) : Prop where
  data : ∀ h, (s.versionDir h).data = bucket.lookup (store.generateKey h)
  chunk : ∀ h o, chunkAt s h o = bucket.lookup (store.chunkKey h o)

def next (store : S3VersionStore) (t : VersionDirs × Bucket) (call : VersionCall) :
    VersionDirs × Bucket :=
  ((call.runLocal t.1).2, (call.runS3 store t.2).2)

/-- Both fail, or both succeed with the same result, and they hold the same afterwards. -/
def Agrees (store : S3VersionStore) (t : VersionDirs × Bucket) (call : VersionCall) : Prop :=
  (call.runLocal t.1).1 = (call.runS3 store t.2).1 ∧
    SameVersions store (next store t call).1 (next store t call).2

def Throughout (store : S3VersionStore) : VersionDirs × Bucket → List VersionCall → Prop
  | _, [] => True
  | t, call :: calls => Agrees store t call ∧ Throughout store (next store t call) calls

/-- When a range of a version is read alike: an empty range has to start inside the version, and
any other that starts inside has to end there, or at the end of what an offset can say. -/
def RangeMeets (file : Option Content) (offset size : ℕ) : Prop :=
  if size = 0 then ∃ data, file = some data ∧ offset < data.length
  else ∀ data, file = some data → offset < data.length →
    offset + size ≤ data.length ∨ offset + size = UInt64.size

def Meets (s : VersionDirs) : VersionCall → Prop
  | .storeVersion h data => ∀ old, (s.versionDir h).data = some old → old = data.data
  | .storeVersionChunk h offset data => ∀ old, chunkAt s h offset.toNat = some old → old = data.data
  | .listVersionChunks h => ∃ o, (chunkAt s h o).isSome
  | .combineVersionChunks h => 0 < chunksSize s h ∧ chunksSize s h ≤ maxUpload
  | .getVersion _ => True
  | .getVersionSize _ => True
  | .getVersionChunk h offset size =>
      RangeMeets (s.versionDir h).data offset.toNat size.toNat
  | .versionExists _ => True
  | .listVersions => True
  | .deleteVersion _ => True

def AllMeet (store : S3VersionStore) : VersionDirs × Bucket → List VersionCall → Prop
  | _, [] => True
  | t, call :: calls => Meets t.1 call ∧ AllMeet store (next store t call) calls

/-! ## What both keep -/

/-- What a version directory looks like between calls. -/
structure DirOk (dir : VersionDir) : Prop where
  nonempty : dir.data ≠ none ∨ dir.chunks ≠ none
  length_lt : ∀ data, dir.data = some data → data.length < 2 ^ 63
  keys_ne_nil : ∀ chunks, dir.chunks = some chunks → chunks.keys ≠ []
  chunk : ∀ chunks, dir.chunks = some chunks → ∀ o file, chunks.lookup o = some file →
    o < UInt64.size ∧ file ≠ none

structure Inv (store : S3VersionStore) (s : VersionDirs) (bucket : Bucket) : Prop where
  dir : ∀ h dir, s.lookup h = some dir → DirOk dir
  key : ∀ key ∈ bucket, store.versionsPrefix <+: key →
    ∃ h, key = store.generateKey h ∨ ∃ o, key = store.chunkKey h o

/-- What the bucket has for other versions. -/
structure SameElsewhere (store : S3VersionStore) (bucket bucket' : Bucket) (h : HashText) :
    Prop where
  data : ∀ h', h' ≠ h → bucket'.lookup (store.generateKey h') = bucket.lookup (store.generateKey h')
  chunk : ∀ h' o, h' ≠ h →
    bucket'.lookup (store.chunkKey h' o) = bucket.lookup (store.chunkKey h' o)

theorem SameElsewhere.insert_data :
    SameElsewhere store bucket (bucket.insert (store.generateKey h) data) h where
  data h' hne := AList.lookup_insert_ne (by simpa using hne)
  chunk h' o _ := AList.lookup_insert_ne (by simp)

theorem SameElsewhere.insert_chunk :
    SameElsewhere store bucket (bucket.insert (store.chunkKey h o) data) h where
  data h' _ := AList.lookup_insert_ne (by simp)
  chunk h' o hne := AList.lookup_insert_ne (by simp [hne])

/-- After a call that replaces one version's directory, the stores are the same if they are for
that version. -/
theorem sameVersions_insert_iff {dir : VersionDir} {bucket' : Bucket}
    (hsame : SameVersions store s bucket) (hframe : SameElsewhere store bucket bucket' h) :
    SameVersions store (s.insert h dir) bucket' ↔
      dir.data = bucket'.lookup (store.generateKey h) ∧
        ∀ o, chunkOf dir o = bucket'.lookup (store.chunkKey h o) := by
  constructor
  · intro hafter
    have hdata := hafter.data h
    have hchunk := hafter.chunk h
    simp only [chunkAt, versionDir_insert, if_true] at hdata hchunk
    exact ⟨hdata, hchunk⟩
  · rintro ⟨hdata, hchunk⟩
    constructor
    · intro h'
      rw [versionDir_insert]
      split_ifs with heq
      · rw [heq, hdata]
      · rw [hframe.data h' heq, hsame.data]
    · intro h' o
      rw [chunkAt, versionDir_insert]
      split_ifs with heq
      · rw [heq, hchunk]
      · rw [hframe.chunk h' o heq, ← hsame.chunk, chunkAt]

theorem Inv.dirOk (hinv : Inv store s bucket) :
    DirOk (s.versionDir h) ∨ s.lookup h = none := by
  cases hlookup : s.lookup h with
  | none => exact .inr rfl
  | some dir =>
      left
      rw [VersionDirs.versionDir, hlookup]
      exact hinv.dir h dir hlookup

theorem Inv.chunksWritten (hinv : Inv store s bucket) : ChunksWritten s := by
  intro h chunks hchunks
  rcases hinv.dirOk (h := h) with hdir | hnone
  · exact ⟨hdir.keys_ne_nil chunks hchunks, fun o file hfile => (hdir.chunk chunks hchunks o file hfile).2⟩
  · simp [VersionDirs.versionDir, hnone] at hchunks

theorem Inv.insert {dir : VersionDir} {bucket' : Bucket} (hinv : Inv store s bucket)
    (hdir : DirOk dir)
    (hkeys : ∀ key ∈ bucket', key ∈ bucket ∨ key = store.generateKey h ∨
      ∃ o, key = store.chunkKey h o) :
    Inv store (s.insert h dir) bucket' where
  dir h' dir' hlookup := by
    rcases KeyedMap.lookup_insert_eq_some.mp hlookup with ⟨-, rfl⟩ | ⟨-, hold⟩
    · exact hdir
    · exact hinv.dir h' dir' hold
  key key hkey hprefix := by
    rcases hkeys key hkey with hold | hnew | hnew
    · exact hinv.key key hold hprefix
    · exact ⟨h, .inl hnew⟩
    · exact ⟨h, .inr hnew⟩

/-! ## Steps -/

/-- A step agrees exactly when the call meets its condition, and then the invariant is kept. -/
structure StepSpec (store : S3VersionStore) (t : VersionDirs × Bucket) (call : VersionCall) :
    Prop where
  agrees_iff : Agrees store t call ↔ Meets t.1 call
  keeps : Meets t.1 call → Inv store (next store t call).1 (next store t call).2

section Reads

variable (hinv : Inv store s bucket) (hsame : SameVersions store s bucket)

include hinv hsame

theorem step_getVersion : StepSpec store (s, bucket) (.getVersion h) where
  agrees_iff := by
    refine iff_of_true ⟨congrArg (Option.map Answer.bytes) ?_, hsame⟩ trivial
    rw [VersionDirs.getVersion, S3VersionStore.getVersion, getObject, ← hsame.data]
    cases (s.versionDir h).data <;> rfl
  keeps _ := hinv

theorem step_getVersionSize : StepSpec store (s, bucket) (.getVersionSize h) where
  agrees_iff := by
    refine iff_of_true ⟨congrArg (Option.map Answer.size) ?_, hsame⟩ trivial
    rw [VersionDirs.getVersionSize, VersionDirs.getVersion, S3VersionStore.getVersionSize,
      getObject, ← hsame.data]
    cases (s.versionDir h).data <;> rfl
  keeps _ := hinv

theorem step_versionExists : StepSpec store (s, bucket) (.versionExists h) where
  agrees_iff := by
    refine iff_of_true ⟨congrArg (fun found => some (Answer.isPresent found)) ?_, hsame⟩ trivial
    rw [VersionDirs.versionExists, S3VersionStore.versionExists, hsame.data]
  keeps _ := hinv

theorem versionDir_length_lt (hdata : (s.versionDir h).data = some data) :
    data.length < 2 ^ 63 := by
  rcases hinv.dirOk (h := h) with hdir | hnone
  · exact hdir.length_lt data hdata
  · simp [VersionDirs.versionDir, hnone] at hdata

theorem s3_getVersionChunk {offset size : UInt64} (hsize : size ≠ 0) :
    (store.getVersionChunk bucket h offset size).toOption =
      if UInt64.size < offset.toNat + size.toNat then none
      else (s.versionDir h).data.bind fun data =>
        if data.length ≤ offset.toNat then none
        else some ((data.drop offset.toNat).take size.toNat) := by
  have hpos : 0 < size.toNat := by
    rw [Nat.pos_iff_ne_zero]
    exact fun hzero => hsize (UInt64.toNat_inj.mp hzero)
  have hlast : offset.toNat + (size.toNat - 1) + 1 - offset.toNat = size.toNat := by omega
  rw [S3VersionStore.getVersionChunk, if_neg hsize]
  by_cases hover : UInt64.size < offset.toNat + size.toNat
  · rw [if_pos (by omega), if_pos hover]
    rfl
  · rw [if_neg (by omega), if_neg hover, getObjectRange, getObject, ← hsame.data, hlast]
    cases (s.versionDir h).data with
    | none => rfl
    | some data =>
        simp only [Runs.ok_bind, Option.bind_some]
        split_ifs <;> rfl

theorem getVersionChunk_iff (offset size : UInt64) :
    (s.getVersionChunk h offset size).toOption =
        (store.getVersionChunk bucket h offset size).toOption ↔
      RangeMeets (s.versionDir h).data offset.toNat size.toNat := by
  have hoffset := offset.toNat_lt
  have hsizeLt := size.toNat_lt
  by_cases hsize : size = 0
  · subst hsize
    rw [S3VersionStore.getVersionChunk, if_pos rfl, RangeMeets, if_pos UInt64.toNat_zero]
    cases hfile : (s.versionDir h).data with
    | none =>
        rw [getVersionChunk_of_none hfile]
        simp [Except.toOption]
    | some data =>
        rw [getVersionChunk_of_some hfile]
        by_cases hlt : offset.toNat < data.length
        · rw [if_neg (by simp; omega)]
          simp [hlt, Except.toOption]
        · rw [if_pos (.inl (not_lt.mp hlt))]
          simp [hlt, Except.toOption]
  · have hsize0 : size.toNat ≠ 0 := fun hzero => hsize (UInt64.toNat_inj.mp hzero)
    rw [s3_getVersionChunk hinv hsame hsize, RangeMeets, if_neg hsize0]
    cases hfile : (s.versionDir h).data with
    | none =>
        rw [getVersionChunk_of_none hfile]
        simp
    | some data =>
        have hlen := versionDir_length_lt hinv hsame hfile
        rw [getVersionChunk_of_some hfile, UInt64.toNat_add, Option.bind_some]
        simp only [Option.some.injEq, forall_eq']
        by_cases hbeyond : data.length ≤ offset.toNat
        · rw [if_pos (.inl hbeyond), if_pos hbeyond, ite_self]
          simp [not_lt.mpr hbeyond]
        · rw [if_neg hbeyond]
          -- The end of the range is an offset, or wraps to 0, or to one before the start.
          rcases lt_trichotomy (offset.toNat + size.toNat) UInt64.size with hlt | heq | hgt
          · have hmod : (offset.toNat + size.toNat) % 2 ^ 64 = offset.toNat + size.toNat :=
              Nat.mod_eq_of_lt hlt
            rw [hmod, if_neg (not_lt.mpr hlt.le)]
            by_cases hend : offset.toNat + size.toNat ≤ data.length
            · simp [hend, hbeyond]
            · simp [hend, hlt.ne, not_le.mp hend, not_le.mp hbeyond]
          · have hmod : (offset.toNat + size.toNat) % 2 ^ 64 = 0 := by
              rw [heq]
              rfl
            rw [hmod, if_neg (not_lt.mpr heq.le)]
            simp [heq, hbeyond]
          · have hmod : (offset.toNat + size.toNat) % 2 ^ 64 =
                offset.toNat + size.toNat - UInt64.size := by
              simp only [UInt64.size] at hgt ⊢
              omega
            simp only [UInt64.size] at hgt hmod ⊢
            rw [hmod, if_neg (by omega), if_pos hgt]
            simp only [reduceCtorEq, false_iff]
            omega

theorem step_getVersionChunk (offset size : UInt64) :
    StepSpec store (s, bucket) (.getVersionChunk h offset size) where
  agrees_iff := by
    rw [Meets, ← getVersionChunk_iff hinv hsame offset size]
    have hmap : Function.Injective (Option.map Answer.bytes) := by
      apply Option.map_injective
      intro x y hxy
      cases hxy
      rfl
    constructor
    · intro hagrees
      exact hmap hagrees.1
    · intro heq
      exact ⟨congrArg (Option.map Answer.bytes) heq, hsame⟩
  keeps _ := hinv

theorem lt_of_chunkAt (ho : (chunkAt s h o).isSome) : o < UInt64.size := by
  unfold chunkAt chunkOf at ho
  rcases hinv.dirOk (h := h) with hdir | hnone
  · cases hchunks : (s.versionDir h).chunks with
    | none => simp [hchunks] at ho
    | some chunks =>
        cases hfile : chunks.lookup o with
        | none => simp [hchunks, hfile] at ho
        | some file => exact (hdir.chunk chunks hchunks o file hfile).1
  · simp [VersionDirs.versionDir, hnone] at ho

/-- The keys of a version's chunks, as the listing finds them. -/
theorem perm_chunkKeys :
    (listObjectsWithPrefix bucket (store.chunksPrefix h)).Perm
      ((s.chunkFiles h).keys.map (store.chunkKey h)) := by
  rw [List.perm_ext_iff_of_nodup nodup_listObjectsWithPrefix]
  · intro key
    rw [mem_listObjectsWithPrefix, List.mem_map]
    constructor
    · rintro ⟨hkey, hprefix⟩
      have hbase : store.versionsPrefix <+: key := by
        refine List.IsPrefix.trans ?_ hprefix
        exact ⟨h.digits ++ "/chunks/".toList, by simp [chunksPrefix, S3VersionStore.versionDir]⟩
      obtain ⟨h', rfl | ⟨o, rfl⟩⟩ := hinv.key key hkey hbase
      · exact absurd hprefix chunksPrefix_generateKey
      · obtain rfl := chunksPrefix_chunkKey.mp hprefix
        refine ⟨o, (mem_chunkFiles hinv.chunksWritten).mpr ?_, rfl⟩
        rw [hsame.chunk]
        exact AList.lookup_isSome.mpr hkey
    · rintro ⟨o, ho, rfl⟩
      rw [mem_chunkFiles hinv.chunksWritten, hsame.chunk, AList.lookup_isSome] at ho
      exact ⟨ho, chunksPrefix_chunkKey.mpr rfl⟩
  · refine List.Nodup.map ?_ (s.chunkFiles h).nodupKeys
    intro o o' heq
    exact (chunkKey_inj.mp heq).2

theorem s3_listVersionChunks :
    store.listVersionChunks bucket h = (s.chunkFiles h).keys.insertionSort (· ≤ ·) := by
  rw [S3VersionStore.listVersionChunks]
  apply insertionSort_eq_of_perm
  refine ((perm_chunkKeys hinv hsame).filterMap _).trans (List.Perm.of_eq ?_)
  rw [List.filterMap_map]
  have hparse : ∀ o ∈ (s.chunkFiles h).keys,
      ((fun key => (stripPrefix (store.chunksPrefix h) key).bind parseU64) ∘ store.chunkKey h) o =
        some o := by
    intro o ho
    exact parse_chunkKey (lt_of_chunkAt hinv hsame ((mem_chunkFiles hinv.chunksWritten).mp ho))
  rw [List.filterMap_congr hparse, List.filterMap_some]

theorem exists_chunk_iff :
    (∃ o, (chunkAt s h o).isSome) ↔ ∃ chunks, (s.versionDir h).chunks = some chunks := by
  constructor
  · rintro ⟨o, ho⟩
    cases hchunks : (s.versionDir h).chunks with
    | none => simp [chunkAt, chunkOf, hchunks] at ho
    | some chunks => exact ⟨chunks, rfl⟩
  · rintro ⟨chunks, hchunks⟩
    rcases hinv.dirOk (h := h) with hdir | hnone
    · obtain ⟨o, ho⟩ := List.exists_mem_of_ne_nil _ (hdir.keys_ne_nil chunks hchunks)
      refine ⟨o, (mem_chunkFiles hinv.chunksWritten).mp ?_⟩
      rwa [VersionDirs.chunkFiles, hchunks]
    · simp [VersionDirs.versionDir, hnone] at hchunks

theorem step_listVersionChunks : StepSpec store (s, bucket) (.listVersionChunks h) where
  agrees_iff := by
    rw [Meets, exists_chunk_iff hinv hsame]
    have hs3 := s3_listVersionChunks hinv hsame (h := h)
    unfold Agrees
    simp only [VersionCall.runLocal, VersionCall.runS3, next, hsame, and_true, hs3,
      VersionDirs.listVersionChunks, VersionDirs.chunkFiles]
    cases (s.versionDir h).chunks <;> simp [Except.toOption]
  keeps _ := hinv

/-- A version is found in the bucket exactly when it has a directory. -/
theorem mem_rollUps {entry : Key} :
    entry ∈ (bucket.keys.filter store.versionsPrefix.isPrefixOf).map (rollUp store.versionsPrefix) ↔
      ∃ h ∈ s.keys, store.versionDir h ++ ['/'] = entry := by
  rw [List.mem_map]
  constructor
  · rintro ⟨key, hkey, rfl⟩
    rw [List.mem_filter, List.isPrefixOf_iff_prefix, ← AList.mem_keys] at hkey
    obtain ⟨h, hform⟩ := hinv.key key hkey.1 hkey.2
    refine ⟨h, ?_, (rollUp_key hform).symm⟩
    by_contra hnot
    have hdir : s.versionDir h = {} := by
      rw [VersionDirs.versionDir, AList.lookup_eq_none.mpr hnot, Option.getD_none]
    have hsome := AList.lookup_isSome.mpr hkey.1
    rcases hform with rfl | ⟨o, rfl⟩
    · rw [← hsame.data, hdir] at hsome
      cases hsome
    · rw [← hsame.chunk, chunkAt, hdir] at hsome
      cases hsome
  · rintro ⟨h, hmem, rfl⟩
    obtain ⟨dir, hdir⟩ := Option.isSome_iff_exists.mp (AList.lookup_isSome.mpr hmem)
    have hversion : s.versionDir h = dir := by rw [VersionDirs.versionDir, hdir, Option.getD_some]
    obtain ⟨key, hkey, hform⟩ : ∃ key ∈ bucket,
        key = store.generateKey h ∨ ∃ o, key = store.chunkKey h o := by
      rcases (hinv.dir h dir hdir).nonempty with hdata | hchunks
      · refine ⟨_, AList.lookup_isSome.mp ?_, .inl rfl⟩
        rwa [← hsame.data, hversion, Option.isSome_iff_ne_none]
      · obtain ⟨chunks, hchunks⟩ := Option.ne_none_iff_exists'.mp hchunks
        obtain ⟨o, ho⟩ := (exists_chunk_iff hinv hsame (h := h)).mpr
          ⟨chunks, by rw [hversion, hchunks]⟩
        refine ⟨_, AList.lookup_isSome.mp ?_, .inr ⟨o, rfl⟩⟩
        rwa [← hsame.chunk]
    refine ⟨key, ?_, rollUp_key hform⟩
    rw [List.mem_filter, List.isPrefixOf_iff_prefix, ← AList.mem_keys]
    refine ⟨hkey, ?_⟩
    rcases hform with rfl | ⟨o, rfl⟩
    · exact ⟨h.digits ++ "/data".toList, by simp [generateKey, S3VersionStore.versionDir]⟩
    · exact ⟨h.digits ++ "/chunks/".toList ++ Nat.toDigits 10 o,
        by simp [chunkKey, chunksPrefix, S3VersionStore.versionDir]⟩

/-- The common prefixes of the versions are those of the sorted hashes. -/
theorem delimitedEntries_eq :
    delimitedEntries bucket store.versionsPrefix =
      (s.keys.insertionSort fun h h' => h.digits ≤ h'.digits).map
        fun h => store.versionDir h ++ ['/'] := by
  apply List.Perm.eq_of_pairwise' (r := (· ≤ ·))
  · exact List.pairwise_insertionSort _ _
  · rw [List.pairwise_map]
    have : Std.Total fun h h' : HashText => h.digits ≤ h'.digits :=
      ⟨fun h h' => le_total h.digits h'.digits⟩
    have : IsTrans HashText fun h h' => h.digits ≤ h'.digits := ⟨fun _ _ _ => le_trans⟩
    exact (List.pairwise_insertionSort (fun h h' : HashText => h.digits ≤ h'.digits) s.keys).imp
      versionDir_slash_le
  · refine (List.perm_insertionSort _ _).trans ?_
    refine List.Perm.trans ?_ ((List.perm_insertionSort _ s.keys).map _).symm
    rw [List.perm_ext_iff_of_nodup (List.nodup_dedup _)]
    · intro entry
      rw [List.mem_dedup, mem_rollUps hinv hsame, List.mem_map]
    · refine List.Nodup.map ?_ s.nodupKeys
      intro h h' heq
      apply HashText.ext
      simpa [S3VersionStore.versionDir] using heq

theorem s3_listVersions : store.listVersions bucket = s.listVersions := by
  have hentries := delimitedEntries_eq hinv hsame
  have hcollect : Listing.collect maxKeys (delimitedEntries bucket store.versionsPrefix) none =
      delimitedEntries bucket store.versionsPrefix :=
    Listing.collect_eq (by decide) (pairwise_lt_insertionSort (List.nodup_dedup _))
  have hfilter : ∀ entry ∈ (s.keys.insertionSort fun h h' => h.digits ≤ h'.digits).map
      (fun h => store.versionDir h ++ ['/']),
      isCommonPrefix store.versionsPrefix entry = true := by
    intro entry hentry
    obtain ⟨h, -, rfl⟩ := List.mem_map.mp hentry
    exact isCommonPrefix_versionDir
  rw [S3VersionStore.listVersions]
  simp only [hcollect]
  rw [hentries, List.filter_eq_self.mpr hfilter, List.filterMap_map]
  have hstrip : ((fun entry => (stripPrefix store.versionsPrefix entry).bind stripSlash) ∘
      fun h => store.versionDir h ++ ['/']) = fun h : HashText => some h.digits := by
    funext h
    exact strip_versionDir
  rw [hstrip, VersionDirs.listVersions, List.filterMap_eq_map']
  exact List.map_insertionSort _ _ _ _ fun _ _ _ _ => Iff.rfl

theorem step_listVersions : StepSpec store (s, bucket) .listVersions where
  agrees_iff := by
    refine iff_of_true ⟨?_, hsame⟩ trivial
    simp only [VersionCall.runLocal, VersionCall.runS3, s3_listVersions hinv hsame]
  keeps _ := hinv

end Reads

section Writes

variable (hinv : Inv store s bucket) (hsame : SameVersions store s bucket)

include hinv hsame

/-- What is known of a version's directory whether or not it exists. -/
theorem versionDir_chunks {chunks : KeyedMap.Map ℕ (Option Content)}
    (hchunks : (s.versionDir h).chunks = some chunks) :
    chunks.keys ≠ [] ∧ ∀ o file, chunks.lookup o = some file → o < UInt64.size ∧ file ≠ none := by
  rcases hinv.dirOk (h := h) with hdir | hnone
  · exact ⟨hdir.keys_ne_nil chunks hchunks, hdir.chunk chunks hchunks⟩
  · simp [VersionDirs.versionDir, hnone] at hchunks

theorem step_storeVersion (data : Bytes) :
    StepSpec store (s, bucket) (.storeVersion h data) where
  agrees_iff := by
    unfold Agrees
    simp only [VersionCall.runLocal, VersionCall.runS3, next, true_and, Meets,
      VersionDirs.storeVersion, S3VersionStore.storeVersion]
    rw [sameVersions_insert_iff hsame .insert_data, AList.lookup_insert]
    have hchunk : ∀ file o, chunkOf { s.versionDir h with data := file } o =
        (AList.insert (store.generateKey h) data.data bucket).lookup (store.chunkKey h o) := by
      intro file o
      rw [AList.lookup_insert_ne (by simp), ← hsame.chunk]
      rfl
    simp only [hchunk, implies_true, and_true]
    cases (s.versionDir h).data <;> simp [LocalVersionStore.writeNew]
  keeps hmeets := by
    refine hinv.insert ?_ ?_
    · constructor
      · left
        cases (s.versionDir h).data <;> simp [LocalVersionStore.writeNew]
      · intro stored hstored
        cases hold : (s.versionDir h).data with
        | none =>
            rw [hold] at hstored
            obtain rfl : data.data = stored := Option.some.inj hstored
            exact data.length_lt
        | some old =>
            rw [hold] at hstored
            obtain rfl : old = stored := Option.some.inj hstored
            exact versionDir_length_lt hinv hsame hold
      · exact fun chunks hchunks => (versionDir_chunks hinv hsame hchunks).1
      · exact fun chunks hchunks => (versionDir_chunks hinv hsame hchunks).2
    · intro key hkey
      rcases (AList.mem_insert _).mp hkey with rfl | hold
      · exact .inr (.inl rfl)
      · exact .inl hold

theorem step_storeVersionChunk (offset : UInt64) (data : Bytes) :
    StepSpec store (s, bucket) (.storeVersionChunk h offset data) where
  agrees_iff := by
    unfold Agrees
    simp only [VersionCall.runLocal, VersionCall.runS3, next, true_and, Meets,
      VersionDirs.storeVersionChunk, S3VersionStore.storeVersionChunk]
    rw [sameVersions_insert_iff hsame .insert_chunk, AList.lookup_insert_ne (by simp),
      hsame.data, eq_self_iff_true, true_and]
    have hother : ∀ o, o ≠ offset.toNat → ∀ file,
        chunkOf { s.versionDir h with chunks := some ((s.chunkFiles h).insert offset.toNat file) } o =
          (AList.insert (store.chunkKey h offset.toNat) data.data bucket).lookup
            (store.chunkKey h o) := by
      intro o hne file
      rw [AList.lookup_insert_ne (by simpa using hne), ← hsame.chunk, chunkAt, chunkOf, chunkOf,
        Option.getD_some, AList.lookup_insert_ne hne]
      rfl
    constructor
    · intro hafter old hold
      have hnew := hafter offset.toNat
      rw [AList.lookup_insert, chunkOf, Option.getD_some, AList.lookup_insert] at hnew
      change ((s.chunkFiles h).lookup offset.toNat).join = some old at hold
      rw [hold] at hnew
      exact Option.some.inj hnew
    · intro hmeets o
      by_cases hne : o = offset.toNat
      · subst hne
        rw [AList.lookup_insert, chunkOf, Option.getD_some, AList.lookup_insert]
        cases hold : ((s.chunkFiles h).lookup offset.toNat).join with
        | none => rfl
        | some old =>
            rw [← hmeets old hold]
            rfl
      · exact hother o hne _
  keeps hmeets := by
    refine hinv.insert ?_ ?_
    · constructor
      · right
        simp
      · exact fun stored hstored => versionDir_length_lt hinv hsame hstored
      · rintro chunks ⟨⟩ hnil
        rw [AList.keys_insert] at hnil
        cases hnil
      · rintro chunks ⟨⟩ o file hfile
        rcases KeyedMap.lookup_insert_eq_some.mp hfile with ⟨rfl, rfl⟩ | ⟨-, hold⟩
        · refine ⟨offset.toNat_lt, ?_⟩
          cases ((s.chunkFiles h).lookup offset.toNat).join <;> simp [LocalVersionStore.writeNew]
        · cases hchunks : (s.versionDir h).chunks with
          | none => simp [VersionDirs.chunkFiles, hchunks] at hold
          | some chunks =>
              rw [VersionDirs.chunkFiles, hchunks] at hold
              exact (versionDir_chunks hinv hsame hchunks).2 o file hold
    · intro key hkey
      rcases (AList.mem_insert _).mp hkey with rfl | hold
      · exact .inr (.inr ⟨_, rfl⟩)
      · exact .inl hold

theorem step_deleteVersion : StepSpec store (s, bucket) (.deleteVersion h) where
  agrees_iff := by
    refine iff_of_true ⟨rfl, ?_, ?_⟩ trivial
    · intro h'
      simp only [next, VersionCall.runLocal, VersionCall.runS3, VersionDirs.deleteVersion,
        S3VersionStore.deleteVersion]
      rw [versionDir_erase, lookup_deletePrefix, ← hsame.data]
      by_cases heq : h' = h
      · subst heq
        simp
      · simp [heq, Ne.symm heq]
    · intro h' o
      simp only [next, VersionCall.runLocal, VersionCall.runS3, VersionDirs.deleteVersion,
        S3VersionStore.deleteVersion]
      rw [chunkAt, versionDir_erase, lookup_deletePrefix, ← hsame.chunk]
      by_cases heq : h' = h
      · subst heq
        simp [chunkOf]
      · simp [heq, Ne.symm heq, chunkAt]
  keeps _ := by
    constructor
    · intro h' dir hlookup
      exact hinv.dir h' dir (KeyedMap.lookup_erase_eq_some.mp hlookup).2
    · intro key hkey hprefix
      refine hinv.key key ?_ hprefix
      have hsome := AList.lookup_isSome.mpr hkey
      simp only [next, VersionCall.runS3, S3VersionStore.deleteVersion] at hsome
      rw [lookup_deletePrefix] at hsome
      split_ifs at hsome
      · cases hsome
      · exact AList.lookup_isSome.mp hsome

theorem length_chunks {chunks : KeyedMap.Map ℕ (Option Content)}
    (hchunks : (s.versionDir h).chunks = some chunks) :
    ((chunks.keys.insertionSort (· ≤ ·)).map fun o => (chunkAt s h o).getD []).flatten.length =
      chunksSize s h := by
  rw [List.length_flatten, List.map_map, chunksSize, VersionDirs.chunkFiles, hchunks]
  exact ((List.perm_insertionSort _ _).map _).sum_nat

theorem step_combine_of_none (hchunks : (s.versionDir h).chunks = none) :
    StepSpec store (s, bucket) (.combineVersionChunks h) := by
  have hfiles : s.chunkFiles h = ∅ := by rw [VersionDirs.chunkFiles, hchunks, Option.getD_none]
  have hnot : ¬ Meets s (.combineVersionChunks h) := by
    rintro ⟨hpos, -⟩
    simp [chunksSize, hfiles] at hpos
  have hlist : store.listVersionChunks bucket h = [] := by
    rw [s3_listVersionChunks hinv hsame, hfiles]
    rfl
  have hs3 : store.combineVersionChunks bucket h = .ok bucket := by
    rw [S3VersionStore.combineVersionChunks, hlist]
  have hlocal : (s.combineVersionChunks h).1.toOption = none := by
    rw [VersionDirs.combineVersionChunks]
    cases hdir : s.lookup h with
    | none => rfl
    | some dir =>
        rw [VersionDirs.versionDir, hdir, Option.getD_some] at hchunks
        simp [LocalVersionStore.combine, hchunks, Except.toOption]
  refine ⟨iff_of_false ?_ hnot, fun hmeets => absurd hmeets hnot⟩
  rintro ⟨hanswer, -⟩
  simp [VersionCall.runLocal, VersionCall.runS3, hs3, hlocal] at hanswer

theorem step_combine_of_some {chunks : KeyedMap.Map ℕ (Option Content)}
    (hchunks : (s.versionDir h).chunks = some chunks) :
    StepSpec store (s, bucket) (.combineVersionChunks h) := by
  have hlocal := local_combineVersionChunks hinv.chunksWritten hchunks
  have hlength := length_chunks hinv hsame hchunks
  have hkeys : (s.chunkFiles h).keys = chunks.keys := by
    rw [VersionDirs.chunkFiles, hchunks, Option.getD_some]
  have hlist : store.listVersionChunks bucket h = chunks.keys.insertionSort (· ≤ ·) := by
    rw [s3_listVersionChunks hinv hsame, hkeys]
  have hne : chunks.keys.insertionSort (· ≤ ·) ≠ [] := by
    intro hnil
    apply (versionDir_chunks hinv hsame hchunks).1
    rw [← List.length_eq_zero_iff, ← List.length_insertionSort (· ≤ ·), hnil, List.length_nil]
  have hget : ∀ o ∈ chunks.keys.insertionSort (· ≤ ·),
      getObject bucket (store.chunkKey h o) = .ok ((chunkAt s h o).getD []) := by
    intro o ho
    rw [List.mem_insertionSort, ← hkeys, mem_chunkFiles hinv.chunksWritten] at ho
    obtain ⟨data, hdata⟩ := Option.isSome_iff_exists.mp ho
    rw [getObject, ← hsame.chunk, hdata, Option.getD_some]
  have hs3 := combineVersionChunks_eq hlist hne hget rfl
  rw [hlength] at hs3
  generalize hdata : ((chunks.keys.insertionSort (· ≤ ·)).map
    fun o => (chunkAt s h o).getD []).flatten = data at hlocal hlength hs3
  by_cases hmeets : 0 < chunksSize s h ∧ chunksSize s h ≤ maxUpload
  · rw [if_pos hmeets] at hs3
    generalize hafter : deleteObjects (bucket.insert (store.generateKey h) data)
      (listObjectsWithPrefix (bucket.insert (store.generateKey h) data)
        (store.chunksPrefix h)) = bucket' at hs3
    have hok : store.combineVersionChunks bucket h = .ok bucket' := by
      cases hresult : store.combineVersionChunks bucket h with
      | error e => simp [hresult, Except.toOption] at hs3
      | ok b => simpa [hresult, Except.toOption] using hs3
    have hlookup : ∀ key, bucket'.lookup key = if store.chunksPrefix h <+: key then none
        else (bucket.insert (store.generateKey h) data).lookup key := by
      intro key
      rw [← hafter, lookup_deletePrefix]
    have hframe : SameElsewhere store bucket bucket' h := by
      constructor
      · intro h' hne
        rw [hlookup, if_neg chunksPrefix_generateKey, SameElsewhere.insert_data.data h' hne]
      · intro h' o hne
        rw [hlookup, if_neg (by simpa using Ne.symm hne),
          SameElsewhere.insert_data.chunk h' o hne]
    have hnext : next store (s, bucket) (.combineVersionChunks h) =
        (s.insert h { data := some data, chunks := none }, bucket') := by
      simp [next, VersionCall.runLocal, VersionCall.runS3, hlocal, hok]
    refine ⟨iff_of_true ⟨?_, ?_⟩ hmeets, fun _ => ?_⟩
    · simp [VersionCall.runLocal, VersionCall.runS3, hlocal, hok, Except.toOption]
    · rw [hnext]
      apply (sameVersions_insert_iff hsame hframe).mpr
      constructor
      · rw [hlookup, if_neg chunksPrefix_generateKey, AList.lookup_insert]
      · intro o
        rw [hlookup, if_pos (chunksPrefix_chunkKey.mpr rfl)]
        rfl
    · rw [hnext]
      refine hinv.insert ⟨by simp, ?_, by simp, by simp⟩ ?_
      · rintro _ ⟨⟩
        rw [hlength]
        exact hmeets.2.trans_lt (by decide)
      · intro key hkey
        have hsome := AList.lookup_isSome.mpr hkey
        rw [hlookup] at hsome
        split_ifs at hsome
        · cases hsome
        · rcases (AList.mem_insert _).mp (AList.lookup_isSome.mp hsome) with rfl | hold
          · exact .inr (.inl rfl)
          · exact .inl hold
  · rw [if_neg hmeets] at hs3
    refine ⟨iff_of_false ?_ hmeets, fun h => absurd h hmeets⟩
    rintro ⟨hanswer, -⟩
    cases hresult : store.combineVersionChunks bucket h with
    | ok b => simp [hresult, Except.toOption] at hs3
    | error e =>
        simp [VersionCall.runLocal, VersionCall.runS3, hlocal, hresult, Except.toOption] at hanswer

theorem step_combineVersionChunks : StepSpec store (s, bucket) (.combineVersionChunks h) := by
  cases hchunks : (s.versionDir h).chunks with
  | none => exact step_combine_of_none hinv hsame hchunks
  | some chunks => exact step_combine_of_some hinv hsame hchunks

theorem step_spec (call : VersionCall) : StepSpec store (s, bucket) call := by
  cases call with
  | storeVersion h data => exact step_storeVersion hinv hsame data
  | storeVersionChunk h offset data => exact step_storeVersionChunk hinv hsame offset data
  | listVersionChunks h => exact step_listVersionChunks hinv hsame
  | combineVersionChunks h => exact step_combineVersionChunks hinv hsame
  | getVersion h => exact step_getVersion hinv hsame
  | getVersionSize h => exact step_getVersionSize hinv hsame
  | getVersionChunk h offset size => exact step_getVersionChunk hinv hsame offset size
  | versionExists h => exact step_versionExists hinv hsame
  | listVersions => exact step_listVersions hinv hsame
  | deleteVersion h => exact step_deleteVersion hinv hsame

end Writes

/-! ## Runs -/

theorem throughout_iff_of_inv (hinv : Inv store s bucket) (hsame : SameVersions store s bucket)
    (calls : List VersionCall) :
    Throughout store (s, bucket) calls ↔ AllMeet store (s, bucket) calls := by
  induction calls generalizing s bucket with
  | nil => exact Iff.rfl
  | cons call calls ih =>
      have hstep := step_spec hinv hsame call
      rw [Throughout, AllMeet]
      constructor
      · rintro ⟨hagrees, hrest⟩
        have hmeets := hstep.agrees_iff.mp hagrees
        exact ⟨hmeets, (ih (hstep.keeps hmeets) hagrees.2).mp hrest⟩
      · rintro ⟨hmeets, hrest⟩
        have hagrees := hstep.agrees_iff.mpr hmeets
        exact ⟨hagrees, (ih (hstep.keeps hmeets) hagrees.2).mpr hrest⟩

theorem agree_throughout_iff (store : S3VersionStore) (bucket : Bucket)
    (hempty : ∀ key ∈ bucket, ¬ store.versionsPrefix <+: key) (calls : List VersionCall) :
    Throughout store (∅, bucket) calls ↔ AllMeet store (∅, bucket) calls := by
  have hnone : ∀ key, store.versionsPrefix <+: key → bucket.lookup key = none := by
    intro key hprefix
    rw [AList.lookup_eq_none]
    exact fun hkey => hempty key hkey hprefix
  apply throughout_iff_of_inv
  · exact ⟨by simp, fun key hkey hprefix => absurd hprefix (hempty key hkey)⟩
  · constructor
    · intro h
      rw [hnone _ ⟨h.digits ++ "/data".toList, by simp [generateKey, S3VersionStore.versionDir]⟩]
      rfl
    · intro h o
      rw [hnone _ ⟨h.digits ++ "/chunks/".toList ++ Nat.toDigits 10 o,
        by simp [chunkKey, chunksPrefix, S3VersionStore.versionDir]⟩]
      rfl

/-- Data stored under a hash always have that hash. -/
def Hashed (hash : Content → HashText) : VersionDirs → List VersionCall → Prop
  | s, [] => ∀ h data, (s.versionDir h).data = some data → hash data = h
  | s, call :: calls => (∀ h data, (s.versionDir h).data = some data → hash data = h) ∧
      Hashed hash (call.runLocal s).2 calls

namespace Example

def repoStore : S3VersionStore := ⟨"ox".toList⟩

def hash : HashText where
  digits := "abc".toList
  long := by decide
  hex _ hc := (by decide : "abc".toList.Sublist hexDigits).subset hc

def threeBytes : Bytes := ⟨[1, 2, 3], by decide⟩

/-- The range that is read starts in the version and ends behind it. -/
def readsBeyond : List VersionCall := [.storeVersion hash threeBytes, .getVersionChunk hash 0 4]

theorem hashed_readsBeyond : Hashed (fun _ => hash) ∅ readsBeyond := by
  have hempty : ∀ h data, (VersionDirs.versionDir ∅ h).data = some data → hash = h := by
    intro h data hdata
    cases hdata
  have hstored : ∀ h data, (VersionDirs.versionDir
      (VersionDirs.storeVersion ∅ hash threeBytes.data) h).data = some data → hash = h := by
    intro h data hdata
    rw [VersionDirs.storeVersion, versionDir_insert] at hdata
    split_ifs at hdata with heq
    · exact heq.symm
    · cases hdata
  exact ⟨hempty, hstored, hstored⟩

end Example

theorem not_agree_throughout : ¬ ∀ (store : S3VersionStore) (hash : Content → HashText)
    (calls : List VersionCall), Hashed hash ∅ calls → Throughout store (∅, ∅) calls := by
  intro hall
  obtain ⟨-, ⟨hanswer, -⟩, -⟩ := hall Example.repoStore _ _ Example.hashed_readsBeyond
  revert hanswer
  decide

theorem agree_throughout_iff_readsBeyond :
    Throughout Example.repoStore (∅, ∅) Example.readsBeyond ↔
      AllMeet Example.repoStore (∅, ∅) Example.readsBeyond :=
  agree_throughout_iff Example.repoStore ∅ (by simp) Example.readsBeyond

end Backends

end Oxen
