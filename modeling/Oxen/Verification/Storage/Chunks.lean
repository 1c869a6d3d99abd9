import Oxen.Lib.Batches
import Oxen.Lib.Runs
import Oxen.Lib.Tiling
import Oxen.Model.VersionBackends

/-! Reading ranges of a version in a local directory, and putting it together from chunks. -/

namespace Oxen

namespace Backends

open Tiling

variable {s s' : VersionDirs} {h h' : HashText} {o : ℕ} {data : Content}

/-- The chunk that a directory has at an offset. -/
def chunkOf (dir : VersionDir) (o : ℕ) : Option Content :=
  ((dir.chunks.getD ∅).lookup o).join

def chunkAt (s : VersionDirs) (h : HashText) (o : ℕ) : Option Content :=
  chunkOf (s.versionDir h) o

theorem versionDir_insert {dir : VersionDir} :
    VersionDirs.versionDir (s.insert h dir) h' = if h' = h then dir else s.versionDir h' := by
  unfold VersionDirs.versionDir
  split_ifs with heq
  · rw [heq, AList.lookup_insert, Option.getD_some]
  · rw [AList.lookup_insert_ne heq]

/-! ## Reading ranges -/

theorem versionDir_erase :
    VersionDirs.versionDir (s.erase h) h' = if h' = h then {} else s.versionDir h' := by
  unfold VersionDirs.versionDir
  split_ifs with heq
  · rw [heq, AList.lookup_erase, Option.getD_none]
  · rw [AList.lookup_erase_ne heq]

theorem getVersionChunk_of_none {offset size : UInt64} (hfile : (s.versionDir h).data = none) :
    (s.getVersionChunk h offset size).toOption = none := by
  rw [VersionDirs.getVersionChunk, VersionDirs.getVersion, hfile]
  rfl

theorem getVersionChunk_of_some {offset size : UInt64}
    (hfile : (s.versionDir h).data = some data) :
    (s.getVersionChunk h offset size).toOption =
      if data.length ≤ offset.toNat ∨ data.length < (offset + size).toNat then none
      else some ((data.drop offset.toNat).take size.toNat) := by
  have htake : (data.drop offset.toNat).take (min size.toNat (data.length - offset.toNat)) =
      (data.drop offset.toNat).take size.toNat := by
    rw [← List.length_drop, ← List.take_eq_take_min]
  rw [VersionDirs.getVersionChunk, VersionDirs.getVersion, hfile]
  simp only [Runs.ok_bind, htake]
  split_ifs <;> rfl

/-- What a read of a range gives of a version: the bytes of the range if it lies in the version,
and an error otherwise, without an end of the range that no offset can name. -/
structure ReadsRange (s : VersionDirs) (h : HashText) (data : Content) (offset size : UInt64) :
    Prop where
  adds : offset.toNat < data.length → offset.toNat + size.toNat < UInt64.size
  within : offset.toNat < data.length → offset.toNat + size.toNat ≤ data.length →
    s.getVersionChunk h offset size = .ok ((data.drop offset.toNat).take size.toNat)
  beyond : ¬ (offset.toNat < data.length ∧ offset.toNat + size.toNat ≤ data.length) →
    ∃ e, s.getVersionChunk h offset size = .error e

theorem getVersionChunk_ok_iff {offset size : UInt64} {bytes : Content} :
    s.getVersionChunk h offset size = .ok bytes ↔
      (s.getVersionChunk h offset size).toOption = some bytes := by
  cases s.getVersionChunk h offset size with
  | error e => simp [Except.toOption]
  | ok result => simp [Except.toOption]

theorem getVersionChunk_error_iff {offset size : UInt64} :
    (∃ e, s.getVersionChunk h offset size = .error e) ↔
      (s.getVersionChunk h offset size).toOption = none := by
  cases s.getVersionChunk h offset size with
  | error e => simp [Except.toOption]
  | ok result => simp [Except.toOption]

/-- A range that lies in the version. -/
theorem getVersionChunk_within {offset size : UInt64} (hfile : (s.versionDir h).data = some data)
    (hlength : data.length < 2 ^ 63) (hoffset : offset.toNat < data.length)
    (hend : offset.toNat + size.toNat ≤ data.length) :
    s.getVersionChunk h offset size = .ok ((data.drop offset.toNat).take size.toNat) := by
  have hsum : (offset + size).toNat = offset.toNat + size.toNat := by
    rw [UInt64.toNat_add]
    omega
  rw [getVersionChunk_ok_iff, getVersionChunk_of_some hfile, if_neg (by omega)]

/-- Where the end of the range wraps around, the rest of the version is read. -/
theorem getVersionChunk_wrapped {offset size : UInt64} (hfile : (s.versionDir h).data = some data)
    (hlength : data.length < 2 ^ 63) (hoffset : offset.toNat < data.length)
    (hwraps : UInt64.size ≤ offset.toNat + size.toNat) :
    s.getVersionChunk h offset size = .ok (data.drop offset.toNat) := by
  have hsize := size.toNat_lt
  have hsum : (offset + size).toNat < data.length := by
    rw [UInt64.toNat_add]
    simp only [UInt64.size] at hwraps
    omega
  have hrest : data.length - offset.toNat ≤ size.toNat := by
    simp only [UInt64.size] at hwraps
    omega
  rw [getVersionChunk_ok_iff, getVersionChunk_of_some hfile, if_neg (by omega),
    List.take_of_length_le (by rwa [List.length_drop])]

theorem readsRange_iff {offset size : UInt64} (hfile : (s.versionDir h).data = some data)
    (hlength : data.length < 2 ^ 63) :
    ReadsRange s h data offset size ↔
      data.length ≤ offset.toNat ∨ offset.toNat + size.toNat < UInt64.size := by
  constructor
  · intro hreads
    by_contra hnot
    rw [not_or, not_le, not_lt] at hnot
    rcases hreads.beyond (by simp only [UInt64.size] at hnot; omega) with ⟨e, he⟩
    rw [getVersionChunk_wrapped hfile hlength hnot.1 hnot.2] at he
    cases he
  · intro hfits
    refine ⟨fun hoffset => hfits.resolve_left (not_le.mpr hoffset),
      getVersionChunk_within hfile hlength, fun hbeyond => ?_⟩
    rw [getVersionChunk_error_iff, getVersionChunk_of_some hfile]
    apply if_pos
    rcases hfits with hoffset | hsum
    · exact .inl hoffset
    · rw [UInt64.toNat_add, Nat.mod_eq_of_lt hsum]
      omega

/-- The ranges of one size that follow each other, and a shorter one for the rest. -/
def consecutiveRanges (n : ℕ) (size : UInt64) : List (UInt64 × UInt64) :=
  (List.range (n / size.toNat)).map (fun i => (UInt64.ofNat (i * size.toNat), size)) ++
    if n % size.toNat = 0 then []
    else [(UInt64.ofNat (n / size.toNat * size.toNat), UInt64.ofNat (n % size.toNat))]

/-- Reads a version range by range. -/
def readConsecutive (s : VersionDirs) (h : HashText) (n : ℕ) (size : UInt64) :
    Except LocalError Content :=
  ((consecutiveRanges n size).mapM fun range => s.getVersionChunk h range.1 range.2).map List.flatten

theorem toNat_ofNat_of_le {n : ℕ} (hlength : data.length < 2 ^ 63) (h : n ≤ data.length) :
    (UInt64.ofNat n).toNat = n :=
  UInt64.toNat_ofNat_of_lt' (by rw [UInt64.size]; omega)

theorem consecutiveRanges_within {size : UInt64} {range : UInt64 × UInt64}
    (hlength : data.length < 2 ^ 63) (hsize : 0 < size.toNat)
    (h : range ∈ consecutiveRanges data.length size) :
    range.1.toNat < data.length ∧ range.1.toNat + range.2.toNat ≤ data.length := by
  have hrest := Nat.div_add_mod' data.length size.toNat
  rcases List.mem_append.mp h with hfull | hlast
  · rcases List.mem_map.mp hfull with ⟨i, hi, rfl⟩
    have hend : (i + 1) * size.toNat ≤ data.length / size.toNat * size.toNat :=
      Nat.mul_le_mul_right _ (List.mem_range.mp hi)
    rw [Nat.succ_mul] at hend
    dsimp only
    rw [toNat_ofNat_of_le hlength (by omega)]
    omega
  · split at hlast
    · cases hlast
    · next hne =>
        rw [List.mem_singleton.mp hlast]
        dsimp only
        rw [toNat_ofNat_of_le hlength (by omega), toNat_ofNat_of_le hlength (by omega)]
        omega

/-- The bytes of the consecutive ranges, one after the other. -/
theorem flatten_consecutiveRanges (hlength : data.length < 2 ^ 63) (size : UInt64) :
    ((consecutiveRanges data.length size).map fun range =>
      (data.drop range.1.toNat).take range.2.toNat).flatten = data := by
  have hrest := Nat.div_add_mod' data.length size.toNat
  have hfull : ((List.range (data.length / size.toNat)).map fun i =>
      (data.drop (UInt64.ofNat (i * size.toNat)).toNat).take size.toNat) =
      (List.range (data.length / size.toNat)).map fun i =>
        (data.drop (i * size.toNat)).take size.toNat := by
    apply List.map_congr_left
    intro i hi
    have hstart : i * size.toNat ≤ data.length / size.toNat * size.toNat :=
      Nat.mul_le_mul_right _ (List.mem_range.mp hi).le
    rw [toNat_ofNat_of_le hlength (by omega)]
  rw [consecutiveRanges, List.map_append, List.map_map, List.flatten_append]
  simp only [Function.comp_def]
  rw [hfull, Batches.flatten_batches]
  split
  · next hzero =>
      rw [List.map_nil, List.flatten_nil, List.append_nil, List.take_of_length_le (by omega)]
  · rw [List.map_singleton, List.flatten_singleton, toNat_ofNat_of_le hlength (by omega),
      toNat_ofNat_of_le hlength (by omega), ← List.take_add, hrest, List.take_length]

theorem readConsecutive_eq {size : UInt64} (hfile : (s.versionDir h).data = some data)
    (hlength : data.length < 2 ^ 63) (hsize : 0 < size.toNat) :
    readConsecutive s h data.length size = .ok data := by
  have hread : ∀ range ∈ consecutiveRanges data.length size,
      s.getVersionChunk h range.1 range.2 =
        .ok ((data.drop range.1.toNat).take range.2.toNat) := by
    intro range hrange
    have hwithin := consecutiveRanges_within hlength hsize hrange
    exact getVersionChunk_within hfile hlength hwithin.1 hwithin.2
  rw [readConsecutive, Runs.mapM_ok hread, Except.map, flatten_consecutiveRanges hlength]

theorem data_of_getVersion (hversion : s.getVersion h = .ok data) :
    (s.versionDir h).data = some data := by
  unfold VersionDirs.getVersion at hversion
  split at hversion
  · cases hversion
  · next hdata =>
      cases hversion
      exact hdata

/-- A range is read exactly where its end does not wrap around, or the read stops before it is
computed; reading range after range gives the version. -/
theorem chunkReads_exact_iff (s : VersionDirs) (h : HashText) (data : Bytes)
    (hversion : s.getVersion h = .ok data.data) :
    (∀ offset size, ReadsRange s h data.data offset size ↔
      data.data.length ≤ offset.toNat ∨ offset.toNat + size.toNat < UInt64.size) ∧
    ∀ size : UInt64, 1 ≤ size → readConsecutive s h data.data.length size = .ok data.data := by
  have hfile := data_of_getVersion hversion
  constructor
  · intro offset size
    exact readsRange_iff hfile data.length_lt
  · intro size hsize
    exact readConsecutive_eq hfile data.length_lt (UInt64.le_iff_toNat_le.mp hsize)

namespace ChunksExample

def hash : HashText where
  digits := "07f".toList
  long := by decide
  hex _ hc := (by decide : "07f".toList.Sublist hexDigits).subset hc

def threeBytes : Bytes := ⟨[7, 8, 9], by decide⟩

def stored : VersionDirs := VersionDirs.storeVersion ∅ hash threeBytes.data

end ChunksExample

open ChunksExample in
theorem chunkReads_exact_iff_stored :
    (ReadsRange stored hash threeBytes.data 1 2 ↔
      threeBytes.data.length ≤ (1 : UInt64).toNat ∨
        (1 : UInt64).toNat + (2 : UInt64).toNat < UInt64.size) ∧
      readConsecutive stored hash threeBytes.data.length 2 = .ok threeBytes.data := by
  rcases chunkReads_exact_iff stored hash threeBytes (by decide) with ⟨hrange, hall⟩
  exact ⟨hrange 1 2, hall 2 (by decide)⟩

open ChunksExample in
theorem not_chunkReads_exact : ¬ ∀ (s : VersionDirs) (h : HashText) (data : Bytes),
    s.getVersion h = .ok data.data → ∀ offset size, ReadsRange s h data.data offset size := by
  intro hall
  rcases (hall stored hash threeBytes (by decide) 1 (-1)).beyond (by decide) with ⟨e, he⟩
  have hread : stored.getVersionChunk hash 1 (-1) = .ok [8, 9] := by decide
  rw [hread] at he
  cases he

/-! ## Putting chunks together -/

/-- Every directory of chunks has some, and all their files are there. -/
def ChunksWritten (s : VersionDirs) : Prop :=
  ∀ h chunks, (s.versionDir h).chunks = some chunks →
    chunks.keys ≠ [] ∧ ∀ o file, chunks.lookup o = some file → file ≠ none

theorem mem_chunkFiles (hs : ChunksWritten s) :
    o ∈ (s.chunkFiles h).keys ↔ (chunkAt s h o).isSome := by
  unfold chunkAt chunkOf VersionDirs.chunkFiles
  rw [← AList.mem_keys, ← AList.lookup_isSome]
  cases hchunks : (s.versionDir h).chunks with
  | none => simp
  | some chunks =>
      simp only [Option.getD_some]
      cases hfile : chunks.lookup o with
      | none => simp
      | some file =>
          have hne := (hs h chunks hchunks).2 o file hfile
          simpa [Option.isSome_iff_ne_none] using hne

theorem copyChunks_map (offsets : List ℕ) (contents : ℕ → Content) :
    LocalVersionStore.copyChunks (offsets.map fun o => some (contents o)) =
      ((offsets.map contents).flatten, true) := by
  induction offsets with
  | nil => rfl
  | cons offset offsets ih =>
      simp only [List.map_cons, LocalVersionStore.copyChunks, ih, List.flatten_cons]

/-- The chunks of a version in the order of their offsets. -/
theorem local_combineVersionChunks {chunks : KeyedMap.Map ℕ (Option Content)}
    (hs : ChunksWritten s) (hchunks : (s.versionDir h).chunks = some chunks) :
    s.combineVersionChunks h = (.ok (), s.insert h
      { data := some ((chunks.keys.insertionSort (· ≤ ·)).map
          fun o => (chunkAt s h o).getD []).flatten
        chunks := none }) := by
  obtain ⟨dir, hdir⟩ : ∃ dir, s.lookup h = some dir := by
    apply Option.ne_none_iff_exists'.mp
    intro hnone
    simp [VersionDirs.versionDir, hnone] at hchunks
  have hversion : s.versionDir h = dir := by rw [VersionDirs.versionDir, hdir, Option.getD_some]
  rw [hversion] at hchunks
  have hfiles : LocalVersionStore.listVersionChunks chunks =
      (chunks.keys.insertionSort (· ≤ ·)).map fun o => some ((chunkAt s h o).getD []) := by
    apply List.map_congr_left
    intro o ho
    rw [List.mem_insertionSort] at ho
    have hfile : (chunkAt s h o).isSome := by
      rw [← mem_chunkFiles hs, VersionDirs.chunkFiles, hversion, hchunks]
      exact ho
    have heq : chunkAt s h o = (chunks.lookup o).join := by
      rw [chunkAt, chunkOf, hversion, hchunks, Option.getD_some]
    rw [← heq]
    obtain ⟨data, hdata⟩ := Option.isSome_iff_exists.mp hfile
    rw [hdata, Option.getD_some]
  rw [VersionDirs.combineVersionChunks, hdir]
  simp only [LocalVersionStore.combine, hchunks, reduceCtorEq, if_false,
    LocalVersionStore.copyAll, hfiles, copyChunks_map, if_true]

/-- The chunks of a version with their offsets, in the order in which they are copied. -/
def storedChunks (s : VersionDirs) (h : HashText) : List (ℕ × Content) :=
  ((s.chunkFiles h).keys.insertionSort (· ≤ ·)).map fun o => (o, (chunkAt s h o).getD [])

theorem mem_storedChunks (hs : ChunksWritten s) {item : ℕ × Content} :
    item ∈ storedChunks s h ↔ chunkAt s h item.1 = some item.2 := by
  obtain ⟨o, data⟩ := item
  rw [storedChunks, List.mem_map]
  constructor
  · rintro ⟨o', ho, heq⟩
    obtain ⟨rfl, rfl⟩ := Prod.mk.inj heq
    rw [List.mem_insertionSort, mem_chunkFiles hs] at ho
    rcases Option.isSome_iff_exists.mp ho with ⟨data, hdata⟩
    rw [hdata, Option.getD_some]
  · intro hchunk
    refine ⟨o, ?_, by rw [hchunk, Option.getD_some]⟩
    rw [List.mem_insertionSort, mem_chunkFiles hs, hchunk, Option.isSome_some]

/-- The chunks are copied by their offsets. -/
theorem pairwise_storedChunks : (storedChunks s h).Pairwise fun a b => a.1 < b.1 := by
  rw [storedChunks, List.pairwise_map]
  have hsorted := List.pairwise_insertionSort (· ≤ ·) (s.chunkFiles h).keys
  have hnodup : ((s.chunkFiles h).keys.insertionSort (· ≤ ·)).Nodup :=
    (List.perm_insertionSort _ _).nodup_iff.mpr (s.chunkFiles h).nodupKeys
  exact (hsorted.and hnodup).imp fun hab => lt_of_le_of_ne hab.1 hab.2

/-- Chunks that are listed by their offsets are determined by which they are. -/
theorem storedChunks_eq {chunks : List (ℕ × Content)} (hs : ChunksWritten s)
    (hsorted : chunks.Pairwise fun a b => a.1 < b.1)
    (hmem : ∀ item, chunkAt s h item.1 = some item.2 ↔ item ∈ chunks) :
    storedChunks s h = chunks := by
  have hirrefl : ∀ l : List (ℕ × Content), (l.Pairwise fun a b => a.1 < b.1) → l.Nodup :=
    fun l hl => hl.imp fun hab heq => (heq ▸ hab).ne rfl
  have hperm : (storedChunks s h).Perm chunks := by
    rw [List.perm_ext_iff_of_nodup (hirrefl _ pairwise_storedChunks) (hirrefl _ hsorted)]
    exact fun item => (mem_storedChunks hs).trans (hmem item)
  refine hperm.eq_of_pairwise ?_ pairwise_storedChunks hsorted
  intro a b _ _ hab hba
  exact absurd hab (lt_asymm hba)

/-- The directories after some calls. -/
def after (s : VersionDirs) (calls : List VersionCall) : VersionDirs :=
  calls.foldl (fun s call => (call.runLocal s).2) s

theorem chunksWritten_insert {dir : VersionDir} (hs : ChunksWritten s)
    (hdir : ∀ chunks, dir.chunks = some chunks →
      chunks.keys ≠ [] ∧ ∀ o file, chunks.lookup o = some file → file ≠ none) :
    ChunksWritten (s.insert h dir) := by
  intro h' chunks hchunks
  rw [versionDir_insert] at hchunks
  split at hchunks
  · exact hdir chunks hchunks
  · exact hs h' chunks hchunks

theorem chunksWritten_storeVersionChunk (hs : ChunksWritten s) (offset : UInt64) :
    ChunksWritten (s.storeVersionChunk h offset data) := by
  apply chunksWritten_insert hs
  rintro chunks ⟨⟩
  constructor
  · rw [AList.keys_insert]
    exact List.cons_ne_nil _ _
  · intro o file hfile
    rcases KeyedMap.lookup_insert_eq_some.mp hfile with ⟨rfl, rfl⟩ | ⟨-, hold⟩
    · cases ((s.chunkFiles h).lookup offset.toNat).join <;> simp [LocalVersionStore.writeNew]
    · unfold VersionDirs.chunkFiles at hold
      cases hchunks : (s.versionDir h).chunks with
      | none => simp [hchunks] at hold
      | some chunks =>
          rw [hchunks, Option.getD_some] at hold
          exact (hs h chunks hchunks).2 o file hold

/-- Without chunks the version's file is emptied before the call fails. -/
theorem combine_of_none (hchunks : (s.versionDir h).chunks = none) :
    s.combineVersionChunks h = (.error .notFound, s) ∧ (s.versionDir h).data = none ∨
      s.combineVersionChunks h =
        (.error .notFound, s.insert h { s.versionDir h with data := some [] }) := by
  unfold VersionDirs.combineVersionChunks
  cases hdir : s.lookup h with
  | none => exact .inl ⟨rfl, by rw [VersionDirs.versionDir, hdir]; rfl⟩
  | some dir =>
      have hversion : s.versionDir h = dir := by rw [VersionDirs.versionDir, hdir, Option.getD_some]
      rw [hversion] at hchunks ⊢
      right
      simp [LocalVersionStore.combine, hchunks]

theorem chunksWritten_step (hs : ChunksWritten s) (call : VersionCall) :
    ChunksWritten (call.runLocal s).2 := by
  cases call with
  | storeVersion h data => exact chunksWritten_insert hs fun chunks hchunks => hs h chunks hchunks
  | storeVersionChunk h offset data => exact chunksWritten_storeVersionChunk hs offset
  | combineVersionChunks h =>
      change ChunksWritten (s.combineVersionChunks h).2
      cases hchunks : (s.versionDir h).chunks with
      | none =>
          rcases combine_of_none hchunks with ⟨heq, -⟩ | heq
          · rw [heq]
            exact hs
          · rw [heq]
            exact chunksWritten_insert hs fun chunks hsome => hs h chunks hsome
      | some chunks =>
          rw [local_combineVersionChunks hs hchunks]
          exact chunksWritten_insert hs fun chunks hsome => by cases hsome
  | deleteVersion h =>
      intro h' chunks hchunks
      change (VersionDirs.versionDir (s.erase h) h').chunks = some chunks at hchunks
      rw [versionDir_erase] at hchunks
      split at hchunks
      · cases hchunks
      · exact hs h' chunks hchunks
  | listVersionChunks h => exact hs
  | getVersion h => exact hs
  | getVersionSize h => exact hs
  | getVersionChunk h offset size => exact hs
  | versionExists h => exact hs
  | listVersions => exact hs

theorem chunksWritten_after (hs : ChunksWritten s) (calls : List VersionCall) :
    ChunksWritten (after s calls) := by
  induction calls generalizing s with
  | nil => exact hs
  | cons call calls ih => exact ih (chunksWritten_step hs call)

theorem chunksWritten_empty : ChunksWritten ∅ := by
  intro h chunks hchunks
  cases hchunks

/-! ## What combining gives -/

/-- Chunks that follow each other from the start give the version, and no others give any. A
version that is there stays if combining fails, or finds nothing to combine. -/
structure CombineMeets (s : VersionDirs) (h : HashText) : Prop where
  whole : Tiles 0 (storedChunks s h) → (storedChunks s h = [] → (s.versionDir h).data = none) →
    (s.combineVersionChunks h).1 = .ok () ∧
      (s.combineVersionChunks h).2.getVersion h =
        .ok ((storedChunks s h).map Prod.snd).flatten
  refused : ¬ Tiles 0 (storedChunks s h) → ∃ e, (s.combineVersionChunks h).1 = .error e
  keeps : (∃ e, (s.combineVersionChunks h).1 = .error e) ∨
      storedChunks s h = [] ∧ (s.versionDir h).data ≠ none →
    (s.combineVersionChunks h).2.getVersion h = s.getVersion h

/-- There are chunks, and they follow each other; or there is nothing to combine, and the
version is empty already. -/
def CombinesWhole (s : VersionDirs) (h : HashText) : Prop :=
  storedChunks s h ≠ [] ∧ Tiles 0 (storedChunks s h) ∨
    storedChunks s h = [] ∧ (s.versionDir h).data = some []

theorem getVersion_insert {dir : VersionDir} :
    VersionDirs.getVersion (s.insert h dir) h =
      match dir.data with
      | none => .error .notFound
      | some data => .ok data := by
  rewrite [VersionDirs.getVersion, versionDir_insert, if_pos rfl]
  rfl

theorem storedChunks_eq_nil_iff (hs : ChunksWritten s) :
    storedChunks s h = [] ↔ (s.versionDir h).chunks = none := by
  have hkeys : storedChunks s h = [] ↔ (s.chunkFiles h).keys = [] := by
    rw [storedChunks, List.map_eq_nil_iff, ← List.length_eq_zero_iff,
      List.length_insertionSort, List.length_eq_zero_iff]
  rw [hkeys]
  unfold VersionDirs.chunkFiles
  cases hchunks : (s.versionDir h).chunks with
  | none => simp
  | some chunks => simpa using (hs h chunks hchunks).1

/-- Combining chunks takes them as they are. -/
theorem combine_of_chunks (hs : ChunksWritten s) (hne : storedChunks s h ≠ []) :
    (s.combineVersionChunks h).1 = .ok () ∧
      (s.combineVersionChunks h).2.getVersion h = .ok ((storedChunks s h).map Prod.snd).flatten := by
  rw [ne_eq, storedChunks_eq_nil_iff hs, ← ne_eq, Option.ne_none_iff_exists'] at hne
  rcases hne with ⟨chunks, hchunks⟩
  rw [local_combineVersionChunks hs hchunks, getVersion_insert, storedChunks, List.map_map,
    VersionDirs.chunkFiles, hchunks]
  exact ⟨rfl, rfl⟩

theorem combineMeets_iff_of_nil (hs : ChunksWritten s) (hnil : storedChunks s h = []) :
    CombineMeets s h ↔ (s.versionDir h).data = some [] := by
  have hcombine := combine_of_none ((storedChunks_eq_nil_iff hs).mp hnil)
  have herror : (s.combineVersionChunks h).1 = .error .notFound := by
    rcases hcombine with ⟨heq, -⟩ | heq
    · rw [heq]
    · rw [heq]
  have hemptied : (s.versionDir h).data ≠ none →
      (s.combineVersionChunks h).2.getVersion h = .ok [] := by
    intro hdata
    rcases hcombine with ⟨-, hnone⟩ | heq
    · exact absurd hnone hdata
    · rw [heq, getVersion_insert]
  have hgetVersion : ∀ data, s.getVersion h = .ok data ↔ (s.versionDir h).data = some data := by
    intro data
    unfold VersionDirs.getVersion
    split <;> simp_all
  constructor
  · intro hmeets
    have hdata : (s.versionDir h).data ≠ none := by
      intro hnone
      have hok := (hmeets.whole (by rw [hnil]; trivial) fun _ => hnone).1
      rw [herror] at hok
      cases hok
    rw [← hgetVersion, ← hmeets.keeps (.inr ⟨hnil, hdata⟩)]
    exact hemptied hdata
  · intro hdata
    have hsome : (s.versionDir h).data ≠ none := by simp [hdata]
    refine ⟨fun _ hnone => absurd (hnone hnil) hsome, fun hnot => ?_, fun _ => ?_⟩
    · exact absurd (by rw [hnil]; trivial) hnot
    · rw [hemptied hsome, eq_comm, hgetVersion]
      exact hdata

theorem combineMeets_iff (hs : ChunksWritten s) : CombineMeets s h ↔ CombinesWhole s h := by
  unfold CombinesWhole
  by_cases hnil : storedChunks s h = []
  · rw [combineMeets_iff_of_nil hs hnil]
    simp [hnil]
  · have hcombine := combine_of_chunks hs hnil
    simp only [hnil, ne_eq, not_false_eq_true, true_and, false_and, or_false]
    constructor
    · intro hmeets
      by_contra htiles
      rcases hmeets.refused htiles with ⟨e, he⟩
      rw [hcombine.1] at he
      cases he
    · intro htiles
      refine ⟨fun _ _ => hcombine, fun hnot => absurd htiles hnot, ?_⟩
      rintro (⟨e, he⟩ | ⟨h, -⟩)
      · rw [hcombine.1] at he
        cases he
      · exact absurd h hnil

/-! ## Uploading all pieces -/

theorem chunkAt_storeVersionChunk (offset : UInt64) :
    chunkAt (s.storeVersionChunk h offset data) h o =
      if o = offset.toNat then some ((chunkAt s h o).getD data) else chunkAt s h o := by
  unfold chunkAt chunkOf VersionDirs.storeVersionChunk
  dsimp only
  rw [versionDir_insert, if_pos rfl, Option.getD_some]
  split_ifs with heq
  · subst heq
    rw [AList.lookup_insert, Option.join_some, VersionDirs.chunkFiles]
    cases (((s.versionDir h).chunks.getD ∅).lookup offset.toNat).join <;> rfl
  · rw [AList.lookup_insert_ne heq]
    rfl

/-- Uploads of pieces of a version, one after the other. -/
def upload (s : VersionDirs) (h : HashText) (puts : List (UInt64 × Bytes)) : VersionDirs :=
  puts.foldl (fun s put => s.storeVersionChunk h put.1 put.2.data) s

/-- The piece that an upload brings, at its offset. -/
def pieceOf (put : UInt64 × Bytes) : ℕ × Content :=
  (put.1.toNat, put.2.data)

theorem chunksWritten_upload (hs : ChunksWritten s) (puts : List (UInt64 × Bytes)) :
    ChunksWritten (upload s h puts) := by
  induction puts generalizing s with
  | nil => exact hs
  | cons put puts ih => exact ih (chunksWritten_storeVersionChunk hs put.1)

/-- Where every offset has one piece, the chunks after some uploads are the pieces that were there
and those that were brought. -/
theorem chunkAt_upload {pieces : List (ℕ × Content)}
    (hpieces : ∀ o p q, (o, p) ∈ pieces → (o, q) ∈ pieces → p = q) {puts : List (UInt64 × Bytes)}
    (hputs : ∀ put ∈ puts, pieceOf put ∈ pieces)
    (hs : ∀ o p, chunkAt s h o = some p → (o, p) ∈ pieces) (item : ℕ × Content) :
    chunkAt (upload s h puts) h item.1 = some item.2 ↔
      chunkAt s h item.1 = some item.2 ∨ item ∈ puts.map pieceOf := by
  obtain ⟨o, p⟩ := item
  induction puts generalizing s with
  | nil => simp [upload]
  | cons put puts ih =>
      have hput := hputs put List.mem_cons_self
      have hstep : ∀ o p, chunkAt (s.storeVersionChunk h put.1 put.2.data) h o = some p ↔
          chunkAt s h o = some p ∨ (o, p) = pieceOf put := by
        intro o p
        rw [chunkAt_storeVersionChunk, pieceOf, Prod.mk.injEq]
        split_ifs with heq
        · subst heq
          cases hold : chunkAt s h put.1.toNat with
          | none => simp [eq_comm]
          | some q =>
              obtain rfl := hpieces _ _ _ (hs _ _ hold) hput
              simp [eq_comm]
        · simp [heq]
      have hnext : ∀ o p, chunkAt (s.storeVersionChunk h put.1 put.2.data) h o = some p →
          (o, p) ∈ pieces := by
        intro o p hp
        rcases (hstep o p).mp hp with hold | heq
        · exact hs o p hold
        · rwa [heq]
      rw [List.map_cons, List.mem_cons, ← or_assoc, ← hstep]
      exact ih (fun put hmem => hputs put (List.mem_cons_of_mem _ hmem)) hnext

/-- All pieces of some bytes, uploaded in any order and any number of times. -/
theorem combine_upload (hs : ChunksWritten s) (hnone : storedChunks s h = [])
    {pieces : List Content} (hpieces : pieces ≠ []) (hne : ∀ piece ∈ pieces, piece ≠ [])
    {puts : List (UInt64 × Bytes)} (hputs : ∀ item, item ∈ puts.map pieceOf ↔
      item ∈ placed 0 pieces) :
    ((upload s h puts).combineVersionChunks h).1 = .ok () ∧
      ((upload s h puts).combineVersionChunks h).2.getVersion h = .ok pieces.flatten := by
  have hempty : ∀ o p, chunkAt s h o ≠ some p := by
    intro o p hp
    have hmem : (o, p) ∈ storedChunks s h := (mem_storedChunks hs).mpr hp
    rw [hnone] at hmem
    cases hmem
  have hchunks : storedChunks (upload s h puts) h = placed 0 pieces := by
    apply storedChunks_eq (chunksWritten_upload hs puts) (pairwise_placed hne 0)
    intro item
    rw [chunkAt_upload (fun o p q hp hq => placed_functional hne hp hq)
      (fun put hput => (hputs _).mp (List.mem_map_of_mem hput))
      (fun o p hp => absurd hp (hempty o p)), or_iff_right (hempty _ _), hputs]
  have hnil : storedChunks (upload s h puts) h ≠ [] := by
    rw [hchunks]
    intro hplaced
    have hmap := map_snd_placed 0 pieces
    rw [hplaced] at hmap
    exact hpieces hmap.symm
  have hcombine := combine_of_chunks (chunksWritten_upload hs puts) hnil
  rw [hchunks, map_snd_placed] at hcombine
  exact hcombine

/-- After any calls, combining gives what it should exactly where there are chunks that follow
each other, or nothing to combine into an empty version; and so it does for every upload of a
version in pieces. -/
theorem combine_reassembles_iff (calls : List VersionCall) (h : HashText) :
    (CombineMeets (after ∅ calls) h ↔ CombinesWhole (after ∅ calls) h) ∧
      ∀ (pieces : List Content) (puts : List (UInt64 × Bytes)),
        storedChunks (after ∅ calls) h = [] → pieces ≠ [] → (∀ piece ∈ pieces, piece ≠ []) →
        (∀ item, item ∈ puts.map pieceOf ↔ item ∈ placed 0 pieces) →
        ((upload (after ∅ calls) h puts).combineVersionChunks h).1 = .ok () ∧
          ((upload (after ∅ calls) h puts).combineVersionChunks h).2.getVersion h =
            .ok pieces.flatten := by
  have hwritten : ChunksWritten (after ∅ calls) := chunksWritten_after chunksWritten_empty calls
  constructor
  · exact combineMeets_iff hwritten
  · intro pieces puts hnone hpieces hne hputs
    exact combine_upload hwritten hnone hpieces hne hputs

open ChunksExample in
/-- Combining once more empties the version. -/
theorem not_combine_reassembles : ¬ ∀ (calls : List VersionCall) (h : HashText),
    CombineMeets (after ∅ calls) h := by
  intro hall
  have hmeets := hall [.storeVersionChunk hash 0 threeBytes, .combineVersionChunks hash] hash
  have hkeeps := hmeets.keeps (.inr (by decide))
  exact absurd hkeeps (by decide)

end Backends

end Oxen
