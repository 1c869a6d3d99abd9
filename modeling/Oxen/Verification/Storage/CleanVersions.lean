import Oxen.Model.CleanVersions

/-! Cleaning a version store removes no version whose file is whole and left alone, whatever
else goes on, and removes just the others when nothing else goes on. -/

namespace Oxen

namespace CleanVersions

open Runs

/-! ## Names and files -/

inductive FileName where
  | data (name : VersionName)
  | chunk (name : VersionName) (offset : ℕ)
deriving DecidableEq

def Versions.file? (v : Versions) : FileName → Option FileId
  | .data name => (v.entries name).data
  | .chunk name offset => v.chunkFile? name offset

/-- No file has two names, and every file that has one was created. -/
structure OneName (v : Versions) : Prop where
  created : ∀ x file, v.file? x = some file → file < v.files.length
  unique : ∀ x y file, v.file? x = some file → v.file? y = some file → x = y

variable {v v' : Versions} {name other : VersionName} {x y : FileName} {file : FileId}
  {entries : VersionEntries} {offset bytes : ℕ} {call : Call}

theorem entries_put (v : Versions) (name other : VersionName) (entries : VersionEntries) :
    (v.put name entries).entries other = if other = name then entries else v.entries other := by
  unfold Versions.entries Versions.put
  by_cases h : other = name
  · subst h
    simp
  · simp [h, AList.lookup_insert_ne h]

theorem file?_congr (h : v'.dirs = v.dirs) (x : FileName) : v'.file? x = v.file? x := by
  cases x <;> simp [Versions.file?, Versions.chunkFile?, Versions.entries, h]

theorem file?_data : v.file? (.data name) = (v.entries name).data := rfl

theorem file?_chunk :
    v.file? (.chunk name offset) = (((v.entries name).chunks.getD ∅).lookup offset).join := rfl

/-- Directories that hold the same files under the same names. -/
theorem file?_put (hdata : entries.data = (v.entries name).data)
    (hchunks : ∀ offset, ((entries.chunks.getD ∅).lookup offset).join = v.chunkFile? name offset)
    (x : FileName) : (v.put name entries).file? x = v.file? x := by
  cases x with
  | data other =>
      rw [file?_data, file?_data, entries_put]
      split
      · next h => rw [h, hdata]
      · rfl
  | chunk other offset =>
      rw [file?_chunk, file?_chunk, entries_put]
      split
      · next h =>
        rw [hchunks, h]
        rfl
      · rfl

/-- A name is given to a file, that had it before or is new. -/
structure Gives (v v' : Versions) (x : FileName) (file : FileId) : Prop where
  named : v'.file? x = some file
  other : ∀ y, y ≠ x → v'.file? y = v.file? y
  source : v.file? x = some file ∨ file = v.files.length
  lt : file < v'.files.length
  le : v.files.length ≤ v'.files.length
  kept : ∀ f, f ≠ file → v'.files[f]? = v.files[f]?

/-- What opening a file does to the files. -/
structure Opens (v v' : Versions) (current : Option FileId) (file : FileId) : Prop where
  source : current = some file ∨ current = none ∧ file = v.files.length
  lt : file < v'.files.length
  le : v.files.length ≤ v'.files.length
  kept : ∀ f, f ≠ file → v'.files[f]? = v.files[f]?

@[simp] theorem dirs_openFile (current : Option FileId) :
    (v.openFile current).2.dirs = v.dirs := by
  cases current <;> rfl

@[simp] theorem entries_openFile (current : Option FileId) (name : VersionName) :
    (v.openFile current).2.entries name = v.entries name := by
  rw [Versions.entries, dirs_openFile, Versions.entries]

theorem opens_openFile {current : Option FileId}
    (hcurrent : ∀ file, current = some file → file < v.files.length) :
    Opens v (v.openFile current).2 current (v.openFile current).1 := by
  cases current with
  | none =>
      refine ⟨.inr ⟨rfl, rfl⟩, by simp [Versions.openFile], by simp [Versions.openFile], ?_⟩
      intro f hne
      have hlen : f ≠ v.files.length := hne
      change (v.files ++ [[]])[f]? = v.files[f]?
      rcases Nat.lt_or_gt_of_ne hlen with hlt | hgt
      · exact List.getElem?_append_left hlt
      · have hend : (v.files ++ [[]]).length ≤ f := by
          rw [List.length_append]
          exact hgt
        rw [List.getElem?_eq_none hend, List.getElem?_eq_none hgt.le]
  | some file =>
      have hlt := hcurrent file rfl
      refine ⟨.inl rfl, by simpa [Versions.openFile] using hlt,
        by simp [Versions.openFile], ?_⟩
      intro f hne
      exact List.getElem?_set_ne hne.symm

theorem gives_createData (hv : OneName v) :
    Gives v (v.createData name).2 (.data name) (v.createData name).1 := by
  have hopen := opens_openFile (v := v) (hv.created (.data name))
  refine ⟨?_, ?_, ?_, hopen.lt, hopen.le, hopen.kept⟩
  · rw [file?_data, Versions.createData, entries_put, if_pos rfl]
  · intro y hne
    have hsame : v.file? y = (v.openFile (v.entries name).data).2.file? y :=
      (file?_congr (dirs_openFile _) y).symm
    rw [hsame]
    cases y with
    | data other =>
        have hother : other ≠ name := fun h => hne (h ▸ rfl)
        rw [file?_data, file?_data, Versions.createData, entries_put, if_neg hother]
    | chunk other offset =>
        rw [file?_chunk, file?_chunk, Versions.createData, entries_put]
        split
        · next h =>
          rw [h, entries_openFile]
        · rfl
  · rcases hopen.source with h | h
    · exact .inl h
    · exact .inr h.2

theorem gives_createChunk (hv : OneName v) :
    Gives v (v.createChunk name offset).2 (.chunk name offset) (v.createChunk name offset).1 := by
  have hopen := opens_openFile (v := v) (hv.created (.chunk name offset))
  refine ⟨?_, ?_, ?_, hopen.lt, hopen.le, hopen.kept⟩
  · rw [file?_chunk, Versions.createChunk, entries_put, if_pos rfl, Option.getD_some,
      AList.lookup_insert]
    rfl
  · intro y hne
    have hsame : v.file? y = (v.openFile (v.chunkFile? name offset)).2.file? y :=
      (file?_congr (dirs_openFile _) y).symm
    rw [hsame]
    cases y with
    | data other =>
        rw [file?_data, file?_data, Versions.createChunk, entries_put]
        split
        · next h =>
          rw [h, entries_openFile]
        · rfl
    | chunk other at_ =>
        rw [file?_chunk, file?_chunk, Versions.createChunk, entries_put]
        split
        · next h =>
          have hat : at_ ≠ offset := fun hat => hne (h ▸ hat ▸ rfl)
          rw [Option.getD_some, AList.lookup_insert_ne hat, h, entries_openFile]
        · rfl
  · rcases hopen.source with h | h
    · exact .inl h
    · exact .inr h.2

theorem Gives.oneName (h : Gives v v' x file) (hv : OneName v) : OneName v' := by
  have hfresh : ∀ y, y ≠ x → v.file? y ≠ some file := by
    intro y hne hy
    rcases h.source with hx | hx
    · exact hne (hv.unique y x file hy hx)
    · exact absurd (hv.created y file hy) (hx ▸ lt_irrefl _)
  constructor
  · intro y f hy
    by_cases hyx : y = x
    · subst hyx
      cases h.named.symm.trans hy
      exact h.lt
    · rw [h.other y hyx] at hy
      exact lt_of_lt_of_le (hv.created y f hy) h.le
  · intro y z f hy hz
    by_cases hyx : y = x <;> by_cases hzx : z = x
    · exact hyx.trans hzx.symm
    · subst hyx
      cases h.named.symm.trans hy
      rw [h.other z hzx] at hz
      exact absurd hz (hfresh z hzx)
    · subst hzx
      cases h.named.symm.trans hz
      rw [h.other y hyx] at hy
      exact absurd hy (hfresh y hyx)
    · rw [h.other y hyx] at hy
      rw [h.other z hzx] at hz
      exact hv.unique y z f hy hz

/-- The file of another name is not the one that is opened. -/
theorem Gives.ne (h : Gives v v' x file) (hv : OneName v) (hne : y ≠ x) {f : FileId}
    (hy : v.file? y = some f) : f ≠ file := by
  rintro rfl
  rcases h.source with hx | hx
  · exact hne (hv.unique y x f hy hx)
  · exact absurd (hv.created y f hy) (hx ▸ lt_irrefl _)

/-! ## The steps of a call -/

/-- The call is at a point where it may go on to change the version's file. -/
def Call.Touches (name : VersionName) (file : FileId) : Call → Prop
  | createData n _ => n = name
  | createOutput n => n = name
  | write f _ _ => f = file
  | listChunks _ f => f = file
  | copy _ f _ _ _ => f = file
  | _ => False

/-- The version's file is the same, with the same bytes. -/
structure Spares (v v' : Versions) (name : VersionName) (file : FileId) : Prop where
  named : v'.file? (.data name) = some file
  kept : v'.files[file]? = v.files[file]?

theorem Gives.spares {f : FileId} (h : Gives v v' x file) (hv : OneName v)
    (hne : .data name ≠ x) (hfile : v.file? (.data name) = some f) : Spares v v' name f :=
  ⟨(h.other _ hne).trans hfile, h.kept f (h.ne hv hne hfile)⟩

theorem spares_of_names (hfile : v.file? (.data name) = some file)
    (hdata : v'.file? (.data name) = v.file? (.data name)) (hfiles : v'.files = v.files) :
    Spares v v' name file :=
  ⟨hdata.trans hfile, by rw [hfiles]⟩

theorem spares_writeAt {f : FileId} (pos : ℕ) (bytes : Content) (hne : f ≠ file)
    (hfile : v.file? (.data name) = some file) : Spares v (v.writeAt f pos bytes) name file := by
  refine ⟨(file?_congr rfl _).trans hfile, ?_⟩
  simp [Versions.writeAt, hne]

/-- The names that a step takes away, or leaves. -/
theorem oneName_of_fewer (hv : OneName v) (hlen : v'.files.length = v.files.length)
    (hnames : ∀ x f, v'.file? x = some f → v.file? x = some f) : OneName v' where
  created x f hx := hlen ▸ hv.created x f (hnames x f hx)
  unique x y f hx hy := hv.unique x y f (hnames x f hx) (hnames y f hy)

theorem oneName_writeAt (hv : OneName v) (pos : ℕ) (bytes : Content) :
    OneName (v.writeAt file pos bytes) := by
  apply oneName_of_fewer hv
  · simp [Versions.writeAt]
  · intro x f hx
    rwa [file?_congr rfl] at hx

theorem file?_makeDir (x : FileName) : (v.put name (v.entries name)).file? x = v.file? x :=
  file?_put rfl (fun _ => rfl) x

theorem file?_makeChunkDir (x : FileName) :
    (v.put name { v.entries name with
      chunks := some (KeyedMap.insertNew ((v.entries name).chunks.getD ∅) offset none) }).file? x =
        v.file? x := by
  refine file?_put (by rfl) ?_ x
  intro at_
  rw [Option.getD_some, KeyedMap.lookup_insertNew, Versions.chunkFile?]
  split
  · next h =>
    subst h
    cases ((v.entries name).chunks.getD ∅).lookup at_ <;> rfl
  · rfl

theorem file?_removeChunks (h : (v.put name { v.entries name with chunks := none }).file? x =
    some file) : v.file? x = some file := by
  cases x with
  | data other =>
      rw [file?_data, entries_put] at h
      split at h
      · next hname => rwa [hname]
      · exact h
  | chunk other offset =>
      rw [file?_chunk, entries_put] at h
      split at h
      · cases h
      · exact h

/-- No step of a call gives a file a second name. -/
theorem oneName_next (hv : OneName v) : OneName (call.next v bytes).2 := by
  cases call with
  | makeDir name data =>
      refine oneName_of_fewer hv (by rfl) ?_
      intro x f hx
      rwa [Call.next, file?_makeDir] at hx
  | lookForData name data =>
      rw [Call.next]
      split <;> exact hv
  | createData name data =>
      rw [Call.next]
      split
      · exact (gives_createData hv).oneName hv
      · exact hv
  | makeChunkDir name offset data =>
      refine oneName_of_fewer hv (by rfl) ?_
      intro x f hx
      rwa [Call.next, file?_makeChunkDir] at hx
  | lookForChunk name offset data =>
      rw [Call.next]
      split <;> exact hv
  | createChunk name offset data =>
      rw [Call.next]
      split
      · exact (gives_createChunk hv).oneName hv
      · exact hv
  | write f pos rest =>
      rw [Call.next]
      split
      · exact hv
      · exact oneName_writeAt hv _ _
  | createOutput name =>
      rw [Call.next]
      split
      · exact (gives_createData hv).oneName hv
      · exact hv
  | listChunks name output =>
      rw [Call.next.eq_def]
      dsimp only
      split <;> exact hv
  | copy name output pos rest offsets =>
      rw [Call.next.eq_def]
      dsimp only
      split
      · exact oneName_writeAt hv _ _
      · split
        · exact hv
        · split <;> exact hv
  | removeChunks name =>
      rw [Call.next]
      dsimp only
      split
      · exact oneName_of_fewer hv (by rfl) fun x f hx => file?_removeChunks hx
      · exact hv
  | returned ok => exact hv

/-- A call that does not touch the version's file does not come to touch it. -/
theorem next_spares (bytes : ℕ) (hv : OneName v) (hfile : v.file? (.data name) = some file)
    (hquiet : ¬ call.Touches name file) :
    Spares v (call.next v bytes).2 name file ∧ ¬ (call.next v bytes).1.Touches name file := by
  have hsame : Spares v v name file := ⟨hfile, rfl⟩
  cases call with
  | makeDir n data =>
      exact ⟨spares_of_names hfile (file?_makeDir _) rfl, fun h => h⟩
  | lookForData n data =>
      rw [Call.next]
      split
      · exact ⟨hsame, fun h => h⟩
      · next hnone =>
        refine ⟨hsame, ?_⟩
        rintro rfl
        rw [file?_data] at hfile
        simp [hfile] at hnone
  | createData n data =>
      have hne : n ≠ name := hquiet
      have hdata : FileName.data name ≠ .data n := by simpa using hne.symm
      rw [Call.next]
      split
      · exact ⟨(gives_createData hv).spares hv hdata hfile,
          ((gives_createData hv).ne hv hdata hfile).symm⟩
      · exact ⟨hsame, fun h => h⟩
  | makeChunkDir n offset data =>
      exact ⟨spares_of_names hfile (file?_makeChunkDir _) rfl, fun h => h⟩
  | lookForChunk n offset data =>
      rw [Call.next]
      split <;> exact ⟨hsame, fun h => h⟩
  | createChunk n offset data =>
      have hdata : FileName.data name ≠ .chunk n offset := by simp
      rw [Call.next]
      split
      · exact ⟨(gives_createChunk hv).spares hv hdata hfile,
          ((gives_createChunk hv).ne hv hdata hfile).symm⟩
      · exact ⟨hsame, fun h => h⟩
  | write f pos rest =>
      have hne : f ≠ file := hquiet
      rw [Call.next]
      split
      · exact ⟨hsame, fun h => h⟩
      · exact ⟨spares_writeAt _ _ hne hfile, hne⟩
  | createOutput n =>
      have hne : n ≠ name := hquiet
      have hdata : FileName.data name ≠ .data n := by simpa using hne.symm
      rw [Call.next]
      split
      · exact ⟨(gives_createData hv).spares hv hdata hfile,
          ((gives_createData hv).ne hv hdata hfile).symm⟩
      · exact ⟨hsame, fun h => h⟩
  | listChunks n output =>
      have hne : output ≠ file := hquiet
      rw [Call.next.eq_def]
      dsimp only
      split
      · exact ⟨hsame, hne⟩
      · exact ⟨hsame, fun h => h⟩
  | copy n output pos rest offsets =>
      have hne : output ≠ file := hquiet
      rw [Call.next.eq_def]
      dsimp only
      split
      · exact ⟨spares_writeAt _ _ hne hfile, hne⟩
      · split
        · exact ⟨hsame, fun h => h⟩
        · split
          · exact ⟨hsame, hne⟩
          · exact ⟨hsame, fun h => h⟩
  | removeChunks n =>
      rw [Call.next]
      refine ⟨?_, fun h => h⟩
      dsimp only
      split
      · refine spares_of_names hfile ?_ rfl
        rw [file?_data, file?_data, entries_put]
        split
        · next h => rw [h]
        · rfl
      · exact hsame
  | returned ok => exact ⟨hsame, fun h => h⟩

/-! ## Removing a directory -/

variable {fault : Option RemoveFault}

theorem entries_removeDirAll (hne : other ≠ name) :
    (removeDirAll v name fault).2.entries other = v.entries other := by
  cases fault with
  | none => simp [removeDirAll, Versions.entries, AList.lookup_erase_ne hne]
  | some fault =>
      rw [removeDirAll]
      dsimp only
      split
      · rw [entries_put, if_neg hne]
      · rfl

@[simp] theorem files_removeDirAll : (removeDirAll v name fault).2.files = v.files := by
  cases fault with
  | none => rfl
  | some fault =>
      rw [removeDirAll]
      dsimp only
      split <;> rfl

@[simp] theorem strays_removeDirAll : (removeDirAll v name fault).2.strays = v.strays := by
  cases fault with
  | none => rfl
  | some fault =>
      rw [removeDirAll]
      dsimp only
      split <;> rfl

/-- What is left of a directory is named as before. -/
theorem left_chunks (fault : RemoveFault)
    (h : (((fault.left entries).chunks.getD ∅).lookup offset).join = some file) :
    ((entries.chunks.getD ∅).lookup offset).join = some file := by
  rw [RemoveFault.left.eq_def] at h
  dsimp only at h
  split at h
  · next kept chunks _ hchunks =>
    rw [Option.getD_some, KeyedMap.lookup_foldl_erase_keys] at h
    split at h
    · cases h
    · rwa [hchunks]
  · cases h

theorem file?_of_removeDirAll {f : FileId}
    (h : (removeDirAll v name fault).2.file? x = some f) : v.file? x = some f := by
  cases fault with
  | none =>
      cases x with
      | data other =>
          by_cases hne : other = name
          · subst hne
            simp [removeDirAll, file?_data, Versions.entries, AList.lookup_erase] at h
          · rwa [file?_data, entries_removeDirAll hne] at h
      | chunk other offset =>
          by_cases hne : other = name
          · subst hne
            simp [removeDirAll, file?_chunk, Versions.entries, AList.lookup_erase] at h
          · rwa [file?_chunk, entries_removeDirAll hne] at h
  | some fault =>
      rw [removeDirAll] at h
      dsimp only at h
      split at h
      · cases x with
        | data other =>
            rw [file?_data, entries_put] at h
            split at h
            · next hname =>
              rw [RemoveFault.left] at h
              dsimp only at h
              split at h
              · rwa [hname]
              · cases h
            · exact h
        | chunk other offset =>
            rw [file?_chunk, entries_put] at h
            split at h
            · next hname =>
              rw [file?_chunk, hname]
              exact left_chunks fault h
            · exact h
      · exact h

theorem oneName_removeDirAll (hv : OneName v) : OneName (removeDirAll v name fault).2 :=
  oneName_of_fewer hv (by rw [files_removeDirAll]) fun _ _ hx => file?_of_removeDirAll hx

/-! ## Runs -/

variable {hashBuffer : Content → String} {s s₀ s' : State} {data : Content} {action : Action}
  {actions before : List Action}

/-- The version's file holds data that hash to its name, no call is at a point where it may
change it, and no cleaning is about to remove it. -/
structure Settled (hashBuffer : Content → String) (s : State) (name : VersionName)
    (file : FileId) (data : Content) : Prop where
  file_eq : s.versions.file? (.data name) = some file
  data_eq : s.versions.files[file]? = some data
  hash_eq : hashBuffer data = expectedHash name
  quiet : ∀ call ∈ s.calls, ¬ call.Touches name file
  spared : name ∉ s.condemned

/-- The action neither starts to combine the version's chunks nor fails to read the version. -/
def Action.Spares (name : VersionName) (action : Action) : Prop :=
  action ≠ .begins (.combineVersionChunks name) ∧ action ≠ .check name false

theorem Settled.data? (h : Settled hashBuffer s name file data) :
    s.versions.data? name = some data := by
  have hfile := h.file_eq
  rw [file?_data] at hfile
  simp [Versions.data?, hfile, h.data_eq]

/-- A version that can be read and hashes to its name passes the check. -/
theorem Settled.checkVersion (h : Settled hashBuffer s name file data) :
    checkVersion hashBuffer s.versions name true = .good := by
  simp [CleanVersions.checkVersion, h.data?, h.hash_eq]

theorem oneName_step (h : Step hashBuffer action s s') (hs : OneName s.versions) :
    OneName s'.versions := by
  cases action with
  | begins request =>
      cases h
      exact hs
  | next i bytes =>
      rcases Option.map_eq_some_iff.mp h with ⟨call, -, rfl⟩
      exact oneName_next hs
  | fail i =>
      rcases Option.map_eq_some_iff.mp h with ⟨call, -, rfl⟩
      exact hs
  | check n readable =>
      cases h
      split <;> exact hs
  | remove n fault =>
      rw [Step, State.step] at h
      split at h
      · cases h
        exact oneName_removeDirAll hs
      · cases h

theorem settled_step (h : Step hashBuffer action s s') (hs : OneName s.versions)
    (haction : action.Spares name) (hsettled : Settled hashBuffer s name file data) :
    Settled hashBuffer s' name file data := by
  cases action with
  | begins request =>
      cases h
      refine { hsettled with quiet := ?_ }
      intro call hcall
      rcases List.mem_append.mp hcall with hcall | hcall
      · exact hsettled.quiet call hcall
      · rw [List.mem_singleton.mp hcall]
        cases request with
        | storeVersion n data => exact fun h => h
        | storeVersionChunk n offset data => exact fun h => h
        | combineVersionChunks n =>
            intro hname
            have hname : n = name := hname
            exact haction.1 (by rw [hname])
  | next i bytes =>
      rcases Option.map_eq_some_iff.mp h with ⟨call, hcall, rfl⟩
      have hnext := next_spares bytes hs hsettled.file_eq
        (hsettled.quiet call (List.mem_of_getElem? hcall))
      refine ⟨hnext.1.named, hnext.1.kept.trans hsettled.data_eq, hsettled.hash_eq, ?_,
        hsettled.spared⟩
      intro c hc
      rcases List.mem_or_eq_of_mem_set hc with hc | rfl
      · exact hsettled.quiet c hc
      · exact hnext.2
  | fail i =>
      rcases Option.map_eq_some_iff.mp h with ⟨call, -, rfl⟩
      refine { hsettled with quiet := ?_ }
      intro c hc
      rcases List.mem_or_eq_of_mem_set hc with hc | rfl
      · exact hsettled.quiet c hc
      · exact fun h => h
  | check n readable =>
      cases h
      split
      · exact hsettled
      · next hbad =>
        refine { hsettled with spared := ?_ }
        intro hmem
        rcases List.mem_cons.mp hmem with rfl | hmem
        · cases readable with
          | false => exact haction.2 rfl
          | true => exact hbad hsettled.checkVersion
        · exact hsettled.spared hmem
  | remove n fault =>
      rw [Step, State.step] at h
      split at h
      · next hmem =>
        cases h
        have hne : name ≠ n := fun heq => hsettled.spared (heq ▸ hmem)
        refine ⟨?_, ?_, hsettled.hash_eq, hsettled.quiet, ?_⟩
        · rw [file?_data, entries_removeDirAll hne]
          exact hsettled.file_eq
        · rw [files_removeDirAll]
          exact hsettled.data_eq
        · exact fun hin => hsettled.spared (List.mem_of_mem_erase hin)
      · cases h

theorem oneName_run (h : Run (Step hashBuffer) actions s s') (hs : OneName s.versions) :
    OneName s'.versions := by
  induction h with
  | nil s => exact hs
  | cons hstep _ ih => exact ih (oneName_step hstep hs)

theorem settled_run (h : Run (Step hashBuffer) actions s s') (hs : OneName s.versions)
    (hspares : ∀ a ∈ actions, a.Spares name) (hsettled : Settled hashBuffer s name file data) :
    Settled hashBuffer s' name file data := by
  induction h with
  | nil s => exact hsettled
  | cons hstep hrest ih =>
      have hfirst := hspares _ List.mem_cons_self
      apply ih (oneName_step hstep hs) (fun a ha => hspares a (List.mem_cons_of_mem _ ha))
      exact settled_step hstep hs hfirst hsettled

/-- Whatever calls and cleanings do, in any order, a version stays whole that was whole when no
call was about to change it, and that no cleaning had found bad before. -/
theorem settled_survives (hstart : OneName s₀.versions)
    (hbefore : Run (Step hashBuffer) before s₀ s)
    (hsettled : Settled hashBuffer s name file data)
    (h : Run (Step hashBuffer) actions s s') (hspares : ∀ a ∈ actions, a.Spares name) :
    s'.versions.data? name = some data :=
  (settled_run h (oneName_run hbefore hstart) hspares hsettled).data?

/-! The store is empty at first. One version is stored, and a cleaning that comes then removes
another one, of which a chunk is being uploaded, while the first is stored again. -/

namespace CleanExample

def photo : VersionName := ("ab", "cd")

def draft : VersionName := ("ab", "ce")

def hashOf (bytes : Content) : String := if bytes = [1, 2] then expectedHash photo else ""

def empty : State := { versions := {} }

theorem oneName_empty : OneName empty.versions where
  created x _ h := by cases x <;> cases h
  unique x _ _ h := by cases x <;> cases h

def storing : List Action :=
  [.begins (.storeVersion photo [1, 2]), .next 0 0, .next 0 0, .next 0 0, .next 0 1, .next 0 1,
    .next 0 0]

def cleaning : List Action :=
  [.begins (.storeVersionChunk draft 0 [3]), .next 1 0, .begins (.storeVersion photo [1, 2]),
    .check draft true, .next 2 0, .check photo true, .remove draft none, .next 2 0,
    .next 1 0]

def stored : State := (follow (fun action s => s.step hashOf action) storing empty).getD empty

def cleaned : State := (follow (fun action s => s.step hashOf action) cleaning stored).getD stored

theorem storing_run : Run (Step hashOf) storing empty stored := run_of_follow rfl

theorem cleaning_run : Run (Step hashOf) cleaning stored cleaned := run_of_follow rfl

theorem settled : Settled hashOf stored photo 0 [1, 2] where
  file_eq := rfl
  data_eq := rfl
  hash_eq := rfl
  quiet call h := by
    have hcall : call = .returned true := List.mem_singleton.mp h
    rw [hcall]
    exact fun h => h
  spared := List.not_mem_nil

theorem spares : ∀ a ∈ cleaning, a.Spares photo := by
  simp [cleaning, Action.Spares, photo, draft]

end CleanExample

open CleanExample in
theorem settled_survives_cleaning :
    cleaned.versions.dirs.lookup draft = none ∧
      cleaned.versions.data? photo = some [1, 2] :=
  ⟨rfl, settled_survives oneName_empty storing_run settled cleaning_run spares⟩

/-! ## A cleaning by itself -/

variable {dryRun : Bool} {faults : CleanFaults} {stats : CleanCorruptedVersionsResult}
  {listed : List VersionName}

/-- What the check of a version finds in this cleaning. -/
def verdict (hashBuffer : Content → String) (faults : CleanFaults) (v : Versions)
    (name : VersionName) : Verdict :=
  checkVersion hashBuffer v name (faults.readable name)

/-- What a cleaning makes of the directory of a version. -/
def leaves (hashBuffer : Content → String) (dryRun : Bool) (faults : CleanFaults) (v : Versions)
    (name : VersionName) : Option VersionEntries :=
  if dryRun ∨ verdict hashBuffer faults v name = .good then v.dirs.lookup name
  else (faults.remove name).bind fun fault => (v.dirs.lookup name).map fault.left

/-- What a cleaning of the listed versions does and reports. -/
structure Cleans (hashBuffer : Content → String) (dryRun : Bool) (faults : CleanFaults)
    (v : Versions) (stats : CleanCorruptedVersionsResult) (listed : List VersionName)
    (out : Versions × CleanCorruptedVersionsResult) : Prop where
  files : out.1.files = v.files
  strays : out.1.strays = v.strays
  dirs : ∀ name, out.1.dirs.lookup name =
    if name ∈ listed then leaves hashBuffer dryRun faults v name else v.dirs.lookup name
  scanned : out.2.scanned =
    stats.scanned + listed.countP (verdict hashBuffer faults v · ≠ .unreadable)
  corrupted : out.2.corrupted =
    stats.corrupted + listed.countP (verdict hashBuffer faults v · = .corrupted)
  cleaned : out.2.cleaned = stats.cleaned +
    listed.countP fun name =>
      dryRun = false ∧ verdict hashBuffer faults v name ≠ .good ∧ (faults.remove name).isNone
  errors : out.2.errors = stats.errors +
    (listed.countP (verdict hashBuffer faults v · = .unreadable) +
      listed.countP fun name =>
        dryRun = false ∧ verdict hashBuffer faults v name = .corrupted ∧
          (faults.remove name).isSome)

theorem lookup_removeDirAll (n : VersionName) :
    (removeDirAll v name fault).2.dirs.lookup n =
      if n = name then fault.bind fun fault => (v.dirs.lookup name).map fault.left
      else v.dirs.lookup n := by
  cases fault with
  | none =>
      by_cases hn : n = name
      · subst hn
        simp [removeDirAll, AList.lookup_erase]
      · simp [removeDirAll, hn, AList.lookup_erase_ne hn]
  | some fault =>
      rw [removeDirAll]
      dsimp only
      by_cases hmem : name ∈ v.dirs
      · rw [if_pos hmem]
        by_cases hn : n = name
        · subst hn
          rcases Option.isSome_iff_exists.mp (AList.lookup_isSome.mpr hmem) with ⟨old, hold⟩
          simp [Versions.put, Versions.entries, hold]
        · simp [Versions.put, hn, AList.lookup_insert_ne hn]
      · rw [if_neg hmem]
        split
        · next hn =>
          subst hn
          simp [AList.lookup_eq_none.mpr hmem]
        · rfl

/-- The check of a version sees its own directory only. -/
theorem checkVersion_congr {readable : Bool} (hdir : v'.dirs.lookup name = v.dirs.lookup name)
    (hfiles : v'.files = v.files) :
    checkVersion hashBuffer v' name readable = checkVersion hashBuffer v name readable := by
  simp only [checkVersion, Versions.data?, Versions.entries, hdir, hfiles]

/-- The directories after the removal of a version that is not good. -/
theorem lookup_removed (hbad : verdict hashBuffer faults v name ≠ .good) (n : VersionName) :
    (removeDirAll v name (faults.remove name)).2.dirs.lookup n =
      if n ∈ [name] then leaves hashBuffer false faults v n else v.dirs.lookup n := by
  rw [lookup_removeDirAll]
  by_cases hn : n = name
  · subst hn
    simp [leaves, hbad]
  · simp [hn]

theorem lookup_kept (hkept : dryRun ∨ verdict hashBuffer faults v name = .good)
    (n : VersionName) : v.dirs.lookup n =
      if n ∈ [name] then leaves hashBuffer dryRun faults v n else v.dirs.lookup n := by
  by_cases hn : n = name
  · subst hn
    rw [if_pos List.mem_cons_self, leaves, if_pos hkept]
  · simp [hn]

theorem cleans_one (hmem : name ∈ v.dirs) : Cleans hashBuffer dryRun faults v stats [name]
    (cleanVersion hashBuffer dryRun faults (v, stats) name) := by
  have hremoved : (removeDirAll v name (faults.remove name)).1 = (faults.remove name).isNone := by
    cases faults.remove name with
    | none => simpa [removeDirAll] using AList.lookup_isSome.mpr hmem
    | some fault => rfl
  have hverdict : checkVersion hashBuffer v name (faults.readable name) =
    verdict hashBuffer faults v name := rfl
  rw [cleanVersion.eq_def]
  dsimp only
  rw [hverdict, hremoved]
  cases hcheck : verdict hashBuffer faults v name with
  | good =>
      constructor
      case dirs => exact lookup_kept (.inr hcheck)
      all_goals simp [hcheck]
  | corrupted =>
      cases dryRun with
      | true =>
          constructor
          case dirs => exact lookup_kept (.inl rfl)
          all_goals simp [hcheck]
      | false =>
          have hgone := lookup_removed (by rw [hcheck]; decide)
          cases hfault : faults.remove name <;> rw [hfault] at hgone <;> constructor
          case none.dirs | some.dirs => exact hgone
          all_goals simp [hcheck, hfault]
  | unreadable =>
      cases dryRun with
      | true =>
          constructor
          case dirs => exact lookup_kept (.inl rfl)
          all_goals simp [hcheck]
      | false =>
          have hgone := lookup_removed (by rw [hcheck]; decide)
          cases hfault : faults.remove name <;> rw [hfault] at hgone <;> constructor
          case none.dirs | some.dirs => exact hgone
          all_goals simp [hcheck, hfault]

theorem Cleans.cons {middle out : Versions × CleanCorruptedVersionsResult}
    (hnot : name ∉ listed) (h : Cleans hashBuffer dryRun faults v stats [name] middle)
    (hrest : Cleans hashBuffer dryRun faults middle.1 middle.2 listed out) :
    Cleans hashBuffer dryRun faults v stats (name :: listed) out := by
  have hdir : ∀ n ∈ listed, middle.1.dirs.lookup n = v.dirs.lookup n := by
    intro n hn
    have hne : n ≠ name := fun heq => hnot (heq ▸ hn)
    rw [h.dirs, if_neg (by simpa using hne)]
  have hverdict : ∀ n ∈ listed,
      verdict hashBuffer faults middle.1 n = verdict hashBuffer faults v n :=
    fun n hn => checkVersion_congr (hdir n hn) h.files
  have hleaves : ∀ n ∈ listed,
      leaves hashBuffer dryRun faults middle.1 n = leaves hashBuffer dryRun faults v n := by
    intro n hn
    rw [leaves, leaves, hdir n hn, hverdict n hn]
  have hcount : ∀ p : VersionName → Verdict → Bool,
      listed.countP (fun n => p n (verdict hashBuffer faults middle.1 n)) =
        listed.countP fun n => p n (verdict hashBuffer faults v n) := by
    intro p
    apply List.countP_congr
    intro n hn
    rw [hverdict n hn]
  constructor
  · rw [hrest.files, h.files]
  · rw [hrest.strays, h.strays]
  · intro n
    rw [hrest.dirs]
    by_cases hn : n ∈ listed
    · rw [if_pos hn, if_pos (List.mem_cons_of_mem _ hn), hleaves n hn]
    · rw [if_neg hn, h.dirs]
      simp [hn]
  · have hone := h.scanned
    rw [List.countP_singleton] at hone
    rw [hrest.scanned, hone, hcount fun _ found => found ≠ .unreadable, List.countP_cons]
    omega
  · have hone := h.corrupted
    rw [List.countP_singleton] at hone
    rw [hrest.corrupted, hone, hcount fun _ found => found = .corrupted, List.countP_cons]
    omega
  · have hone := h.cleaned
    rw [List.countP_singleton] at hone
    rw [hrest.cleaned, hone,
      hcount fun n found => dryRun = false ∧ found ≠ .good ∧ (faults.remove n).isNone,
      List.countP_cons]
    omega
  · have hone := h.errors
    rw [List.countP_singleton, List.countP_singleton] at hone
    rw [hrest.errors, hone, hcount fun _ found => found = .unreadable,
      hcount fun n found => dryRun = false ∧ found = .corrupted ∧ (faults.remove n).isSome,
      List.countP_cons, List.countP_cons]
    omega

theorem cleans_foldl (hnodup : listed.Nodup) (hmem : ∀ name ∈ listed, name ∈ v.dirs) :
    Cleans hashBuffer dryRun faults v stats listed
      (listed.foldl (cleanVersion hashBuffer dryRun faults) (v, stats)) := by
  induction listed generalizing v stats with
  | nil => constructor <;> simp
  | cons name listed ih =>
      have hnot := (List.nodup_cons.mp hnodup).1
      have hfirst : Cleans hashBuffer dryRun faults v stats [name]
          (cleanVersion hashBuffer dryRun faults (v, stats) name) :=
        cleans_one (hmem name List.mem_cons_self)
      apply hfirst.cons hnot
      apply ih (List.nodup_cons.mp hnodup).2
      intro n hn
      have hne : n ≠ name := fun heq => hnot (heq ▸ hn)
      rw [← AList.lookup_isSome, hfirst.dirs, if_neg (by simpa using hne), AList.lookup_isSome]
      exact hmem n (List.mem_cons_of_mem _ hn)

/-- A cleaning by itself, in whatever order it finds the versions: of the directories just those
stay whose data hash to their name, or whose removal fails, and the report counts all of it. A
dry run leaves everything. -/
theorem cleanCorruptedVersions_exact (hlisted : listed.Perm v.dirs.keys) :
    Cleans hashBuffer dryRun faults v { errors := v.strays.length } v.dirs.keys
      (cleanCorruptedVersions hashBuffer dryRun faults v listed) := by
  have hnodup : listed.Nodup := hlisted.nodup_iff.mpr v.dirs.nodupKeys
  have h : Cleans hashBuffer dryRun faults v { errors := v.strays.length } listed
      (cleanCorruptedVersions hashBuffer dryRun faults v listed) :=
    cleans_foldl hnodup fun name hname => hlisted.subset hname
  constructor
  · exact h.files
  · exact h.strays
  · intro name
    simp only [h.dirs, hlisted.mem_iff]
  · rw [h.scanned, hlisted.countP_eq]
  · rw [h.corrupted, hlisted.countP_eq]
  · rw [h.cleaned, hlisted.countP_eq]
  · rw [h.errors, hlisted.countP_eq, hlisted.countP_eq]

/-- A store with one good version and one whose data do not hash to its name. -/
def CleanExample.mixed : Versions where
  dirs := (AList.singleton CleanExample.photo { data := some 0 }).insert CleanExample.draft
    { data := some 1 }
  files := [[1, 2], [3]]

open CleanExample in
theorem cleanCorruptedVersions_exact_example :
    Cleans hashOf false {} mixed { errors := 0 } mixed.dirs.keys
        (cleanCorruptedVersions hashOf false {} mixed [photo, draft]) ∧
      (cleanCorruptedVersions hashOf false {} mixed [photo, draft]).2 = ⟨2, 1, 1, 0⟩ :=
  ⟨cleanCorruptedVersions_exact (List.Perm.swap _ _ _), rfl⟩

/-- The check and the removal of one version, with nothing in between. -/
theorem cleanVersion_run (s : State) (name : VersionName) :
    ∃ actions, Run (Step hashBuffer) actions s
      { s with versions := (cleanVersion hashBuffer false faults (s.versions, stats) name).1 } := by
  have hremove : Run (Step hashBuffer) [.remove name (faults.remove name)]
      { s with condemned := name :: s.condemned }
      { s with versions := (removeDirAll s.versions name (faults.remove name)).2 } :=
    .cons (by simp [Step, State.step]) (.nil _)
  have hverdict : checkVersion hashBuffer s.versions name (faults.readable name) =
    verdict hashBuffer faults s.versions name := rfl
  by_cases hgood : verdict hashBuffer faults s.versions name = .good
  · refine ⟨[], ?_⟩
    have hsame :
        (cleanVersion hashBuffer false faults (s.versions, stats) name).1 = s.versions := by
      rw [cleanVersion.eq_def]
      simp [hverdict, hgood]
    rw [hsame]
    exact .nil s
  · refine ⟨[.check name (faults.readable name), .remove name (faults.remove name)], ?_⟩
    have hremoved : (cleanVersion hashBuffer false faults (s.versions, stats) name).1 =
        (removeDirAll s.versions name (faults.remove name)).2 := by
      rw [cleanVersion.eq_def]
      dsimp only
      rw [hverdict]
      cases hcheck : verdict hashBuffer faults s.versions name with
      | good => exact absurd hcheck hgood
      | corrupted => cases (removeDirAll s.versions name (faults.remove name)).1 <;> rfl
      | unreadable => cases (removeDirAll s.versions name (faults.remove name)).1 <;> rfl
    rw [hremoved]
    apply Run.cons ?_ hremove
    rw [Step, State.step, hverdict, if_neg hgood]

theorem foldl_cleanVersion_run (s : State) (stats : CleanCorruptedVersionsResult)
    (listed : List VersionName) :
    ∃ actions, Run (Step hashBuffer) actions s
      { s with versions :=
        (listed.foldl (cleanVersion hashBuffer false faults) (s.versions, stats)).1 } := by
  induction listed generalizing s stats with
  | nil => exact ⟨[], .nil s⟩
  | cons name listed ih =>
      rcases cleanVersion_run s name with ⟨first, hfirst⟩
      rcases ih { s with
        versions := (cleanVersion hashBuffer false faults (s.versions, stats) name).1 }
        (cleanVersion hashBuffer false faults (s.versions, stats) name).2 with ⟨rest, hrest⟩
      exact ⟨first ++ rest, hfirst.append hrest⟩

/-- A cleaning by itself is a run of checks and removals. -/
theorem cleanCorruptedVersions_run (s : State) (listed : List VersionName) :
    ∃ actions, Run (Step hashBuffer) actions s
      { s with versions :=
        (cleanCorruptedVersions hashBuffer false faults s.versions listed).1 } :=
  foldl_cleanVersion_run s _ listed

end CleanVersions

end Oxen
