import Oxen.Verification.Import.ZipEntries

/-! Which zip archives are extracted in bounds and without loss. -/

namespace Oxen

namespace Zip

open OsPath

variable {mangledName : String → String} {parent : List String}

/-! ## Containment -/

/-- The directories down to the archive are there, and outside of it nothing has changed. -/
structure Inside (parent : List String) (disk : Disk) (state : Extraction) : Prop where
  dirs : ∀ place, place <+: parent → state.disk.lookup place = some .dir
  outside : ∀ place, ¬ parent <+: place → state.disk.lookup place = disk.lookup place
  writes : ∀ write ∈ state.writes, parent <+: write.1

theorem prefix_of_outPlace {entry : Entry} {place : List String}
    (h : outPlace mangledName parent entry = some place) : parent <+: place := by
  rcases Option.map_eq_some_iff.mp h with ⟨names, -, rfl⟩
  exact List.prefix_append _ _

/-- Directories above a place inside are new only if they are inside. -/
theorem Created.lookup_eq {disk disk' : Disk} {place dir q : List String}
    (h : Created disk disk' dir) (hdirs : ∀ place, place <+: parent → disk.lookup place = some .dir)
    (hplace : parent <+: place) (hdir : dir <+: place) (hq : ¬ parent <+: q ∨ q = parent) :
    disk'.lookup q = disk.lookup q := by
  by_cases hqdir : q <+: dir
  · have habove : q <+: parent := by
      rcases hq with hq | rfl
      · exact (List.prefix_or_prefix_of_prefix (hqdir.trans hdir) hplace).resolve_right hq
      · exact List.prefix_refl q
    rw [hdirs q habove, h.lookup_of_some (hdirs q habove)]
  · exact h.lookup_of_not_prefix hqdir

/-- The extraction of an entry changes nothing down to the directory or outside of it. -/
theorem lookup_extractEntry {state : Extraction} {entry : Entry} {q : List String}
    (hdirs : ∀ place, place <+: parent → state.disk.lookup place = some .dir)
    (hq : ¬ parent <+: q ∨ q = parent) :
    (extractEntry mangledName parent state entry).2.disk.lookup q = state.disk.lookup q := by
  have hextracts := extracts_extractEntry mangledName parent state entry
  generalize extractEntry mangledName parent state entry = result at hextracts
  cases hextracts with
  | nothing e hnot => rfl
  | dirsOnly e place disk' hnot hplace hcreated =>
      exact hcreated.lookup_eq hdirs (prefix_of_outPlace hplace) (List.dropLast_prefix place) hq
  | dir place disk₁ disk' hcreatable hdir hplace hcreated hcreated' =>
      have hdirs₁ : ∀ place, place <+: parent → disk₁.lookup place = some .dir :=
        fun q hqparent => hcreated.lookup_of_some (hdirs q hqparent)
      have hinside := prefix_of_outPlace hplace
      have hlast := hcreated'.lookup_eq hdirs₁ hinside (List.prefix_refl place) hq
      exact hlast.trans (hcreated.lookup_eq hdirs hinside (List.dropLast_prefix place) hq)
  | file place disk' state' hcreatable hfile hplace hcreated hdisk =>
      have hself : q ≠ place := by
        rintro rfl
        have hparent : q = parent := hq.resolve_left (not_not.mpr (prefix_of_outPlace hplace))
        rcases hcreatable with ⟨other, hother, hcreatable⟩
        rw [hplace] at hother
        rw [if_neg (by simp [hfile]), ← Option.some.inj hother] at hcreatable
        exact hcreatable.2.2 (hdirs q (by rw [hparent]))
      rw [hdisk, if_neg hself]
      exact hcreated.lookup_eq hdirs (prefix_of_outPlace hplace) (List.dropLast_prefix place) hq

theorem writes_extractEntry (state : Extraction) (entry : Entry) :
    ∀ write ∈ (extractEntry mangledName parent state entry).2.writes,
      write ∈ state.writes ∨ parent <+: write.1 := by
  have hextracts := extracts_extractEntry mangledName parent state entry
  generalize extractEntry mangledName parent state entry = result at hextracts
  intro write hwrite
  cases hextracts with
  | nothing e hnot => exact .inl hwrite
  | dirsOnly e place disk' hnot hplace hcreated => exact .inl hwrite
  | dir place disk₁ disk' hcreatable hdir hplace hcreated => exact .inl hwrite
  | file place disk' state' hcreatable hfile hplace hcreated hdisk hfiles hwrites =>
      rw [hwrites] at hwrite
      rcases List.mem_append.mp hwrite with hwrite | hwrite
      · exact .inl hwrite
      · rcases List.mem_map.mp hwrite with ⟨chunk, -, rfl⟩
        exact .inr (prefix_of_outPlace hplace)

variable (mangledName) in
theorem Inside.extractEntry {disk : Disk} {state : Extraction} (h : Inside parent disk state)
    (entry : Entry) : Inside parent disk (extractEntry mangledName parent state entry).2 := by
  constructor
  · intro place hplace
    have hq : ¬ parent <+: place ∨ place = parent := by
      by_cases hparent : parent <+: place
      · exact .inr (hplace.eq_of_length_le hparent.length_le)
      · exact .inl hparent
    rw [lookup_extractEntry h.dirs hq]
    exact h.dirs place hplace
  · intro place hplace
    rw [lookup_extractEntry h.dirs (.inl hplace)]
    exact h.outside place hplace
  · intro write hwrite
    rcases writes_extractEntry state entry write hwrite with hold | hnew
    · exact h.writes write hold
    · exact hnew

variable (mangledName) in
theorem Inside.extractAll {disk : Disk} {state : Extraction} (h : Inside parent disk state)
    (entries : List Entry) :
    Inside parent disk (extractAll mangledName parent state entries).2 := by
  induction entries generalizing state with
  | nil => exact h
  | cons entry entries ih =>
      have hstep := h.extractEntry mangledName entry
      rw [Zip.extractAll]
      cases hresult : Zip.extractEntry mangledName parent state entry with
      | mk result state' =>
          rw [hresult] at hstep
          cases result with
          | error e => exact hstep
          | ok u => exact ih hstep

/-! ## What the extraction comes to -/

/-- The same things are files and directories. -/
def SameShape (disk disk' : Disk) : Prop :=
  ∀ place, (disk.lookup place = none ↔ disk'.lookup place = none) ∧
    (disk.lookup place = some .dir ↔ disk'.lookup place = some .dir)

theorem SameShape.refl (disk : Disk) : SameShape disk disk :=
  fun _ => ⟨Iff.rfl, Iff.rfl⟩

theorem free_iff {disk : Disk} {dir : List String} :
    Free disk dir ↔
      ∀ place, place <+: dir → disk.lookup place = none ∨ disk.lookup place = some .dir := by
  refine forall₂_congr fun place _ => ?_
  cases disk.lookup place with
  | none => simp
  | some data => cases data <;> simp

theorem SameShape.free {disk disk' : Disk} (h : SameShape disk disk') (dir : List String) :
    Free disk dir ↔ Free disk' dir := by
  simp only [free_iff, (h _).1, (h _).2]

theorem SameShape.makeable {disk disk' : Disk} (h : SameShape disk disk') (dir : List String) :
    Makeable disk dir ↔ Makeable disk' dir := by
  simp only [Makeable, h.free, ne_eq, (h _).1]

theorem SameShape.created {disk₁ disk₂ disk₁' disk₂' : Disk} {dir : List String}
    (h : SameShape disk₁ disk₂) (h₁ : Created disk₁ disk₁' dir) (h₂ : Created disk₂ disk₂' dir) :
    SameShape disk₁' disk₂' := by
  intro q
  rw [h₁.lookup, h₂.lookup]
  simp only [(h dir).1]
  split
  · simp
  · exact h q

theorem SameShape.creatable {disk disk' : Disk} (h : SameShape disk disk') (entry : Entry) :
    Creatable mangledName parent disk entry ↔ Creatable mangledName parent disk' entry := by
  simp only [Creatable, h.free, h.makeable, ne_eq, (h _).2]

def Entry.readsThrough (entry : Entry) : Bool :=
  entry.isDir || !entry.broken

/-- What an entry writes. -/
def Entry.bytes (entry : Entry) : ℕ :=
  if entry.isDir then 0 else entry.content.length

/-- The entries that are created, up to the first that can not be created or read through. That
does not depend on what they hold. -/
def reached (mangledName : String → String) (parent : List String) (disk : Disk) :
    List Entry → List Entry
  | [] => []
  | entry :: entries =>
      match createOutput mangledName parent disk entry with
      | (.error _, _) => []
      | (.ok _, disk) =>
          entry :: if entry.readsThrough then reached mangledName parent disk entries else []

def written (state : Extraction) : ℕ :=
  (state.writes.map fun write => write.2.length).sum

theorem written_extractEntry_of_creatable {state : Extraction} {entry : Entry}
    (h : Creatable mangledName parent state.disk entry) :
    written (extractEntry mangledName parent state entry).2 = written state + entry.bytes := by
  have hextracts := extracts_extractEntry mangledName parent state entry
  generalize extractEntry mangledName parent state entry = result at hextracts
  cases hextracts with
  | nothing e hnot => exact absurd h hnot
  | dirsOnly e place disk' hnot hplace hcreated => exact absurd h hnot
  | dir place disk₁ disk' hcreatable hdir hplace hcreated => simp [written, Entry.bytes, hdir]
  | file place disk' state' hcreatable hfile hplace hcreated hdisk hfiles hwrites =>
      simp [written, Entry.bytes, hfile, hwrites, Entry.content, List.length_flatten,
        Function.comp_def]

variable (mangledName parent) in
theorem isOk_extractEntry (state : Extraction) (entry : Entry) :
    (extractEntry mangledName parent state entry).1.isOk ↔
      Creatable mangledName parent state.disk entry ∧ entry.readsThrough = true := by
  have hextracts := extracts_extractEntry mangledName parent state entry
  generalize extractEntry mangledName parent state entry = result at hextracts
  cases hextracts with
  | nothing e hnot => simp [hnot, Except.isOk, Except.toBool]
  | dirsOnly e place disk' hnot hplace hcreated => simp [hnot, Except.isOk, Except.toBool]
  | dir place disk₁ disk' hcreatable hdir hplace hcreated =>
      simp [hcreatable, hdir, Entry.readsThrough, Except.isOk, Except.toBool]
  | file place disk' state' hcreatable hfile hplace hcreated hdisk hfiles hwrites =>
      cases hbroken : entry.broken with
      | true => simp [hfile, Entry.readsThrough, hbroken, Except.isOk, Except.toBool]
      | false => simp [hcreatable, Entry.readsThrough, hbroken, Except.isOk, Except.toBool]

theorem extractEntry_of_not_creatable {state : Extraction} {entry : Entry}
    (h : ¬ Creatable mangledName parent state.disk entry) :
    ∃ e disk', extractEntry mangledName parent state entry =
      (.error e, { state with disk := disk' }) := by
  have hextracts := extracts_extractEntry mangledName parent state entry
  generalize extractEntry mangledName parent state entry = result at hextracts ⊢
  cases hextracts with
  | nothing e hnot => exact ⟨e, state.disk, rfl⟩
  | dirsOnly e place disk' hnot hplace hcreated => exact ⟨e, disk', rfl⟩
  | dir place disk₁ disk' hcreatable => exact absurd hcreatable h
  | file place disk' state' hcreatable => exact absurd hcreatable h

/-- An entry can be created on disks of the same shape alike, which leaves them so. -/
theorem sameShape_createOutput (state : Extraction) {disk : Disk}
    (hshape : SameShape state.disk disk) {entry : Entry}
    (h : Creatable mangledName parent state.disk entry) :
    ∃ path disk', createOutput mangledName parent disk entry = (.ok path, disk') ∧
      SameShape (extractEntry mangledName parent state entry).2.disk disk' := by
  have hcreates := creates_createOutput mangledName parent disk entry
  have hextracts := extracts_extractEntry mangledName parent state entry
  have h' := (hshape.creatable entry).mp h
  generalize extractEntry mangledName parent state entry = result at hextracts
  generalize createOutput mangledName parent disk entry = result' at hcreates
  cases hextracts with
  | nothing e hnot => exact absurd h hnot
  | dirsOnly e place disk' hnot => exact absurd h hnot
  | dir place disk₁ disk₂ hcreatable hdir hplace hcreated hcreated₂ =>
      cases hcreates with
      | nothing e hnot => exact absurd h' hnot
      | dirsOnly e place' disk' hnot => exact absurd h' hnot
      | dir place' disk₁' disk₂' hdir' hplace' hcreated' hcreated₂' =>
          rw [hplace] at hplace'
          cases hplace'
          exact ⟨_, disk₂', rfl, (hshape.created hcreated hcreated').created hcreated₂ hcreated₂'⟩
      | file place' disk' hfile => simp [hdir] at hfile
  | file place disk₁ state' hcreatable hfile hplace hcreated hdisk hfiles hwrites =>
      cases hcreates with
      | nothing e hnot => exact absurd h' hnot
      | dirsOnly e place' disk' hnot => exact absurd h' hnot
      | dir place' disk₁' disk' hdir' => simp [hfile] at hdir'
      | file place' disk' hfile' hplace' hcreated' hparent hne hlookup =>
          rw [hplace] at hplace'
          cases hplace'
          refine ⟨_, _, rfl, fun q => ?_⟩
          rw [hdisk]
          by_cases hq : q = place
          · subst hq
            rw [AList.lookup_insert]
            simp
          · rw [AList.lookup_insert_ne hq, if_neg hq]
            exact hshape.created hcreated hcreated' q

theorem reached_of_not_creatable {disk : Disk} {entry : Entry} (entries : List Entry)
    (h : ¬ Creatable mangledName parent disk entry) :
    reached mangledName parent disk (entry :: entries) = [] := by
  have hcreates := creates_createOutput mangledName parent disk entry
  rw [← hcreates.creatable_iff] at h
  rw [reached]
  cases hresult : createOutput mangledName parent disk entry with
  | mk result disk' =>
      rw [hresult] at h
      cases result with
      | error e => rfl
      | ok path => exact absurd rfl h

variable (mangledName parent) in
theorem written_extractAll (state : Extraction) {disk : Disk} (hshape : SameShape state.disk disk)
    (entries : List Entry) :
    written (extractAll mangledName parent state entries).2 =
      written state + ((reached mangledName parent disk entries).map Entry.bytes).sum := by
  induction entries generalizing state disk with
  | nil => simp [extractAll, reached]
  | cons entry entries ih =>
      by_cases hcreatable : Creatable mangledName parent state.disk entry
      · rcases sameShape_createOutput state hshape hcreatable with ⟨path, disk', hcreate, hshape'⟩
        have hwritten := written_extractEntry_of_creatable hcreatable
        have hok := isOk_extractEntry mangledName parent state entry
        rw [extractAll, reached, hcreate]
        cases hresult : extractEntry mangledName parent state entry with
        | mk result state' =>
            rw [hresult] at hok hwritten hshape'
            cases result with
            | error e =>
                have hreads : entry.readsThrough ≠ true := fun hreads =>
                  absurd (hok.mpr ⟨hcreatable, hreads⟩) (by simp [Except.isOk, Except.toBool])
                simp [hreads, hwritten]
            | ok u =>
                have hreads : entry.readsThrough = true := (hok.mp rfl).2
                simp only [hreads, if_true, List.map_cons, List.sum_cons]
                rw [ih _ hshape', hwritten, Nat.add_assoc]
      · rw [reached_of_not_creatable entries fun h => hcreatable ((hshape.creatable entry).mpr h)]
        rcases extractEntry_of_not_creatable hcreatable with ⟨e, disk', hresult⟩
        rw [extractAll, hresult]
        simp [written]

/-- Every entry can be created and read through. -/
def Extractable (mangledName : String → String) (parent : List String) (disk : Disk)
    (entries : List Entry) : Prop :=
  reached mangledName parent disk entries = entries ∧ ∀ entry ∈ entries, entry.readsThrough = true

variable (mangledName parent) in
theorem isOk_extractAll (state : Extraction) {disk : Disk} (hshape : SameShape state.disk disk)
    (entries : List Entry) :
    (extractAll mangledName parent state entries).1.isOk ↔
      Extractable mangledName parent disk entries := by
  induction entries generalizing state disk with
  | nil => simp [extractAll, Extractable, reached, Except.isOk, Except.toBool]
  | cons entry entries ih =>
      by_cases hcreatable : Creatable mangledName parent state.disk entry
      · rcases sameShape_createOutput state hshape hcreatable with ⟨path, disk', hcreate, hshape'⟩
        have hok := isOk_extractEntry mangledName parent state entry
        rw [extractAll, Extractable, reached, hcreate]
        cases hresult : extractEntry mangledName parent state entry with
        | mk result state' =>
            rw [hresult] at hok hshape'
            cases result with
            | error e =>
                have hreads : entry.readsThrough ≠ true := fun hreads =>
                  absurd (hok.mpr ⟨hcreatable, hreads⟩) (by simp [Except.isOk, Except.toBool])
                simp [hreads, Except.isOk, Except.toBool]
            | ok u =>
                have hreads : entry.readsThrough = true := (hok.mp rfl).2
                simp only [hreads, if_true, List.cons.injEq, true_and, List.mem_cons,
                  forall_eq_or_imp]
                exact ih _ hshape'
      · have hnot := reached_of_not_creatable entries
          fun h => hcreatable ((hshape.creatable entry).mpr h)
        rcases extractEntry_of_not_creatable hcreatable with ⟨e, disk', hresult⟩
        rw [extractAll, hresult, Extractable, hnot]
        simp [Except.isOk, Except.toBool]

/-! ## Files that are extracted as a whole -/

/-- A file stays as it is, unless an entry has its place. -/
theorem lookup_file_extractEntry {state : Extraction} {entry : Entry} {place : List String}
    {bytes : List UInt8} (hfile : state.disk.lookup place = some (.file bytes))
    (hother : entry.isDir = false → outPlace mangledName parent entry ≠ some place) :
    (extractEntry mangledName parent state entry).2.disk.lookup place = some (.file bytes) := by
  have hextracts := extracts_extractEntry mangledName parent state entry
  generalize extractEntry mangledName parent state entry = result at hextracts
  cases hextracts with
  | nothing e hnot => exact hfile
  | dirsOnly e dir disk' hnot hplace hcreated => exact hcreated.lookup_of_some hfile
  | dir dir disk₁ disk' hcreatable hdir hplace hcreated hcreated' =>
      exact hcreated'.lookup_of_some (hcreated.lookup_of_some hfile)
  | file own disk' state' hcreatable hregular hplace hcreated hdisk =>
      have hne : place ≠ own := by
        rintro rfl
        exact hother hregular hplace
      rw [hdisk, if_neg hne]
      exact hcreated.lookup_of_some hfile

theorem lookup_file_extractAll {state : Extraction} (entries : List Entry) {place : List String}
    {bytes : List UInt8} (hfile : state.disk.lookup place = some (.file bytes))
    (hother : ∀ entry ∈ entries, entry.isDir = false →
      outPlace mangledName parent entry ≠ some place) :
    (extractAll mangledName parent state entries).2.disk.lookup place = some (.file bytes) := by
  induction entries generalizing state with
  | nil => exact hfile
  | cons entry entries ih =>
      have hstep := lookup_file_extractEntry hfile (hother entry List.mem_cons_self)
      rw [extractAll]
      cases hresult : extractEntry mangledName parent state entry with
      | mk result state' =>
          rw [hresult] at hstep
          cases result with
          | error e => exact hstep
          | ok u => exact ih hstep fun e he => hother e (List.mem_cons_of_mem _ he)

/-- What an entry leaves that is extracted. -/
theorem extractEntry_eq_ok {state state' : Extraction} {entry : Entry}
    (h : extractEntry mangledName parent state entry = (.ok (), state')) :
    ∃ place, outPlace mangledName parent entry = some place ∧
      state'.files = state.files ++ [absolute place] ∧
      (entry.isDir = false → state'.disk.lookup place = some (.file entry.content)) := by
  have hextracts := extracts_extractEntry mangledName parent state entry
  rw [h] at hextracts
  generalize hresult : (Except.ok (), state') = result at hextracts
  cases hextracts with
  | nothing e hnot => cases hresult
  | dirsOnly e place disk' hnot => cases hresult
  | dir place disk₁ disk' hcreatable hdir hplace hcreated =>
      cases hresult
      exact ⟨place, hplace, rfl, fun hfile => by simp [hdir] at hfile⟩
  | file place disk' state'' hcreatable hfile hplace hcreated hdisk hfiles hwrites =>
      cases hbroken : entry.broken with
      | true =>
          rw [hbroken] at hresult
          cases hresult
      | false =>
          rw [hbroken] at hresult hfiles
          cases hresult
          refine ⟨place, hplace, hfiles, fun _ => ?_⟩
          rw [hdisk, if_pos rfl]

/-- The returned path of an entry. -/
def IsPathOf (mangledName : String → String) (parent : List String) (entry : Entry)
    (path : OsPath) : Prop :=
  ∃ place, outPlace mangledName parent entry = some place ∧ path = absolute place

theorem files_extractAll {state state' : Extraction} {entries : List Entry}
    (h : extractAll mangledName parent state entries = (.ok (), state')) :
    ∃ files, state'.files = state.files ++ files ∧
      List.Forall₂ (IsPathOf mangledName parent) entries files := by
  induction entries generalizing state with
  | nil =>
      cases h
      exact ⟨[], (List.append_nil _).symm, .nil⟩
  | cons entry entries ih =>
      rw [extractAll] at h
      cases hresult : extractEntry mangledName parent state entry with
      | mk result state₁ =>
          rw [hresult] at h
          cases result with
          | error e => cases h
          | ok u =>
              rcases extractEntry_eq_ok hresult with ⟨place, hplace, hfiles, -⟩
              rcases ih h with ⟨files, hrest, hpaths⟩
              refine ⟨absolute place :: files, ?_, .cons ⟨place, hplace, rfl⟩ hpaths⟩
              rw [hrest, hfiles, List.append_assoc, List.singleton_append]

def regular (entries : List Entry) : List Entry :=
  entries.filter fun entry => !entry.isDir

/-- With places of their own all files have their content in the end. -/
theorem content_extractAll {state state' : Extraction} {entries : List Entry}
    (h : extractAll mangledName parent state entries = (.ok (), state'))
    (hown : ((regular entries).map (outPlace mangledName parent)).Nodup) :
    ∀ entry ∈ regular entries, ∀ place, outPlace mangledName parent entry = some place →
      state'.disk.lookup place = some (.file entry.content) := by
  induction entries generalizing state with
  | nil => intro entry hentry; cases hentry
  | cons first entries ih =>
      rw [extractAll] at h
      cases hresult : extractEntry mangledName parent state first with
      | mk result state₁ =>
          rw [hresult] at h
          cases result with
          | error e => cases h
          | ok u =>
              rcases extractEntry_eq_ok hresult with ⟨place₁, hplace₁, -, hcontent⟩
              cases hdir : first.isDir with
              | true =>
                  have hregular : regular (first :: entries) = regular entries := by
                    simp [regular, hdir]
                  rw [hregular] at hown ⊢
                  exact ih h hown
              | false =>
                  have hregular : regular (first :: entries) = first :: regular entries := by
                    simp [regular, hdir]
                  rw [hregular, List.map_cons, List.nodup_cons] at hown
                  rw [hregular]
                  intro entry hentry place hplace
                  rcases List.mem_cons.mp hentry with rfl | hentry
                  · rw [hplace] at hplace₁
                    cases hplace₁
                    have hkeep := lookup_file_extractAll entries (hcontent hdir)
                      fun e he hfile hsame => hown.1 (by
                        rw [hplace, ← hsame]
                        exact List.mem_map_of_mem (List.mem_filter.mpr ⟨he, by simp [hfile]⟩))
                    have hrest : extractAll mangledName parent state₁ entries =
                        (.ok (), state') := h
                    rw [hrest] at hkeep
                    exact hkeep
                  · exact ih h hown.2 entry hentry place hplace

/-! ## The declared sizes -/

/-- No addition of a declared size overflows. -/
def AddsExactly (totalSize : UInt64) : List Entry → Prop
  | [] => True
  | entry :: entries =>
      totalSize.toNat + entry.size.toNat < 2 ^ 64 ∧ AddsExactly (totalSize + entry.size) entries

theorem addsExactly_iff (totalSize : UInt64) (entries : List Entry) :
    AddsExactly totalSize entries ↔
      totalSize.toNat + (entries.map fun entry => entry.size.toNat).sum < 2 ^ 64 := by
  induction entries generalizing totalSize with
  | nil =>
      have hlt := totalSize.toNat_lt
      simpa [AddsExactly] using hlt
  | cons entry entries ih =>
      rw [AddsExactly, ih, List.map_cons, List.sum_cons, UInt64.toNat_add]
      constructor
      · rintro ⟨hadd, hsum⟩
        rw [Nat.mod_eq_of_lt hadd] at hsum
        omega
      · intro hsum
        have hadd : totalSize.toNat + entry.size.toNat < 2 ^ 64 := by omega
        rw [Nat.mod_eq_of_lt hadd]
        exact ⟨hadd, by omega⟩

/-! ## Archives -/

/-- The regular entries with the paths that are returned for them. -/
def extracted (entries : List Entry) (files : List OsPath) : List (Entry × OsPath) :=
  (entries.zip files).filter fun pair => !pair.1.isDir

/-- Every regular entry is in a file of its own, which is not the archive's. -/
structure Lossless (zip : ZipFile) (entries : List Entry) (files : List OsPath) (disk : Disk) :
    Prop where
  adds : AddsExactly 0 entries
  length_eq : files.length = entries.length
  content : ∀ pair ∈ extracted entries files,
    disk.lookup (pair.2.place []) = some (.file pair.1.content)
  own : ((extracted entries files).map Prod.snd).Nodup
  ne_archive : ∀ pair ∈ extracted entries files, pair.2 ≠ absolute (zip.parent ++ [zip.name])

/-- Contained, bounded and lossless. -/
structure ExtractsSafely (disk : Disk) (zip : ZipFile)
    (outcome : Except ZipError (List OsPath) × Extraction) : Prop where
  outside : ∀ place, ¬ zip.parent <+: place → outcome.2.disk.lookup place = disk.lookup place
  inside : ∀ write ∈ outcome.2.writes, zip.parent <+: write.1
  bounded : written outcome.2 ≤ maxDecompressedSize.toNat
  lossless : ∀ entries files, zip.entries = some entries → outcome.1 = .ok files →
    Lossless zip entries files outcome.2.disk

/-- The regular entries have different names, and none has the archive's. -/
structure OwnNames (mangledName : String → String) (zip : ZipFile) (entries : List Entry) :
    Prop where
  nodup : ((regular entries).map (outNames mangledName)).Nodup
  ne_archive : ∀ entry ∈ regular entries, outNames mangledName entry ≠ some [zip.name]

theorem openArchive_eq_ok {disk : Disk} {zip : ZipFile} {entries : List Entry}
    (h : openArchive disk zip = .ok entries) :
    zip.entries = some entries ∧
      ∀ place, place <+: zip.parent → disk.lookup place = some .dir := by
  unfold openArchive at h
  split at h
  · cases h
  split at h
  · cases h
  next entries' hentries =>
  split at h
  · cases h
  split at h
  · next hdirs =>
    cases h
    refine ⟨hentries, fun place hplace => ?_⟩
    have hdir := List.all_eq_true.mp hdirs place (List.mem_inits place zip.parent |>.mpr hplace)
    simpa using hdir
  · cases h

theorem absolute_injective : Function.Injective absolute := fun names others h => by
  rw [← place_absolute names, h, place_absolute]

/-- Returned paths are the same exactly if the names are. -/
theorem IsPathOf.eq_iff {entry other : Entry} {path path' : OsPath}
    (h : IsPathOf mangledName parent entry path) (h' : IsPathOf mangledName parent other path') :
    path = path' ↔ outNames mangledName entry = outNames mangledName other := by
  rcases h with ⟨place, hplace, rfl⟩
  rcases h' with ⟨place', hplace', rfl⟩
  rcases Option.map_eq_some_iff.mp hplace with ⟨names, hnames, rfl⟩
  rcases Option.map_eq_some_iff.mp hplace' with ⟨names', hnames', rfl⟩
  rw [hnames, hnames', absolute_injective.eq_iff, List.append_cancel_left_eq, Option.some.injEq]

theorem IsPathOf.eq_absolute_iff {entry : Entry} {path : OsPath}
    (h : IsPathOf mangledName parent entry path) (names : List String) :
    path = absolute (parent ++ names) ↔ outNames mangledName entry = some names := by
  rcases h with ⟨place, hplace, rfl⟩
  rcases Option.map_eq_some_iff.mp hplace with ⟨names', hnames', rfl⟩
  rw [hnames', absolute_injective.eq_iff, List.append_cancel_left_eq, Option.some.injEq]

/-- What holds of the regular entries is read off the paths that belong to them. -/
theorem extracted_of_forall₂ {entries : List Entry} {files : List OsPath}
    (h : List.Forall₂ (IsPathOf mangledName parent) entries files) :
    (extracted entries files).map Prod.fst = regular entries ∧
      ∀ pair ∈ extracted entries files, IsPathOf mangledName parent pair.1 pair.2 := by
  induction h with
  | nil => exact ⟨rfl, fun pair hpair => by cases hpair⟩
  | @cons entry path entries files hpath _ ih =>
      cases hdir : entry.isDir with
      | true =>
          have hextracted : extracted (entry :: entries) (path :: files) =
              extracted entries files := by
            simp [extracted, hdir]
          have hregular : regular (entry :: entries) = regular entries := by
            simp [regular, hdir]
          rw [hextracted, hregular]
          exact ih
      | false =>
          have hextracted : extracted (entry :: entries) (path :: files) =
              (entry, path) :: extracted entries files := by
            simp [extracted, hdir]
          have hregular : regular (entry :: entries) = entry :: regular entries := by
            simp [regular, hdir]
          rw [hextracted, hregular, List.map_cons, ih.1]
          refine ⟨rfl, fun pair hpair => ?_⟩
          rcases List.mem_cons.mp hpair with rfl | hpair
          · exact hpath
          · exact ih.2 pair hpair

theorem nodup_map_congr {α β γ : Type*} {l : List α} {f : α → β} {g : α → γ}
    (h : ∀ x ∈ l, ∀ y ∈ l, g x = g y → f x = f y) (hf : (l.map f).Nodup) : (l.map g).Nodup :=
  hf.of_map.map_on fun x hx y hy hg => List.inj_on_of_nodup_map hf hx hy (h x hx y hy hg)

/-- Of an archive whose entries are all extracted nothing is lost exactly if the declared sizes
add up and the names are different. -/
theorem lossless_iff {disk : Disk} {state : Extraction} {zip : ZipFile} {entries : List Entry}
    (h : extractAll mangledName zip.parent { disk } entries = (.ok (), state)) :
    Lossless zip entries state.files (state.disk.erase (zip.parent ++ [zip.name])) ↔
      (entries.map fun entry => entry.size.toNat).sum < 2 ^ 64 ∧
        OwnNames mangledName zip entries := by
  rcases files_extractAll h with ⟨files, hfiles, hpaths⟩
  have hstate : state.files = files := by simpa using hfiles
  rcases extracted_of_forall₂ hpaths with ⟨hregular, hpath⟩
  have hadds := addsExactly_iff 0 entries
  rw [UInt64.toNat_zero, Nat.zero_add] at hadds
  have hnames : (regular entries).map (outNames mangledName) =
      (extracted entries files).map fun pair => outNames mangledName pair.1 := by
    rw [← hregular, List.map_map, Function.comp_def]
  rw [hstate, ← hadds]
  constructor
  · intro hlossless
    refine ⟨hlossless.adds, ?_, fun entry hentry => ?_⟩
    · rw [hnames]
      exact nodup_map_congr (fun x hx y hy hxy => ((hpath x hx).eq_iff (hpath y hy)).mpr hxy)
        hlossless.own
    · rw [← hregular] at hentry
      rcases List.mem_map.mp hentry with ⟨pair, hpair, rfl⟩
      rw [ne_eq, ← (hpath pair hpair).eq_absolute_iff]
      exact hlossless.ne_archive pair hpair
  · rintro ⟨hexact, hown⟩
    have hne : ∀ pair ∈ extracted entries files,
        pair.2 ≠ absolute (zip.parent ++ [zip.name]) := by
      intro pair hpair
      rw [ne_eq, (hpath pair hpair).eq_absolute_iff]
      apply hown.ne_archive
      rw [← hregular]
      exact List.mem_map_of_mem hpair
    have hnodup := hown.nodup
    refine ⟨hexact, hpaths.length_eq.symm, fun pair hpair => ?_, ?_, hne⟩
    · rcases hpath pair hpair with ⟨place, hplace, hfile⟩
      have hplaces : ((regular entries).map (outPlace mangledName zip.parent)).Nodup := by
        refine nodup_map_congr (fun x _ y _ hxy => ?_) hnodup
        exact Option.map_injective (fun a b hab => List.append_cancel_left hab) hxy
      have hmem : pair.1 ∈ regular entries := by
        rw [← hregular]
        exact List.mem_map_of_mem hpair
      have hcontent := content_extractAll h hplaces pair.1 hmem place hplace
      have hplaceNe : place ≠ zip.parent ++ [zip.name] := fun heq =>
        hne pair hpair (by rw [hfile, heq])
      rw [hfile, place_absolute, AList.lookup_erase_ne hplaceNe, hcontent]
    · rw [hnames] at hnodup
      exact nodup_map_congr (fun x hx y hy hxy => ((hpath x hx).eq_iff (hpath y hy)).mp hxy) hnodup

/-- Whatever the archive holds, nothing is written or changed outside of its directory. -/
theorem contained_decompressZip (mangledName : String → String) (disk : Disk) (zip : ZipFile) :
    (∀ place, ¬ zip.parent <+: place →
        (decompressZip mangledName disk zip).2.disk.lookup place = disk.lookup place) ∧
      ∀ write ∈ (decompressZip mangledName disk zip).2.writes, zip.parent <+: write.1 := by
  unfold decompressZip
  cases hopen : openArchive disk zip with
  | error e => exact ⟨fun _ _ => rfl, fun write hwrite => (by cases hwrite)⟩
  | ok entries =>
      have hstart : Inside zip.parent disk { disk } :=
        ⟨(openArchive_eq_ok hopen).2, fun _ _ => rfl, fun write hwrite => (by cases hwrite)⟩
      have hinside := hstart.extractAll mangledName entries
      simp only
      cases hresult : extractAll mangledName zip.parent { disk } entries with
      | mk result state =>
          rw [hresult] at hinside
          cases result with
          | error e => exact ⟨hinside.outside, hinside.writes⟩
          | ok u =>
              refine ⟨fun place hplace => ?_, hinside.writes⟩
              have hne : place ≠ zip.parent ++ [zip.name] := by
                rintro rfl
                exact hplace (List.prefix_append _ _)
              simp only
              rw [AList.lookup_erase_ne hne]
              exact hinside.outside place hplace

variable (mangledName) in
/-- The bytes that are written are those of the entries that are reached. -/
theorem written_decompressZip {disk : Disk} {zip : ZipFile} {entries : List Entry}
    (hopen : openArchive disk zip = .ok entries) :
    written (decompressZip mangledName disk zip).2 =
      ((reached mangledName zip.parent disk entries).map Entry.bytes).sum := by
  have hwritten := written_extractAll mangledName zip.parent { disk } (.refl disk) entries
  have hzero : written { disk } = 0 := rfl
  rw [hzero, Nat.zero_add] at hwritten
  rw [decompressZip, hopen, ← hwritten]
  simp only
  cases hresult : extractAll mangledName zip.parent { disk } entries with
  | mk result state => cases result <;> rfl

/-- An archive is extracted safely exactly if the entries that are created hold no more than the
limit and, when all of them are extracted, their declared sizes add up and their names are
different. -/
theorem extractsSafely_iff (mangledName : String → String) (disk : Disk) (zip : ZipFile) :
    ExtractsSafely disk zip (decompressZip mangledName disk zip) ↔
      ∀ entries, openArchive disk zip = .ok entries →
        ((reached mangledName zip.parent disk entries).map Entry.bytes).sum ≤
            maxDecompressedSize.toNat ∧
          (Extractable mangledName zip.parent disk entries →
            (entries.map fun entry => entry.size.toNat).sum < 2 ^ 64 ∧
              OwnNames mangledName zip entries) := by
  rcases contained_decompressZip mangledName disk zip with ⟨houtside, hinside⟩
  revert houtside hinside
  unfold decompressZip
  cases hopen : openArchive disk zip with
  | error e =>
      intro houtside hinside
      exact iff_of_true ⟨houtside, hinside, Nat.zero_le _, fun _ _ _ hfiles => (by cases hfiles)⟩
        fun entries hentries => (by cases hentries)
  | ok entries =>
      have hok := isOk_extractAll mangledName zip.parent { disk } (.refl disk) entries
      have hwritten := written_decompressZip mangledName hopen
      rw [decompressZip, hopen] at hwritten
      simp only at hwritten
      simp only [Except.ok.injEq, forall_eq']
      rw [← hwritten, ← hok]
      cases hresult : extractAll mangledName zip.parent { disk } entries with
      | mk result state =>
          cases result with
          | error e =>
              intro houtside hinside
              constructor
              · intro hsafe
                exact ⟨hsafe.bounded, fun h => (by cases h)⟩
              · rintro ⟨hbounded, -⟩
                exact ⟨houtside, hinside, hbounded, fun _ _ _ hfiles => (by cases hfiles)⟩
          | ok u =>
              have hentries := (openArchive_eq_ok hopen).1
              have hlossless := lossless_iff hresult
              intro houtside hinside
              constructor
              · intro hsafe
                refine ⟨hsafe.bounded, fun _ => ?_⟩
                exact hlossless.mp (hsafe.lossless entries state.files hentries rfl)
              · rintro ⟨hbounded, hcondition⟩
                refine ⟨houtside, hinside, hbounded, fun entries' files hentries' hfiles => ?_⟩
                rw [hentries] at hentries'
                cases hentries'
                cases hfiles
                exact hlossless.mpr (hcondition rfl)

/-! Two names that are one after the white space is replaced, sizes whose sum wraps around, and an
entry that holds more than it declares. -/

private def uploads : Disk :=
  KeyedMap.insertAll ∅
    [([], .dir), (["up"], .dir), (["up", "pets.zip"], .file [80, 75])]

private def byte (b : UInt8) : Chunk :=
  ⟨[b], by simp⟩

private def clashing : ZipFile where
  parent := ["up"]
  name := "pets.zip"
  entries := some
    [ { name := "my cat", compressedSize := 1, size := 1, reads := [byte 1] },
      { name := "my_cat", compressedSize := 1, size := 1, reads := [byte 2] } ]

private def wrapping : ZipFile where
  parent := ["up"]
  name := "pets.zip"
  entries := some
    [ { name := "cat", compressedSize := 1, size := 1, reads := [byte 1] },
      { name := "dog", compressedSize := 9223372036854775808, size := 18446744073709551615,
        reads := [byte 2] } ]

private def lying (chunk : Chunk) : Entry :=
  { name := "cat", compressedSize := 1, size := 1, reads := [chunk] }

private def bomb (chunk : Chunk) : ZipFile where
  parent := ["up"]
  name := "pets.zip"
  entries := some [lying chunk]

private theorem creatable_lying (chunk : Chunk) : Creatable id ["up"] uploads (lying chunk) := by
  have hplace : outPlace id ["up"] (lying chunk) = some ["up", "cat"] := by
    have hnames : outNames id (lying chunk) = some ["cat"] := by
      change sanitizeComponents (components (replaceWhitespace "cat")) = some ["cat"]
      decide
    rw [outPlace, hnames]
    rfl
  exact ⟨["up", "cat"], hplace, .inl (by decide), by simp, by decide⟩

private theorem written_bomb (chunk : Chunk) :
    written (decompressZip id uploads (bomb chunk)).2 = chunk.val.length := by
  have hsizes : checkSizes 0 [lying chunk] = .ok () := by
    simp [checkSizes, checkRatio, lying, maxCompressionRatio, maxDecompressedSize]
  have hthere : uploads.lookup ["up", "pets.zip"] ≠ none := by decide
  have hdirs : (["up"].inits.all fun dir => uploads.lookup dir = some .dir) = true := by decide
  have hopen : openArchive uploads (bomb chunk) = .ok [lying chunk] := by
    rw [openArchive]
    simp only [bomb, List.singleton_append, hthere, if_false, hsizes, hdirs, if_true]
  rcases sameShape_createOutput { disk := uploads } (.refl uploads)
    (creatable_lying chunk) with ⟨path, disk', hcreate, -⟩
  have hreached : reached id ["up"] uploads [lying chunk] = [lying chunk] := by
    rw [reached, hcreate]
    simp [reached]
  have hcontent : (lying chunk).content = chunk.val := List.append_nil _
  rw [written_decompressZip id hopen, bomb, hreached, List.map_singleton, List.sum_singleton,
    Entry.bytes, hcontent]
  rfl

private def large : Chunk :=
  ⟨List.replicate (2 ^ 30 + 1) 0, List.ne_nil_of_length_pos (by rw [List.length_replicate]; decide)⟩

theorem not_extractsSafely :
    ¬ ExtractsSafely uploads clashing (decompressZip id uploads clashing) ∧
      ¬ ExtractsSafely uploads wrapping (decompressZip id uploads wrapping) ∧
      ¬ ExtractsSafely uploads (bomb large) (decompressZip id uploads (bomb large)) := by
  refine ⟨fun hsafe => ?_, fun hsafe => ?_, fun hsafe => ?_⟩
  · have hlossless := hsafe.lossless _ [absolute ["up", "my_cat"], absolute ["up", "my_cat"]] rfl
      (by decide +kernel)
    exact absurd hlossless.own (by decide)
  · have hlossless := hsafe.lossless _ [absolute ["up", "cat"], absolute ["up", "dog"]] rfl
      (by decide +kernel)
    have hadds := (addsExactly_iff 0 _).mp hlossless.adds
    simp at hadds
  · have hlimit : maxDecompressedSize.toNat = 2 ^ 30 := by
      simp [maxDecompressedSize]
    have hbounded := hsafe.bounded
    rw [written_bomb, large, List.length_replicate, hlimit] at hbounded
    omega

end Zip

end Oxen
