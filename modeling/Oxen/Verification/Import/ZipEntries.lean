import Oxen.Model.ZipArchive
import Oxen.Verification.Upload.Containment

/-! What the extraction of one entry of a zip archive does. -/

namespace Oxen

namespace Zip

open OsPath

variable {mangledName : String → String} {parent : List String}

/-! ## Paths -/

theorem absolute_push_names (names : List String) :
    (absolute parent).push (names.map .normal) = absolute (parent ++ names) := by
  have hfilter : (names.map Component.normal).filter (· ≠ .curDir) = names.map .normal := by
    apply List.filter_eq_self.mpr
    intro c hc
    rcases List.mem_map.mp hc with ⟨name, -, rfl⟩
    simp
  have habsolute : isAbsolute (names.map Component.normal) = false := by
    cases names with
    | nil => rfl
    | cons name names => simp [isAbsolute]
  rw [push, habsolute, hfilter]
  simp [absolute]

@[simp]
theorem place_absolute (names : List String) : place [] (absolute names) = names := by
  rw [absolute, ← List.singleton_append, place_names [] (List.cons_ne_nil _ _)]
  rfl

/-- The names of an entry below the archive's directory. -/
def outNames (mangledName : String → String) (entry : Entry) : Option (List String) :=
  sanitizeComponents (components (replaceWhitespace (mangledName entry.name)))

/-- An entry's path has its names below the directory, and no path fails the check for that. -/
theorem outPath_eq_ok_iff {entry : Entry} {path : OsPath} :
    outPath mangledName parent entry = .ok path ↔
      ∃ names, outNames mangledName entry = some names ∧ path = absolute (parent ++ names) := by
  unfold outPath sanitizePath
  rw [← outNames]
  cases outNames mangledName entry with
  | none => simp
  | some names =>
      have hprefix : (absolute parent).isPrefixOf (absolute (parent ++ names)) = true := by
        rw [List.isPrefixOf_iff_prefix]
        simp [absolute]
      simp only [absolute_push_names, hprefix, if_true, Except.ok.injEq, Option.some.injEq,
        exists_eq_left']
      exact eq_comm

/-! ## Directories -/

theorem mem_places_absolute (names place : List String) :
    place ∈ (absolute names).inits.map (OsPath.place []) ↔ place <+: names := by
  rw [List.mem_map]
  constructor
  · rintro ⟨path, hpath, rfl⟩
    rw [List.mem_inits] at hpath
    cases path with
    | nil => exact List.nil_prefix
    | cons c path =>
        rw [absolute, List.cons_prefix_cons] at hpath
        rcases hpath with ⟨rfl, hpath⟩
        rcases List.prefix_map_iff.mp hpath with ⟨front, hfront, rfl⟩
        have hplace := place_absolute front
        rw [absolute] at hplace
        rw [hplace]
        exact hfront
  · intro hplace
    refine ⟨absolute place, ?_, place_absolute place⟩
    rw [List.mem_inits, absolute, absolute, List.cons_prefix_cons]
    exact ⟨rfl, hplace.map _⟩

theorem mem_places_parent (names place : List String) :
    place ∈ (absolute names).parent.inits.map (OsPath.place []) ↔ place <+: names.dropLast := by
  induction names using List.reverseRecOn with
  | nil => simp [absolute, OsPath.parent, OsPath.place, steps]
  | append_singleton names name =>
      have hparent : (absolute (names ++ [name])).parent = absolute names := by
        rw [absolute, absolute, OsPath.parent, List.map_append, ← List.cons_append]
        exact List.dropLast_concat
      rw [hparent, List.dropLast_concat, mem_places_absolute]

theorem place_parent_absolute (names : List String) :
    (absolute names).parent.place [] = names.dropLast := by
  induction names using List.reverseRecOn with
  | nil => rfl
  | append_singleton names name =>
      have hparent : (absolute (names ++ [name])).parent = absolute names := by
        rw [absolute, absolute, OsPath.parent, List.map_append, ← List.cons_append]
        exact List.dropLast_concat
      rw [hparent, List.dropLast_concat, place_absolute]

theorem lookup_foldl_insertNew (disk : Disk) (places : List (List String)) (place : List String) :
    (places.foldl (fun disk place => KeyedMap.insertNew disk place .dir) disk).lookup place =
      if place ∈ places then some ((disk.lookup place).getD .dir) else disk.lookup place := by
  induction places generalizing disk with
  | nil => simp
  | cons first places ih =>
      rw [List.foldl_cons, ih, KeyedMap.insertNew]
      by_cases hplace : place = first
      · subst hplace
        by_cases hmem : place ∈ disk
        · rcases Option.isSome_iff_exists.mp (AList.lookup_isSome.mpr hmem) with ⟨data, hdata⟩
          simp [hmem, hdata]
        · have hnone : disk.lookup place = none := AList.lookup_eq_none.mpr hmem
          simp [hmem, hnone]
      · have hlookup : (if first ∈ disk then disk else disk.insert first .dir).lookup place =
            disk.lookup place := by
          split
          · rfl
          · exact AList.lookup_insert_ne hplace
        rw [hlookup]
        simp [hplace]

/-- No file is in the way of the directories. -/
def Free (disk : Disk) (dir : List String) : Prop :=
  ∀ place, place <+: dir → ∀ bytes, disk.lookup place ≠ some (.file bytes)

/-- Creating a directory succeeds: something has its place, or no file is in the way. -/
def Makeable (disk : Disk) (dir : List String) : Prop :=
  disk.lookup dir ≠ none ∨ Free disk dir

/-- If nothing had the directory's place it is there, with those above it, and nothing else has
changed. -/
structure Created (disk disk' : Disk) (dir : List String) : Prop where
  makeable : Makeable disk dir
  lookup : ∀ place, disk'.lookup place =
    if place <+: dir ∧ disk.lookup dir = none then some .dir else disk.lookup place

section CreateDirAll

variable {path : OsPath} {dir : List String}

/-- Where nothing is the directories down to it are created one by one. -/
theorem createMissing_cases
    (hpath : ∀ place, place ∈ path.inits.map (OsPath.place []) ↔ place <+: dir) (disk : Disk) :
    (NodeUnpack.createDirAll disk (path.inits.map (OsPath.place [])) = none ∧ ¬ Free disk dir) ∨
      ∃ disk', NodeUnpack.createDirAll disk (path.inits.map (OsPath.place [])) = some disk' ∧
        Free disk dir ∧ ∀ place, disk'.lookup place =
          if place <+: dir then some .dir else disk.lookup place := by
  have hall : ((path.inits.map (OsPath.place [])).all
      fun place => (disk.lookup place).all (· = .dir)) = true ↔ Free disk dir := by
    simp only [List.all_eq_true, hpath, Free]
    refine forall₂_congr fun place _ => ?_
    cases disk.lookup place with
    | none => simp
    | some data => cases data <;> simp
  rw [NodeUnpack.createDirAll]
  split
  · next hdirs =>
    have hfree := hall.mp hdirs
    refine .inr ⟨_, rfl, hfree, fun place => ?_⟩
    rw [lookup_foldl_insertNew]
    simp only [hpath]
    split
    · next hplace =>
      have hfile := hfree place hplace
      cases hlookup : disk.lookup place with
      | none => rfl
      | some data =>
          cases data with
          | dir => rfl
          | file bytes => exact absurd hlookup (hfile bytes)
    · rfl
  · next hdirs => exact .inl ⟨rfl, fun hfree => hdirs (hall.mpr hfree)⟩

theorem createDirAll_cases (hplace : path.place [] = dir)
    (hpath : ∀ place, place ∈ path.inits.map (OsPath.place []) ↔ place <+: dir) (disk : Disk) :
    (createDirAll disk path = none ∧ ¬ Makeable disk dir) ∨
      ∃ disk', createDirAll disk path = some disk' ∧ Created disk disk' dir := by
  rw [createDirAll, hplace]
  split
  · next hthere =>
    refine .inr ⟨disk, rfl, .inl hthere, fun place => ?_⟩
    rw [if_neg fun h => hthere h.2]
  · next hnone =>
    have hmissing : disk.lookup dir = none := by simpa using hnone
    rcases createMissing_cases hpath disk with ⟨hfails, hfree⟩ | ⟨disk', hcreate, hfree, hlookup⟩
    · exact .inl ⟨hfails, fun h => h.elim (absurd hmissing) hfree⟩
    · refine .inr ⟨disk', hcreate, .inr hfree, fun place => ?_⟩
      rw [hlookup]
      simp [hmissing]

end CreateDirAll

theorem not_prefix_dropLast {place : List String} (h : place ≠ []) :
    ¬ place <+: place.dropLast := by
  intro hprefix
  have hlength := hprefix.length_le
  have hpos := List.length_pos_iff.mpr h
  rw [List.length_dropLast] at hlength
  omega

namespace Created

variable {disk disk₁ disk' : Disk} {dir place q : List String}

/-- What is there stays. -/
theorem lookup_of_some {data : NodeUnpack.Data} (h : Created disk disk' dir)
    (hdata : disk.lookup q = some data) : disk'.lookup q = some data := by
  rw [h.lookup]
  split
  · next hnew =>
    have hfree := h.makeable.resolve_left (not_not.mpr hnew.2)
    cases data with
    | dir => rfl
    | file bytes => exact absurd hdata (hfree q hnew.1 bytes)
  · exact hdata

theorem lookup_ne_none (h : Created disk disk' dir) (hq : disk.lookup q ≠ none) :
    disk'.lookup q ≠ none := by
  rcases Option.ne_none_iff_exists'.mp hq with ⟨data, hdata⟩
  rw [h.lookup_of_some hdata]
  exact Option.some_ne_none data

theorem lookup_of_not_prefix (h : Created disk disk' dir) (hq : ¬ q <+: dir) :
    disk'.lookup q = disk.lookup q := by
  rw [h.lookup, if_neg fun hnew => hq hnew.1]

theorem free_iff (h : Created disk disk' dir) : Free disk' q ↔ Free disk q := by
  constructor
  · intro hfree place hplace bytes hfile
    exact hfree place hplace bytes (h.lookup_of_some hfile)
  · intro hfree place hplace bytes
    rw [h.lookup]
    split
    · simp
    · exact hfree place hplace bytes

theorem lookup_dir (h : Created disk disk' dir)
    (hdir : disk.lookup dir = some .dir ∨ Free disk dir) : disk'.lookup dir = some .dir := by
  rcases hdir with hdir | hfree
  · exact h.lookup_of_some hdir
  · rw [h.lookup]
    split
    · rfl
    · next hold =>
      have hfile := hfree dir (List.prefix_refl dir)
      cases hlookup : disk.lookup dir with
      | none => exact absurd ⟨List.prefix_refl dir, hlookup⟩ hold
      | some data =>
          cases data with
          | dir => rfl
          | file bytes => exact absurd hlookup (hfile bytes)

theorem of_lookup_dir (h : Created disk disk' dir) (hdir : disk'.lookup dir = some .dir) :
    disk.lookup dir = some .dir ∨ Free disk dir := by
  rcases h.makeable with hthere | hfree
  · rw [h.lookup, if_neg fun hnew => hthere hnew.2] at hdir
    exact .inl hdir
  · exact .inr hfree

/-- Once the directories above are there, a place can be made as before. -/
theorem makeable_iff (h : Created disk disk₁ place.dropLast) :
    Makeable disk₁ place ↔ Makeable disk place := by
  rw [Makeable, Makeable, h.free_iff]
  constructor
  · rintro (hthere | hfree)
    · rw [h.lookup] at hthere
      split at hthere
      · next hnew =>
        have hempty : place = [] := by
          by_contra hne
          exact not_prefix_dropLast hne hnew.1
        subst hempty
        exact h.makeable
      · exact .inl hthere
    · exact .inr hfree
  · exact Or.imp_left h.lookup_ne_none

end Created

/-! ## Creating what an entry is extracted to -/

/-- The place of an entry. -/
def outPlace (mangledName : String → String) (parent : List String) (entry : Entry) :
    Option (List String) :=
  (outNames mangledName entry).map (parent ++ ·)

/-- Whether an entry can be created: a directory where something is or no file is in the way, a file
in a directory where none is. -/
def Creatable (mangledName : String → String) (parent : List String) (disk : Disk)
    (entry : Entry) : Prop :=
  ∃ place, outPlace mangledName parent entry = some place ∧
    if entry.isDir then Makeable disk place.dropLast ∧ Makeable disk place
    else (disk.lookup place.dropLast = some .dir ∨ Free disk place.dropLast) ∧ place ≠ [] ∧
      disk.lookup place ≠ some .dir

/-- How creating an entry ends. -/
inductive Creates (mangledName : String → String) (parent : List String) (disk : Disk)
    (entry : Entry) : Except ZipError OsPath × Disk → Prop where
  | nothing (e : ZipError) : ¬ Creatable mangledName parent disk entry →
      Creates mangledName parent disk entry (.error e, disk)
  | dirsOnly (e : ZipError) (place : List String) (disk' : Disk) :
      ¬ Creatable mangledName parent disk entry →
      outPlace mangledName parent entry = some place → Created disk disk' place.dropLast →
      Creates mangledName parent disk entry (.error e, disk')
  | dir (place : List String) (disk₁ disk' : Disk) : entry.isDir = true →
      outPlace mangledName parent entry = some place → Created disk disk₁ place.dropLast →
      Created disk₁ disk' place →
      Creates mangledName parent disk entry (.ok (absolute place), disk')
  | file (place : List String) (disk' : Disk) : entry.isDir = false →
      outPlace mangledName parent entry = some place → Created disk disk' place.dropLast →
      disk'.lookup place.dropLast = some .dir → place ≠ [] → disk.lookup place ≠ some .dir →
      Creates mangledName parent disk entry
        (.ok (absolute place), disk'.insert place (.file []))

variable (mangledName parent) in
theorem creates_createOutput (disk : Disk) (entry : Entry) :
    Creates mangledName parent disk entry (createOutput mangledName parent disk entry) := by
  unfold createOutput
  cases hpath : outPath mangledName parent entry with
  | error e =>
      refine .nothing e ?_
      rintro ⟨place, hplace, -⟩
      rcases Option.map_eq_some_iff.mp hplace with ⟨names, hnames, -⟩
      rw [outPath_eq_ok_iff.mpr ⟨names, hnames, rfl⟩] at hpath
      cases hpath
  | ok path =>
      rcases outPath_eq_ok_iff.mp hpath with ⟨names, hnames, rfl⟩
      have hplace : outPlace mangledName parent entry = some (parent ++ names) := by
        rw [outPlace, hnames]
        rfl
      generalize parent ++ names = place at hplace
      simp only [place_absolute]
      rcases createDirAll_cases (place_parent_absolute place) (mem_places_parent place) disk with
        ⟨hnone, hnot⟩ | ⟨disk₁, hsome, hcreated⟩
      · rw [hnone]
        refine .nothing .io ?_
        rintro ⟨other, hother, hcreatable⟩
        rw [hplace] at hother
        cases hother
        apply hnot
        split at hcreatable
        · exact hcreatable.1
        · exact hcreatable.1.imp_left fun hdir => by rw [hdir]; simp
      · rw [hsome]
        simp only
        split
        · next hdir =>
          rcases createDirAll_cases (place_absolute place) (mem_places_absolute place) disk₁ with
            ⟨hnone, hnot⟩ | ⟨disk₂, hsome, hcreated'⟩
          · rw [hnone]
            refine .dirsOnly .io place disk₁ ?_ hplace hcreated
            rintro ⟨other, hother, hcreatable⟩
            rw [hplace] at hother
            cases hother
            rw [if_pos hdir] at hcreatable
            exact hnot (hcreated.makeable_iff.mpr hcreatable.2)
          · rw [hsome]
            exact .dir place disk₁ disk₂ hdir hplace hcreated hcreated'
        · next hdir =>
          have hfile : entry.isDir = false := by simpa using hdir
          rw [place_absolute, place_parent_absolute]
          split
          · next hbad =>
            refine .dirsOnly .io place disk₁ ?_ hplace hcreated
            rintro ⟨other, hother, hcreatable⟩
            rw [hplace] at hother
            cases hother
            rw [if_neg hdir] at hcreatable
            rcases hbad with hlookup | hlookup
            · rw [hcreated.lookup_of_not_prefix (not_prefix_dropLast hcreatable.2.1)] at hlookup
              exact hcreatable.2.2 hlookup
            · exact hlookup (hcreated.lookup_dir hcreatable.1)
          · next hgood =>
            rw [not_or, not_not] at hgood
            have hne : place ≠ [] := by
              rintro rfl
              exact hgood.1 hgood.2
            refine .file place disk₁ hfile hplace hcreated hgood.2 hne ?_
            rw [← hcreated.lookup_of_not_prefix (not_prefix_dropLast hne)]
            exact hgood.1

theorem Creates.creatable_iff {disk : Disk} {entry : Entry} {result : Except ZipError OsPath × Disk}
    (h : Creates mangledName parent disk entry result) :
    result.1.isOk ↔ Creatable mangledName parent disk entry := by
  cases h with
  | nothing e hnot => exact ⟨fun hok => (by cases hok), fun hcreatable => absurd hcreatable hnot⟩
  | dirsOnly e place disk' hnot =>
      exact ⟨fun hok => (by cases hok), fun hcreatable => absurd hcreatable hnot⟩
  | dir place disk₁ disk' hdir hplace hcreated hcreated' =>
      refine ⟨fun _ => ⟨place, hplace, ?_⟩, fun _ => rfl⟩
      rw [if_pos hdir]
      exact ⟨hcreated.makeable, hcreated.makeable_iff.mp hcreated'.makeable⟩
  | file place disk' hfile hplace hcreated hparent hne hlookup =>
      refine ⟨fun _ => ⟨place, hplace, ?_⟩, fun _ => rfl⟩
      rw [if_neg (by simp [hfile])]
      exact ⟨hcreated.of_lookup_dir hparent, hne, hlookup⟩

/-! ## One entry -/

/-- What copying the reads to an open file does. -/
structure Copied (path : List String) (bytes : List UInt8) (state state' : Extraction)
    (chunks : List Chunk) : Prop where
  content : state'.disk.lookup path = some (.file (bytes ++ (chunks.map Subtype.val).flatten))
  others : ∀ other, other ≠ path → state'.disk.lookup other = state.disk.lookup other
  files : state'.files = state.files
  writes : state'.writes = state.writes ++ chunks.map fun chunk => (path, chunk.val)

theorem copied_copyReads {path : List String} {bytes : List UInt8} (state : Extraction)
    (hfile : state.disk.lookup path = some (.file bytes)) (chunks : List Chunk) :
    Copied path bytes state (copyReads path state chunks) chunks := by
  induction chunks generalizing state bytes with
  | nil => exact ⟨by simpa [copyReads] using hfile, fun _ _ => rfl, rfl, by simp [copyReads]⟩
  | cons chunk chunks ih =>
      rw [copyReads, hfile]
      simp only
      have hwritten : (state.disk.insert path (.file (bytes ++ chunk.val))).lookup path =
          some (.file (bytes ++ chunk.val)) := AList.lookup_insert _
      have hrest := ih { state with
        disk := state.disk.insert path (.file (bytes ++ chunk.val))
        writes := state.writes ++ [(path, chunk.val)] } hwritten
      constructor
      · rw [hrest.content, List.map_cons, List.flatten_cons, List.append_assoc]
      · intro other hother
        rw [hrest.others other hother]
        exact AList.lookup_insert_ne hother
      · exact hrest.files
      · rw [hrest.writes, List.map_cons, List.append_assoc]
        rfl

/-- How the extraction of one entry ends. -/
inductive Extracts (mangledName : String → String) (parent : List String) (state : Extraction)
    (entry : Entry) : Except ZipError Unit × Extraction → Prop where
  | nothing (e : ZipError) : ¬ Creatable mangledName parent state.disk entry →
      Extracts mangledName parent state entry (.error e, state)
  | dirsOnly (e : ZipError) (place : List String) (disk' : Disk) :
      ¬ Creatable mangledName parent state.disk entry →
      outPlace mangledName parent entry = some place →
      Created state.disk disk' place.dropLast →
      Extracts mangledName parent state entry (.error e, { state with disk := disk' })
  | dir (place : List String) (disk₁ disk' : Disk) :
      Creatable mangledName parent state.disk entry → entry.isDir = true →
      outPlace mangledName parent entry = some place →
      Created state.disk disk₁ place.dropLast → Created disk₁ disk' place →
      Extracts mangledName parent state entry
        (.ok (), { state with disk := disk', files := state.files ++ [absolute place] })
  | file (place : List String) (disk' : Disk) (state' : Extraction) :
      Creatable mangledName parent state.disk entry → entry.isDir = false →
      outPlace mangledName parent entry = some place →
      Created state.disk disk' place.dropLast →
      (∀ q, state'.disk.lookup q =
        if q = place then some (.file entry.content) else disk'.lookup q) →
      state'.files = state.files ++ (if entry.broken then [] else [absolute place]) →
      state'.writes = state.writes ++ entry.reads.map (fun chunk => (place, chunk.val)) →
      Extracts mangledName parent state entry
        (if entry.broken then .error .io else .ok (), state')

variable (mangledName parent) in
theorem extracts_extractEntry (state : Extraction) (entry : Entry) :
    Extracts mangledName parent state entry (extractEntry mangledName parent state entry) := by
  have hcreates := creates_createOutput mangledName parent state.disk entry
  have hiff := hcreates.creatable_iff
  unfold extractEntry
  generalize createOutput mangledName parent state.disk entry = result at hcreates hiff
  cases hcreates with
  | nothing e hnot => exact .nothing e hnot
  | dirsOnly e place disk' hnot hplace hcreated =>
      exact .dirsOnly e place disk' hnot hplace hcreated
  | dir place disk₁ disk' hdir hplace hcreated hcreated' =>
      simp only [hdir, if_true]
      exact .dir place disk₁ disk' (hiff.mp rfl) hdir hplace hcreated hcreated'
  | file place disk' hfile hplace hcreated hparent hne hlookup =>
      simp only [hfile, Bool.false_eq_true, if_false, place_absolute]
      have hempty : (disk'.insert place (.file [])).lookup place = some (.file []) :=
        AList.lookup_insert _
      have hcopied := copied_copyReads { state with disk := disk'.insert place (.file []) } hempty
        entry.reads
      generalize copyReads place _ entry.reads = state' at hcopied
      have hdisk (q : List String) : state'.disk.lookup q =
          if q = place then some (.file entry.content) else disk'.lookup q := by
        by_cases hq : q = place
        · rw [if_pos hq, hq, hcopied.content]
          rfl
        · rw [if_neg hq, hcopied.others q hq, AList.lookup_insert_ne hq]
      cases hbroken : entry.broken with
      | true =>
          have hextracts := Extracts.file place disk' state' (hiff.mp rfl) hfile hplace
            hcreated hdisk
            (by rw [hbroken, hcopied.files]; simp) hcopied.writes
          simpa only [hbroken, if_true, Bool.false_eq_true, if_false] using hextracts
      | false =>
          have hextracts := Extracts.file place disk'
            { state' with files := state'.files ++ [absolute place] } (hiff.mp rfl) hfile hplace
            hcreated hdisk (by rw [hbroken, hcopied.files]; rfl) hcopied.writes
          simpa only [hbroken, if_true, Bool.false_eq_true, if_false] using hextracts

end Zip

end Oxen
