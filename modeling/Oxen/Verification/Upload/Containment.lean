import Oxen.Model.Archives

/-! Which uploaded archives stay inside the repository's hidden directory. -/

namespace Oxen

open LexicalPath

namespace OsPath

theorem steps_append (path other : OsPath) : steps (path ++ other) = path.steps ++ other.steps :=
  List.filterMap_append

@[simp] theorem steps_filter_curDir (path : OsPath) :
    steps (path.filter (· ≠ .curDir)) = path.steps := by
  induction path with
  | nil => rfl
  | cons c path ih =>
    cases c <;> simp_all [steps]

@[simp] theorem steps_names (names : List String) :
    steps (names.map .normal) = names.map .down := by
  induction names with
  | nil => rfl
  | cons name names => simp [steps]

theorem isAbsolute_append {path : OsPath} (h : path ≠ []) (other : OsPath) :
    isAbsolute (path ++ other) = path.isAbsolute := by
  cases path with
  | nil => exact absurd rfl h
  | cons c path => rfl

variable (cwd : List String)

theorem place_append {path : OsPath} (h : path ≠ []) (other : OsPath) :
    place cwd (path ++ other) = walk (place cwd path) other.steps := by
  simp only [place, isAbsolute_append h, steps_append, walk_append]

theorem place_names {path : OsPath} (h : path ≠ []) (names : List String) :
    place cwd (path ++ names.map .normal) = place cwd path ++ names := by
  rw [place_append cwd h, steps_names, walk_down]

theorem place_push {path : OsPath} (h : path ≠ []) (other : OsPath) :
    place cwd (path.push other) =
      walk (if other.isAbsolute then [] else place cwd path) other.steps := by
  rw [push]
  by_cases ha : other.isAbsolute = true
  · simp only [ha, if_true]
    rw [place, ha, if_pos rfl]
  · simp only [ha, Bool.false_eq_true, if_false]
    rw [place_append cwd h, steps_filter_curDir]

/-- A root is in front or nowhere. -/
theorem ne_rootDir_of_mem_tail {path : String} {c : Component}
    (h : c ∈ (components path).tail) : c ≠ .rootDir := by
  have hrest : ∀ parts : List (List Char), c ∈ parts.filterMap component? → c ≠ .rootDir := by
    intro parts hc
    rcases List.mem_filterMap.mp hc with ⟨part, -, hp⟩
    rw [component?] at hp
    split at hp
    · cases hp
    · split at hp <;> cases hp <;> exact Component.noConfusion
  apply hrest (path.toList.splitOn '/')
  simp only [components] at h
  split at h
  · exact h
  · split at h
    · exact h
    · exact List.mem_of_mem_tail h

theorem place_push_component (path : OsPath) {c : Component} (h : c ≠ .rootDir) :
    place cwd (path.push [c]) = walk (place cwd path) (steps [c]) := by
  have ha : isAbsolute [c] = false := by simpa [isAbsolute] using h
  cases path with
  | nil => cases c <;> simp_all [push, place, isAbsolute, steps]
  | cons d path =>
    rw [place_push cwd (List.cons_ne_nil d path), ha]
    rfl

theorem push_normal (path : OsPath) (name : String) :
    path.push [.normal name] = path ++ [.normal name] := by
  simp [push, isAbsolute]

end OsPath

namespace Upload

open OsPath

/-- A path that is read in `base`, below `dir`, leads to a place below `dir`: from the root
it goes down through `dir`, and a relative path that climbs out of `dir` comes back down
the same directories. -/
def LeadsInto (dir base : List String) (path : OsPath) : Prop :=
  let c := climb path.steps
  dir.drop (if path.isAbsolute then 0 else base.length - c.ups) <+: c.downs

instance (dir base : List String) (path : OsPath) : Decidable (LeadsInto dir base path) :=
  inferInstanceAs (Decidable (_ <+: _))

theorem leadsInto_iff (cwd dir below : List String) {base : OsPath} (h : base ≠ [])
    (hb : place cwd base = dir ++ below) (path : OsPath) :
    dir <+: place cwd (base.push path) ↔ LeadsInto dir (dir ++ below) path := by
  rw [place_push cwd h, walk_eq_end, LeadsInto]
  by_cases ha : path.isAbsolute = true
  · simp [ha, Climb.end]
  · simp only [ha, Bool.false_eq_true, if_false, hb]
    exact Climb.prefix_end_iff dir below _

namespace Target

variable (repo : Target)

/-- The places of the directories. -/
def hiddenPlace : List String := repo.hiddenDir.place repo.cwd

def nodesPlace : List String := repo.nodesDir.place repo.cwd

def tmpPlace : List String := repo.tmpDir.place repo.cwd

theorem hiddenDir_ne_nil : repo.hiddenDir ≠ [] := by
  simp [hiddenDir, push_normal]

theorem nodesDir_ne_nil : repo.nodesDir ≠ [] := by
  simp [nodesDir, push_normal]

theorem tmpDir_ne_nil : repo.tmpDir ≠ [] := by
  simp [tmpDir, push_normal]

theorem tmpPlace_eq : repo.tmpPlace = repo.hiddenPlace ++ ["tmp"] := by
  rw [tmpPlace, tmpDir, push_normal]
  exact place_names repo.cwd repo.hiddenDir_ne_nil ["tmp"]

end Target

/-- The unpacking comes to the entry, with this disk. -/
def Reaches {ε α : Type} (run : Tarball → Except ε α × Disk) (archive : Tarball)
    (entry : ArchiveEntry) (disk : Disk) : Prop :=
  ∃ before after a, archive = before ++ some entry :: after ∧ run before = (.ok a, disk)

theorem reaches_append_singleton {ε α : Type} (run : Tarball → Except ε α × Disk)
    (archive : Tarball) (last : Option ArchiveEntry) (entry : ArchiveEntry) (disk : Disk) :
    Reaches run (archive ++ [last]) entry disk ↔
      Reaches run archive entry disk ∨
        last = some entry ∧ ∃ a, run archive = (.ok a, disk) := by
  constructor
  · rintro ⟨before, after, a, he, hr⟩
    rcases List.eq_nil_or_concat after with hn | ⟨after, x, hc⟩
    · subst hn
      obtain ⟨rfl, hx⟩ := List.append_inj' he rfl
      exact Or.inr ⟨List.head_eq_of_cons_eq hx, a, hr⟩
    · subst hc
      rw [List.concat_eq_append, ← List.cons_append, ← List.append_assoc] at he
      obtain ⟨rfl, -⟩ := List.append_inj' he rfl
      exact Or.inl ⟨before, after, a, rfl, hr⟩
  · rintro (⟨before, after, a, rfl, hr⟩ | ⟨rfl, a, hr⟩)
    · exact ⟨before, after ++ [last], a, by simp, hr⟩
    · exact ⟨archive, [], a, rfl, hr⟩

variable (repo : Target)

section Nodes

/-- The rest of an archive is unpacked only if the entries before it are. -/
theorem unpackNodes_append (disk : Disk) (xs ys : Tarball) :
    (unpackNodes repo disk (xs ++ ys)).2 =
      match (unpackNodes repo disk xs).1 with
      | .ok _ => (unpackNodes repo (unpackNodes repo disk xs).2 ys).2
      | .error _ => (unpackNodes repo disk xs).2 := by
  induction xs generalizing disk with
  | nil => simp only [List.nil_append, unpackNodes]
  | cons x xs ih =>
    rw [List.cons_append]
    cases x with
    | none => simpa only [unpackNodes] using ih disk
    | some entry =>
      simp only [unpackNodes]
      rcases unpackNode repo disk entry with ⟨result, disk'⟩
      cases result with
      | error e => rfl
      | ok hashes =>
        simp only [ih]
        cases (unpackNodes repo disk' xs).1 <;> rfl

/-- The disk once the parents of an entry's destination are there. -/
def nodeParents (disk : Disk) (entry : ArchiveEntry) : Disk :=
  repo.createDirAll disk (nodePath repo entry).parent

theorem written_unpackNode (disk : Disk) (entry : ArchiveEntry) :
    (unpackNode repo disk entry).2.written =
      if repo.pathExists (nodeParents repo disk entry) (nodePath repo entry) then disk.written
      else disk.written ++ [(nodePath repo entry).place repo.cwd] := by
  by_cases he : repo.pathExists (nodeParents repo disk entry) (nodePath repo entry)
  · rw [if_pos he]
    rw [nodeParents] at he
    simp only [unpackNode, if_pos he]
    rfl
  · rw [if_neg he]
    rw [nodeParents] at he
    simp only [unpackNode, if_neg he]
    split
    · rfl
    · split <;> rfl

theorem unpackNodes_singleton (disk : Disk) (entry : ArchiveEntry) :
    (unpackNodes repo disk [some entry]).2 = (unpackNode repo disk entry).2 := by
  simp only [unpackNodes]
  rcases unpackNode repo disk entry with ⟨result, disk'⟩
  cases result <;> rfl

theorem mem_written_unpackNodes (disk : Disk) (archive : Tarball) (p : List String) :
    p ∈ (unpackNodes repo disk archive).2.written ↔
      p ∈ disk.written ∨ ∃ entry disk',
        Reaches (unpackNodes repo disk) archive entry disk' ∧
          repo.pathExists (nodeParents repo disk' entry) (nodePath repo entry) = false ∧
          p = (nodePath repo entry).place repo.cwd := by
  induction archive using List.reverseRecOn with
  | nil =>
    simp only [unpackNodes]
    refine ⟨Or.inl, ?_⟩
    rintro (h | ⟨entry, disk', ⟨before, after, a, he, -⟩, -⟩)
    · exact h
    · simp at he
  | append_singleton archive last ih =>
    rw [unpackNodes_append]
    simp only [reaches_append_singleton]
    rcases hr : unpackNodes repo disk archive with ⟨result, disk₁⟩
    rw [hr] at ih
    cases result with
    | error e => simpa using ih
    | ok hashes =>
      cases last with
      | none => simpa [unpackNodes] using ih
      | some entry =>
        simp only [unpackNodes_singleton, written_unpackNode]
        by_cases he : repo.pathExists (nodeParents repo disk₁ entry) (nodePath repo entry)
        · rw [if_pos he, ih]
          apply or_congr_right
          constructor
          · rintro ⟨e, d, h, hx⟩
            exact ⟨e, d, Or.inl h, hx⟩
          · rintro ⟨e, d, h | ⟨h, a, hd⟩, hx⟩
            · exact ⟨e, d, h, hx⟩
            · cases h
              cases hd
              simp [he] at hx
        · rw [if_neg he, List.mem_append, ih, or_assoc]
          apply or_congr_right
          constructor
          · rintro (⟨e, d, h, hx⟩ | h)
            · exact ⟨e, d, Or.inl h, hx⟩
            · exact ⟨entry, disk₁, Or.inr ⟨rfl, hashes, rfl⟩, by simpa using he,
                List.mem_singleton.mp h⟩
          · rintro ⟨e, d, h | ⟨h, a, hd⟩, hx⟩
            · exact Or.inl ⟨e, d, h, hx⟩
            · cases h
              cases hd
              exact Or.inr (List.mem_singleton.mpr hx.2)

end Nodes

section Tree

/-- Where an entry of a tree archive goes. -/
def treePath (entry : ArchiveEntry) : OsPath :=
  repo.tmpDir.push (strippedPath (components entry.path))

theorem mem_written_unpackTreeTarball (disk : Disk) (archive : Tarball) (p : List String) :
    p ∈ (unpackTreeTarball repo disk archive).written ↔
      p ∈ disk.written ∨ ∃ entry, some entry ∈ archive ∧
        p = (treePath repo entry).place repo.cwd := by
  induction archive generalizing disk with
  | nil => simp [unpackTreeTarball]
  | cons x archive ih =>
    cases x with
    | none => simp [unpackTreeTarball, ih]
    | some entry =>
      rw [unpackTreeTarball, ih]
      simp [Target.unpack, Target.createDirAll, treePath, or_assoc]

end Tree

section Entries

theorem unpackEntryTarballAsync_append (disk : Disk) (xs ys : Tarball) :
    (unpackEntryTarballAsync repo disk (xs ++ ys)).2 =
      match (unpackEntryTarballAsync repo disk xs).1 with
      | .ok _ => (unpackEntryTarballAsync repo (unpackEntryTarballAsync repo disk xs).2 ys).2
      | .error _ => (unpackEntryTarballAsync repo disk xs).2 := by
  induction xs generalizing disk with
  | nil => simp only [List.nil_append, unpackEntryTarballAsync]
  | cons x xs ih =>
    rw [List.cons_append]
    cases x with
    | none => simp only [unpackEntryTarballAsync]
    | some entry =>
      simp only [unpackEntryTarballAsync]
      cases unpackEntry repo disk entry with
      | error e => simp only
      | ok disk' => simpa only using ih disk'

theorem destination_eq {dest path result : OsPath} (h : destination dest path = some result) :
    ∃ names : List String, result = dest ++ names.map .normal := by
  induction path generalizing dest with
  | nil => exact ⟨[], by simpa [destination] using h.symm⟩
  | cons c path ih =>
    cases c with
    | normal part =>
      rcases ih (by simpa only [destination] using h) with ⟨names, hn⟩
      exact ⟨part :: names, by simp [hn, push_normal]⟩
    | parentDir => simp [destination] at h
    | rootDir => exact ih (by simpa only [destination] using h)
    | curDir => exact ih (by simpa only [destination] using h)

/-- Names are only added to the hidden directory. -/
theorem destination_inside {path dest : OsPath}
    (h : destination repo.hiddenDir path = some dest) :
    repo.hiddenPlace <+: dest.place repo.cwd := by
  rcases destination_eq h with ⟨names, rfl⟩
  rw [place_names repo.cwd repo.hiddenDir_ne_nil]
  exact List.prefix_append _ _

/-- The version that an entry would be stored as, unless it exists, and its path. -/
def NewVersion (disk : Disk) (entry : ArchiveEntry) (root : OsPath)
    (hash : Component × Component) : Prop :=
  isVersionFile entry = true ∧ extractHashFromPath (components entry.path) = some hash ∧
    repo.versionsDir = some root ∧
    repo.pathExists (repo.createDirAll disk (versionPath root hash).parent)
      (versionPath root hash) = false

theorem written_unpackEntry {disk disk' : Disk} {entry : ArchiveEntry}
    (h : unpackEntry repo disk entry = .ok disk') {p : List String}
    (hp : p ∈ disk'.written) :
    p ∈ disk.written ∨ repo.hiddenPlace <+: p ∨
      ∃ root hash, NewVersion repo disk entry root hash ∧
        p = (versionPath root hash).place repo.cwd := by
  simp only [unpackEntry] at h
  split at h
  · next hv =>
    split at h
    · cases h
    · next hash hx =>
      cases h
      simp only [storeVersionFromReader] at hp
      split at hp
      · exact Or.inl hp
      · next root hr =>
        split at hp
        · exact Or.inl hp
        · next he =>
          rcases List.mem_append.mp hp with hp | hp
          · exact Or.inl hp
          · exact Or.inr (Or.inr ⟨root, hash, ⟨hv, hx, hr, by simpa using he⟩,
              List.mem_singleton.mp hp⟩)
  · split at h
    · cases h
    · split at h
      · cases h
      · next dest hd =>
        split at h
        · cases h
          exact Or.inl hp
        · cases h
          rcases List.mem_append.mp hp with hp | hp
          · exact Or.inl hp
          · rw [List.mem_singleton.mp hp]
            exact Or.inr (Or.inl (destination_inside repo hd))

/-- A new version is written. -/
theorem NewVersion.written {disk : Disk} {entry : ArchiveEntry} {root : OsPath}
    {hash : Component × Component} (h : NewVersion repo disk entry root hash) :
    ∃ disk', unpackEntry repo disk entry = .ok disk' ∧
      (versionPath root hash).place repo.cwd ∈ disk'.written := by
  rcases h with ⟨hv, hx, hr, he⟩
  refine ⟨storeVersionFromReader repo disk hash, ?_, ?_⟩
  · simp only [unpackEntry, hv, hx, if_true]
  · simp [storeVersionFromReader, hr, he, Target.unpack]

theorem written_subset_unpackEntry {disk disk' : Disk} {entry : ArchiveEntry}
    (h : unpackEntry repo disk entry = .ok disk') : disk.written ⊆ disk'.written := by
  simp only [unpackEntry, storeVersionFromReader] at h
  intro p hp
  split at h
  · split at h
    · cases h
    · cases h
      split
      · exact hp
      · split
        · exact hp
        · exact List.mem_append_left _ hp
  · split at h
    · cases h
    · split at h
      · cases h
      · split at h <;> cases h
        · exact hp
        · exact List.mem_append_left _ hp

theorem mem_written_unpackEntryTarballAsync {disk : Disk} {archive : Tarball}
    {p : List String} (hp : p ∈ (unpackEntryTarballAsync repo disk archive).2.written) :
    p ∈ disk.written ∨ repo.hiddenPlace <+: p ∨ ∃ entry disk' root hash,
      Reaches (unpackEntryTarballAsync repo disk) archive entry disk' ∧
        NewVersion repo disk' entry root hash ∧
        p = (versionPath root hash).place repo.cwd := by
  induction archive using List.reverseRecOn with
  | nil => exact Or.inl (by simpa only [unpackEntryTarballAsync] using hp)
  | append_singleton archive last ih =>
    have hbefore : p ∈ (unpackEntryTarballAsync repo disk archive).2.written →
        p ∈ disk.written ∨ repo.hiddenPlace <+: p ∨ ∃ entry disk' root hash,
          Reaches (unpackEntryTarballAsync repo disk) (archive ++ [last]) entry disk' ∧
            NewVersion repo disk' entry root hash ∧
            p = (versionPath root hash).place repo.cwd := by
      intro h
      rcases ih h with h | h | ⟨entry, disk', root, hash, hr, hx⟩
      · exact Or.inl h
      · exact Or.inr (Or.inl h)
      · refine Or.inr (Or.inr ⟨entry, disk', root, hash, ?_, hx⟩)
        exact (reaches_append_singleton _ _ _ _ _).mpr (Or.inl hr)
    rw [unpackEntryTarballAsync_append] at hp
    rcases hrun : unpackEntryTarballAsync repo disk archive with ⟨result, disk₁⟩
    rw [hrun] at hp hbefore
    cases result with
    | error e => exact hbefore hp
    | ok =>
      cases last with
      | none => exact hbefore (by simpa only [unpackEntryTarballAsync] using hp)
      | some entry =>
        simp only [unpackEntryTarballAsync] at hp
        cases he : unpackEntry repo disk₁ entry with
        | error e => exact hbefore (by simpa only [he] using hp)
        | ok disk₂ =>
          simp only [he] at hp
          rcases written_unpackEntry repo he hp with h | h | ⟨root, hash, hx, h⟩
          · exact hbefore h
          · exact Or.inr (Or.inl h)
          · refine Or.inr (Or.inr ⟨entry, disk₁, root, hash, ?_, hx, h⟩)
            exact (reaches_append_singleton _ _ _ _ _).mpr (Or.inr ⟨rfl, (), hrun⟩)

theorem written_subset_unpackEntryTarballAsync (disk : Disk) (archive : Tarball) :
    disk.written ⊆ (unpackEntryTarballAsync repo disk archive).2.written := by
  induction archive generalizing disk with
  | nil => simp [unpackEntryTarballAsync]
  | cons x archive ih =>
    cases x with
    | none => simp [unpackEntryTarballAsync]
    | some entry =>
      simp only [unpackEntryTarballAsync]
      cases he : unpackEntry repo disk entry with
      | error e => simp
      | ok disk' => exact List.Subset.trans (written_subset_unpackEntry repo he) (ih disk')

theorem Reaches.version_written {disk disk' : Disk} {archive : Tarball} {entry : ArchiveEntry}
    {root : OsPath} {hash : Component × Component}
    (h : Reaches (unpackEntryTarballAsync repo disk) archive entry disk')
    (hx : NewVersion repo disk' entry root hash) :
    (versionPath root hash).place repo.cwd ∈
      (unpackEntryTarballAsync repo disk archive).2.written := by
  rcases h with ⟨before, after, a, rfl, hr⟩
  rcases hx.written with ⟨disk₂, he, hw⟩
  rw [unpackEntryTarballAsync_append, hr]
  simp only [unpackEntryTarballAsync, he]
  exact written_subset_unpackEntryTarballAsync repo disk₂ after hw

theorem NewVersion.place_eq {disk : Disk} {entry : ArchiveEntry} {root : OsPath}
    {hash : Component × Component} (h : NewVersion repo disk entry root hash) :
    (versionPath root hash).place repo.cwd =
      (climb (steps [hash.1, hash.2, .normal "data"])).end (root.place repo.cwd) := by
  rcases h with ⟨-, hx, -, -⟩
  have htail : hash.1 ∈ (components entry.path).tail ∧ hash.2 ∈ (components entry.path).tail := by
    unfold extractHashFromPath at hx
    split at hx
    · next topDir subDir _ _ hc =>
      split at hx
      · cases hx
        simp [hc]
      · cases hx
    · simp at hx
  rw [versionPath, place_push_component repo.cwd _ (by decide),
    place_push_component repo.cwd _ (ne_rootDir_of_mem_tail htail.2),
    place_push_component repo.cwd _ (ne_rootDir_of_mem_tail htail.1), ← walk_append,
    ← walk_append, ← steps_append, ← steps_append, walk_eq_end]
  rfl

end Entries

/-- Every path of a new entry leads into the nodes directory. -/
def NodesLeadInside (disk : Disk) (archive : Tarball) : Prop :=
  ∀ entry disk', Reaches (unpackNodes repo disk) archive entry disk' →
    repo.pathExists (nodeParents repo disk' entry) (nodePath repo entry) = false →
    LeadsInto repo.nodesPlace repo.nodesPlace (components entry.path)

def TreeLeadsInside (archive : Tarball) : Prop :=
  ∀ entry, some entry ∈ archive →
    LeadsInto repo.hiddenPlace repo.tmpPlace (strippedPath (components entry.path))

/-- No new version goes to a configured version store from which its directories do not
lead into the hidden directory. -/
def VersionsLeadInside (disk : Disk) (archive : Tarball) : Prop :=
  ∀ entry disk', Reaches (unpackEntryTarballAsync repo disk) archive entry disk' →
    ∀ root hash, NewVersion repo disk' entry root hash →
      repo.hiddenPlace <+:
        (climb (steps [hash.1, hash.2, .normal "data"])).end (root.place repo.cwd)

/-- The unpacked archives wrote in the nodes directory, and in the hidden directory. -/
def UploadsStayInside (existing : List (List String)) (nodes tree entries : Tarball) : Prop :=
  (∀ p ∈ (unpackNodes repo { existing } nodes).2.written, repo.nodesPlace <+: p) ∧
  (∀ p ∈ (unpackTreeTarball repo { existing } tree).written, repo.hiddenPlace <+: p) ∧
  (∀ p ∈ (unpackEntryTarballAsync repo { existing } entries).2.written, repo.hiddenPlace <+: p)

theorem nodes_stay_iff (existing : List (List String)) (nodes : Tarball) :
    (∀ p ∈ (unpackNodes repo { existing } nodes).2.written, repo.nodesPlace <+: p) ↔
      NodesLeadInside repo { existing } nodes := by
  have hn : place repo.cwd repo.nodesDir = repo.nodesPlace ++ [] := (List.append_nil _).symm
  simp only [mem_written_unpackNodes, NodesLeadInside]
  constructor
  · intro h entry disk hr he
    have hp := h _ (Or.inr ⟨entry, disk, hr, he, rfl⟩)
    rw [nodePath, leadsInto_iff _ _ _ repo.nodesDir_ne_nil hn] at hp
    simpa using hp
  · rintro h p (hp | ⟨entry, disk, hr, he, rfl⟩)
    · simp at hp
    · rw [nodePath, leadsInto_iff _ _ _ repo.nodesDir_ne_nil hn]
      simpa using h entry disk hr he

theorem tree_stays_iff (existing : List (List String)) (tree : Tarball) :
    (∀ p ∈ (unpackTreeTarball repo { existing } tree).written, repo.hiddenPlace <+: p) ↔
      TreeLeadsInside repo tree := by
  have ht : place repo.cwd repo.tmpDir = repo.hiddenPlace ++ ["tmp"] := repo.tmpPlace_eq
  simp only [mem_written_unpackTreeTarball, TreeLeadsInside, repo.tmpPlace_eq]
  constructor
  · intro h entry he
    have hp := h _ (Or.inr ⟨entry, he, rfl⟩)
    rwa [treePath, leadsInto_iff _ _ _ repo.tmpDir_ne_nil ht] at hp
  · rintro h p (hp | ⟨entry, he, rfl⟩)
    · simp at hp
    · rw [treePath, leadsInto_iff _ _ _ repo.tmpDir_ne_nil ht]
      exact h entry he

theorem entries_stay_iff (existing : List (List String)) (entries : Tarball) :
    (∀ p ∈ (unpackEntryTarballAsync repo { existing } entries).2.written,
      repo.hiddenPlace <+: p) ↔ VersionsLeadInside repo { existing } entries := by
  constructor
  · intro h entry disk hr root hash hx
    rw [← hx.place_eq]
    exact h _ (hr.version_written repo hx)
  · intro h p hp
    rcases mem_written_unpackEntryTarballAsync repo hp with hp | hp | ⟨e, d, r, x, hr, hx, rfl⟩
    · simp at hp
    · exact hp
    · rw [hx.place_eq]
      exact h e d hr r x hx

/-- Two directory names climb at most two directories, which are those of the version
store in its default place. -/
theorem versionsLeadInside_default (disk : Disk) (archive : Tarball)
    (h : repo.storage = .localStorage none) : VersionsLeadInside repo disk archive := by
  intro entry disk' _ root hash hx
  have hroot : place repo.cwd root = repo.hiddenPlace ++ ["versions", "files"] := by
    have hv := hx.2.2.1
    simp only [Target.versionsDir, h, Option.some.injEq, push_normal, List.append_assoc] at hv
    rw [← hv]
    exact place_names repo.cwd repo.hiddenDir_ne_nil ["versions", "files"]
  rw [hroot, Climb.prefix_end_iff]
  have hups : (climb (steps [hash.1, hash.2, .normal "data"])).ups ≤ 2 := by
    rcases hash with ⟨topDir, subDir⟩
    cases topDir <;> cases subDir <;> simp [steps, climb, Climb.step]
  rw [List.drop_eq_nil_of_le (by simp; omega)]
  exact List.nil_prefix

/-- The first two archives stay inside exactly if the paths of their new entries lead there;
the third does unless the version store is configured to be elsewhere. -/
theorem uploadsStayInside_iff (existing : List (List String)) (nodes tree entries : Tarball) :
    UploadsStayInside repo existing nodes tree entries ↔
      NodesLeadInside repo { existing } nodes ∧ TreeLeadsInside repo tree ∧
        VersionsLeadInside repo { existing } entries := by
  rw [UploadsStayInside, nodes_stay_iff, tree_stays_iff, entries_stay_iff]

section Example

private def cats : Target :=
  { cwd := ["srv"], path := components "/data/ox/cats", storage := .localStorage none }

private def existing : List (List String) := [["data", "ox", "cats", ".oxen", "tree", "nodes"]]

/-- A node of another repository. -/
private def climbing : Tarball :=
  [some { path := "../../../../dogs/.oxen/tree/nodes/ab/cd/node" }]

private def absolute : Tarball :=
  [some { path := "/etc/cron.d/job" }]

theorem not_uploadsStayInside :
    ¬ UploadsStayInside cats existing climbing [] [] ∧
      ¬ UploadsStayInside cats existing [] absolute [] := by
  simp only [UploadsStayInside, nodes_stay_iff, tree_stays_iff]
  constructor
  · rintro ⟨h, -, -⟩
    have hl := h { path := "../../../../dogs/.oxen/tree/nodes/ab/cd/node" } { existing }
      ⟨[], [], [], rfl, rfl⟩ (by decide)
    exact absurd hl (by decide)
  · rintro ⟨-, h, -⟩
    exact absurd (h _ (List.mem_singleton_self _)) (by decide)

end Example

end Upload

end Oxen
