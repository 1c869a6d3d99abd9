import Oxen.Lib.Runs
import Oxen.Model.Status

/-! What the staged entries make of the changes on disk. -/

namespace Oxen

namespace Status

open CommitWriter

variable {staged : StagedDb} {data : StagedData} {entry : StagedMerkleTreeNode} {path x : PathBuf}

/-- The staged database after files were staged: every entry lies under its own path, with
directories above. -/
structure StagedFiles (staged : StagedDb) : Prop where
  kinds : ∀ path entry, staged.lookup path = some entry →
    (path ≠ [] ∧ ∃ f, entry.node = .file f ∧ f.name = path) ∨
      ∃ d, entry.node = .directory d ∧ d.name = path
  parents : ∀ path name, path ≠ [] → path ++ [name] ∈ staged → ∃ entry d,
    staged.lookup path = some entry ∧ entry.node = .directory d

/-- A file is staged at the path, with any status. -/
def StagedFile (staged : StagedDb) (path : PathBuf) : Prop :=
  ∃ entry f, staged.lookup path = some entry ∧ entry.node = .file f

/-! ## Reading the staged entries -/

/-- The entry is listed for some directory. -/
def ListedEntry (dirEntries : DirEntries) (entry : StagedMerkleTreeNode) : Prop :=
  ∃ directory entries, dirEntries.lookup directory = some entries ∧ entry ∈ entries

theorem listedEntry_insertNew {dirEntries : DirEntries} :
    ListedEntry (KeyedMap.insertNew dirEntries path []) entry ↔ ListedEntry dirEntries entry := by
  unfold KeyedMap.insertNew
  split
  · rfl
  · next hpath =>
    constructor
    · rintro ⟨directory, entries, hlookup, hentry⟩
      rcases KeyedMap.lookup_insert_eq_some.mp hlookup with ⟨rfl, rfl⟩ | ⟨-, hlookup⟩
      · cases hentry
      · exact ⟨directory, entries, hlookup, hentry⟩
    · rintro ⟨directory, entries, hlookup, hentry⟩
      refine ⟨directory, entries, KeyedMap.lookup_insert_eq_some.mpr (.inr ⟨?_, hlookup⟩), hentry⟩
      rintro rfl
      rw [AList.lookup_eq_none.mpr hpath] at hlookup
      cases hlookup

theorem listedEntry_append {dirEntries : DirEntries} {directory : PathBuf}
    {new : StagedMerkleTreeNode} :
    ListedEntry (dirEntries.insert directory ((dirEntries.lookup directory).getD [] ++ [new]))
      entry ↔ entry = new ∨ ListedEntry dirEntries entry := by
  constructor
  · rintro ⟨directory', entries, hlookup, hentry⟩
    rcases KeyedMap.lookup_insert_eq_some.mp hlookup with ⟨rfl, rfl⟩ | ⟨-, hlookup⟩
    · rcases List.mem_append.mp hentry with hentry | hentry
      · cases hold : dirEntries.lookup directory' with
        | none => simp [hold] at hentry
        | some old => exact .inr ⟨directory', old, hold, by simpa [hold] using hentry⟩
      · exact .inl (List.mem_singleton.mp hentry)
    · exact .inr ⟨directory', entries, hlookup, hentry⟩
  · intro h
    by_cases hnew : entry = new
    · exact ⟨directory, _, AList.lookup_insert _, by simp [hnew]⟩
    · rcases h.resolve_left hnew with ⟨directory', entries, hlookup, hentry⟩
      rcases eq_or_ne directory' directory with rfl | hne
      · exact ⟨directory', _, AList.lookup_insert _, by simp [hlookup, hentry]⟩
      · exact ⟨directory', entries, by rw [AList.lookup_insert_ne hne, hlookup], hentry⟩

/-- All entries but the root's are read. -/
theorem listedEntry_readStagedEntries :
    ListedEntry (readStagedEntries staged) entry ↔
      ∃ path, path ≠ [] ∧ staged.lookup path = some entry := by
  have hpairs : (∃ path, path ≠ [] ∧ staged.lookup path = some entry) ↔
      ∃ path, path ≠ [] ∧ (path, entry) ∈ KeyedMap.toList staged := by
    simp only [KeyedMap.mem_toList]
  have hempty : ¬ ListedEntry ∅ entry := by
    rintro ⟨directory, entries, hlookup, -⟩
    cases hlookup
  rw [hpairs, readStagedEntries]
  refine Iff.trans ?_ (or_iff_right hempty)
  generalize KeyedMap.toList staged = pairs
  generalize (∅ : DirEntries) = dirEntries
  induction pairs generalizing dirEntries with
  | nil => simp
  | cons pair pairs ih =>
      rcases pair with ⟨path, new⟩
      rw [List.foldl_cons, ih]
      have hstep (entries : DirEntries)
          (hentries : ListedEntry entries entry ↔ ListedEntry dirEntries entry) :
          (ListedEntry (if path = [] then entries else entries.insert path.dropLast
              ((entries.lookup path.dropLast).getD [] ++ [new])) entry ∨
            ∃ p, p ≠ [] ∧ (p, entry) ∈ pairs) ↔
          (ListedEntry dirEntries entry ∨ ∃ p, p ≠ [] ∧ (p, entry) ∈ (path, new) :: pairs) := by
        have htail : (∃ p, p ≠ [] ∧ (p, entry) ∈ (path, new) :: pairs) ↔
            (path ≠ [] ∧ entry = new) ∨ ∃ p, p ≠ [] ∧ (p, entry) ∈ pairs := by
          constructor
          · rintro ⟨p, hp, hmem⟩
            rcases List.mem_cons.mp hmem with heq | hmem
            · obtain ⟨rfl, rfl⟩ := Prod.mk.inj heq
              exact .inl ⟨hp, rfl⟩
            · exact .inr ⟨p, hp, hmem⟩
          · rintro (⟨hp, rfl⟩ | ⟨p, hp, hmem⟩)
            · exact ⟨path, hp, List.mem_cons_self⟩
            · exact ⟨p, hp, List.mem_cons_of_mem _ hmem⟩
        rw [htail]
        split_ifs with hpath
        · rw [hentries, or_iff_right (a := path ≠ [] ∧ entry = new) fun h => h.1 hpath]
        · rw [listedEntry_append, hentries, and_iff_right hpath]
          tauto
      dsimp only
      cases hnode : new.node with
      | directory d => exact hstep _ listedEntry_insertNew
      | file f => exact hstep _ Iff.rfl
      | vnode v => exact hstep _ Iff.rfl
      | commit c => exact hstep _ Iff.rfl

/-! ## Adding the staged entries -/

/-- What a list of staged entries makes of the data. -/
structure Adds (entries : List StagedMerkleTreeNode) (data out : StagedData) : Prop where
  untrackedDirs : out.untrackedDirs = data.untrackedDirs
  untrackedFiles : out.untrackedFiles = data.untrackedFiles
  removed : ∀ x, x ∈ out.removedFiles ↔
    x ∈ data.removedFiles ∧ ∀ entry ∈ entries, entry.path ≠ x
  modified : ∀ x, x ∈ out.modifiedFiles ↔ x ∈ data.modifiedFiles ∧
    ∀ entry ∈ entries, ∀ f, entry.node = .file f → f.name ≠ x
  staged : ∀ entry ∈ entries, ∀ f, entry.node = .file f →
    out.stagedFiles.lookup f.name =
      some { hash := MerkleHash.display f.hash, status := entry.status }
  others : ∀ x, (∀ entry ∈ entries, ∀ f, entry.node = .file f → f.name ≠ x) →
    out.stagedFiles.lookup x = data.stagedFiles.lookup x

theorem mem_erase_insert_iff {s : Finset PathBuf} (c : Prop) [Decidable c] :
    x ∈ (if c then insert path s else s).erase path ↔ x ∈ s ∧ path ≠ x := by
  split_ifs
  · rw [Finset.erase_insert_eq_erase, Finset.mem_erase, and_comm, ne_comm]
  · rw [Finset.mem_erase, and_comm, ne_comm]

theorem foldlM_addStaged {entries : List StagedMerkleTreeNode}
    (hkinds : ∀ entry ∈ entries, (∃ f, entry.node = .file f) ∨ ∃ d, entry.node = .directory d)
    (hunique : ∀ entry ∈ entries, ∀ entry' ∈ entries, entry.path = entry'.path → entry = entry')
    (data : StagedData) :
    ∃ out, entries.foldlM addStaged data = .ok out ∧ Adds entries data out := by
  induction entries generalizing data with
  | nil => exact ⟨data, rfl, by constructor <;> simp⟩
  | cons entry entries ih =>
      have hih := ih (fun e he => hkinds e (List.mem_cons_of_mem _ he))
        (fun e he e' he' => hunique e (List.mem_cons_of_mem _ he) e' (List.mem_cons_of_mem _ he'))
      rcases hkinds entry List.mem_cons_self with ⟨f, hf⟩ | ⟨d, hd⟩
      · have hpath : entry.path = f.name := by
          simp [StagedMerkleTreeNode.path, hf, EMerkleTreeNode.ownPath]
        rw [List.foldlM_cons, addStaged, hf]
        dsimp only [Runs.ok_bind]
        rcases hih { data with
          stagedFiles := data.stagedFiles.insert f.name
            { hash := MerkleHash.display f.hash, status := entry.status }
          modifiedFiles :=
            (if entry.status = .modified then insert f.name data.modifiedFiles
              else data.modifiedFiles).erase f.name
          removedFiles := data.removedFiles.erase f.name } with ⟨out, hrun, hadds⟩
        refine ⟨out, hrun, hadds.untrackedDirs, hadds.untrackedFiles, fun x => ?_, fun x => ?_, ?_,
          fun x hx => ?_⟩
        · rw [hadds.removed, Finset.mem_erase, List.forall_mem_cons, hpath, ne_comm]
          tauto
        · rw [hadds.modified, mem_erase_insert_iff, List.forall_mem_cons, and_assoc]
          refine and_congr_right fun _ => and_congr_left fun _ => ⟨fun hne g hg => ?_, fun h => ?_⟩
          · obtain rfl := EMerkleTreeNode.file.inj (hf.symm.trans hg)
            exact hne
          · exact h f hf
        · intro e he g hg
          rcases List.mem_cons.mp he with rfl | he
          · obtain rfl := EMerkleTreeNode.file.inj (hf.symm.trans hg)
            by_cases hlater : ∀ e ∈ entries, ∀ g, e.node = .file g → g.name ≠ f.name
            · rw [hadds.others _ hlater]
              exact AList.lookup_insert _
            · simp only [not_forall, not_not] at hlater
              rcases hlater with ⟨e', he', g', hg', hname⟩
              have hpath' : e'.path = g'.name := by
                simp [StagedMerkleTreeNode.path, hg', EMerkleTreeNode.ownPath]
              have heq := hunique e' (List.mem_cons_of_mem _ he') e List.mem_cons_self
                (by rw [hpath', hpath, hname])
              exact hadds.staged e (heq ▸ he') f hf
          · exact hadds.staged e he g hg
        · rw [hadds.others x fun e he => hx e (List.mem_cons_of_mem _ he)]
          exact AList.lookup_insert_ne (Ne.symm (hx entry List.mem_cons_self f hf))
      · have hpath : entry.path = d.name := by
          simp [StagedMerkleTreeNode.path, hd, EMerkleTreeNode.ownPath]
        have hnoFile : ∀ g, entry.node ≠ .file g := fun g hg => by
          rw [hd] at hg
          cases hg
        rw [List.foldlM_cons, addStaged, hd]
        dsimp only [Runs.ok_bind]
        rcases hih { data with removedFiles := data.removedFiles.erase d.name } with
          ⟨out, hrun, hadds⟩
        refine ⟨out, hrun, hadds.untrackedDirs, hadds.untrackedFiles, fun x => ?_, fun x => ?_, ?_,
          fun x hx => ?_⟩
        · rw [hadds.removed, Finset.mem_erase, List.forall_mem_cons, hpath, ne_comm]
          tauto
        · rw [hadds.modified, List.forall_mem_cons,
            and_iff_right fun g hg => absurd hg (hnoFile g)]
        · intro e he g hg
          rcases List.mem_cons.mp he with rfl | he
          · exact absurd hg (hnoFile g)
          · exact hadds.staged e he g hg
        · exact hadds.others x fun e he => hx e (List.mem_cons_of_mem _ he)

/-- The entries of all directories one after the other. -/
theorem statusFromDirEntries_eq (data : StagedData) (dirEntries : DirEntries) :
    statusFromDirEntries data dirEntries =
      ((KeyedMap.toList dirEntries).flatMap Prod.snd).foldlM addStaged data := by
  rw [statusFromDirEntries]
  induction KeyedMap.toList dirEntries generalizing data with
  | nil => rfl
  | cons pair pairs ih =>
      rw [List.foldlM_cons, List.flatMap_cons, List.foldlM_append]
      exact congrArg _ (funext ih)

/-- What the staged database makes of the changes on disk. -/
structure AddsStaged (staged : StagedDb) (data out : StagedData) : Prop where
  untrackedDirs : out.untrackedDirs = data.untrackedDirs
  untrackedFiles : out.untrackedFiles = data.untrackedFiles
  removed : ∀ x, x ∈ out.removedFiles ↔ x ∈ data.removedFiles ∧ (x = [] ∨ x ∉ staged)
  modified : ∀ x, x ∈ out.modifiedFiles ↔ x ∈ data.modifiedFiles ∧ ¬ StagedFile staged x
  files : ∀ path entry f, staged.lookup path = some entry → entry.node = .file f →
    out.stagedFiles.lookup path =
      some { hash := MerkleHash.display f.hash, status := entry.status }
  others : ∀ x, ¬ StagedFile staged x → out.stagedFiles.lookup x = data.stagedFiles.lookup x

theorem statusFromDirEntries_spec (h : StagedFiles staged) (data : StagedData) :
    ∃ out, statusFromDirEntries data (readStagedEntries staged) = .ok out ∧
      AddsStaged staged data out := by
  have hpath : ∀ path entry, staged.lookup path = some entry → entry.path = path := by
    intro path entry hlookup
    rcases h.kinds path entry hlookup with ⟨-, f, hf, hname⟩ | ⟨d, hd, hname⟩
    · simp [StagedMerkleTreeNode.path, hf, EMerkleTreeNode.ownPath, hname]
    · simp [StagedMerkleTreeNode.path, hd, EMerkleTreeNode.ownPath, hname]
  have hmem : ∀ entry, entry ∈ (KeyedMap.toList (readStagedEntries staged)).flatMap Prod.snd ↔
      ∃ path, path ≠ [] ∧ staged.lookup path = some entry := by
    intro entry
    rw [← listedEntry_readStagedEntries, List.mem_flatMap]
    constructor
    · rintro ⟨⟨directory, entries⟩, hpair, hentry⟩
      exact ⟨directory, entries, KeyedMap.mem_toList.mp hpair, hentry⟩
    · rintro ⟨directory, entries, hlookup, hentry⟩
      exact ⟨(directory, entries), KeyedMap.mem_toList.mpr hlookup, hentry⟩
  have hfile : ∀ path entry f, staged.lookup path = some entry → entry.node = .file f →
      path ≠ [] ∧ f.name = path := by
    intro path entry f hlookup hf
    rcases h.kinds path entry hlookup with ⟨hne, g, hg, hname⟩ | ⟨d, hd, -⟩
    · obtain rfl := EMerkleTreeNode.file.inj (hf.symm.trans hg)
      exact ⟨hne, hname⟩
    · cases hf.symm.trans hd
  have hstaged : ∀ x, (∀ entry ∈ (KeyedMap.toList (readStagedEntries staged)).flatMap Prod.snd,
      ∀ f, entry.node = .file f → f.name ≠ x) ↔ ¬ StagedFile staged x := by
    intro x
    constructor
    · rintro hnone ⟨entry, f, hlookup, hf⟩
      obtain ⟨hne, hname⟩ := hfile x entry f hlookup hf
      exact hnone entry ((hmem entry).mpr ⟨x, hne, hlookup⟩) f hf hname
    · rintro hnone entry hentry f hf rfl
      rcases (hmem entry).mp hentry with ⟨path, -, hlookup⟩
      obtain ⟨-, rfl⟩ := hfile path entry f hlookup hf
      exact hnone ⟨entry, f, hlookup, hf⟩
  have hkinds : ∀ entry ∈ (KeyedMap.toList (readStagedEntries staged)).flatMap Prod.snd,
      (∃ f, entry.node = .file f) ∨ ∃ d, entry.node = .directory d := by
    intro entry hentry
    rcases (hmem entry).mp hentry with ⟨path, -, hlookup⟩
    rcases h.kinds path entry hlookup with ⟨-, f, hf, -⟩ | ⟨d, hd, -⟩
    · exact .inl ⟨f, hf⟩
    · exact .inr ⟨d, hd⟩
  have hunique : ∀ entry ∈ (KeyedMap.toList (readStagedEntries staged)).flatMap Prod.snd,
      ∀ entry' ∈ (KeyedMap.toList (readStagedEntries staged)).flatMap Prod.snd,
        entry.path = entry'.path → entry = entry' := by
    intro entry hentry entry' hentry' heq
    rcases (hmem entry).mp hentry with ⟨path, -, hlookup⟩
    rcases (hmem entry').mp hentry' with ⟨path', -, hlookup'⟩
    rw [hpath path entry hlookup, hpath path' entry' hlookup'] at heq
    rw [heq] at hlookup
    exact Option.some.inj (hlookup.symm.trans hlookup')
  rw [statusFromDirEntries_eq]
  rcases foldlM_addStaged hkinds hunique data with ⟨out, hrun, hadds⟩
  refine ⟨out, hrun, hadds.untrackedDirs, hadds.untrackedFiles, fun x => ?_, fun x => ?_,
    fun path entry f hlookup hf => ?_, fun x hx => hadds.others x ((hstaged x).mpr hx)⟩
  · rw [hadds.removed]
    refine and_congr_right fun _ => ⟨fun hnone => ?_, fun hx entry hentry heq => ?_⟩
    · by_cases hne : x = []
      · exact .inl hne
      · refine .inr fun hx => ?_
        rcases Option.isSome_iff_exists.mp (AList.lookup_isSome.mpr hx) with ⟨entry, hentry⟩
        exact hnone entry ((hmem entry).mpr ⟨x, hne, hentry⟩) (hpath x entry hentry)
    · rcases (hmem entry).mp hentry with ⟨path, hne, hlookup⟩
      obtain rfl := (hpath path entry hlookup).symm.trans heq
      exact hx.resolve_left hne (AList.lookup_isSome.mp (by rw [hlookup]; rfl))
  · rw [hadds.modified, hstaged]
  · obtain ⟨hne, rfl⟩ := hfile path entry f hlookup hf
    exact hadds.staged entry ((hmem entry).mpr ⟨_, hne, hlookup⟩) f hf

end Status

end Oxen
