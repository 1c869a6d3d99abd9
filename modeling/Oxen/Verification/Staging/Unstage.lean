import Mathlib.Data.Finset.Max
import Oxen.Model.Staging
import Oxen.Verification.Staging.RestoreStaged

/-! Removing staged paths takes out what staging put in, up to the entry of the root. -/

namespace Oxen

namespace Unstage

open RestoreStaged

variable {files paths done : List PathBuf} {staged db : StagedDb} {c k q : PathBuf}

/-! ## Staging -/

/-- The directories that count as added are in the database. -/
def SeenIn (t : Adding) : Prop :=
  ∀ path ∈ t.2, path ∈ t.1

theorem mem_addDirToStagedDb {t : Adding} (ht : SeenIn t) (path : PathBuf) :
    k ∈ (addDirToStagedDb t path).1 ↔ k = path ∨ k ∈ t.1 := by
  unfold addDirToStagedDb
  split_ifs with hseen
  · constructor
    · exact .inr
    · rintro (rfl | hk)
      · exact ht k hseen
      · exact hk
  · exact AList.mem_insert _

theorem seenIn_addDirToStagedDb {t : Adding} (ht : SeenIn t) (path : PathBuf) :
    SeenIn (addDirToStagedDb t path) := by
  intro p hp
  rw [mem_addDirToStagedDb ht]
  unfold addDirToStagedDb at hp
  split_ifs at hp
  · exact .inr (ht p hp)
  · exact (List.mem_cons.mp hp).imp_right (ht p)

theorem isPrefix_dropLast_iff {path : PathBuf} (hne : path ≠ []) :
    k <+: path.dropLast ↔ k <+: path ∧ k ≠ path := by
  have hlength : path.dropLast.length < path.length := by
    rw [List.length_dropLast]
    have := List.length_pos_of_ne_nil hne
    omega
  constructor
  · intro h
    refine ⟨h.trans (List.dropLast_prefix path), ?_⟩
    rintro rfl
    exact absurd h.length_le (not_le.mpr hlength)
  · rintro ⟨h, hk⟩
    apply List.prefix_of_prefix_length_le h (List.dropLast_prefix path)
    have hle := h.length_le
    have hlt : k.length ≠ path.length := fun heq => hk (h.eq_of_length heq)
    rw [List.length_dropLast]
    omega

/-- All directories above a path are added. -/
theorem mem_addParents {t : Adding} (ht : SeenIn t) {path : PathBuf} :
    SeenIn (addParents path.length path t) ∧
      ∀ k, k ∈ (addParents path.length path t).1 ↔ (k <+: path ∧ k ≠ path) ∨ k ∈ t.1 := by
  induction hn : path.length generalizing path t with
  | zero =>
      rw [List.length_eq_zero_iff] at hn
      subst hn
      refine ⟨ht, fun k => ?_⟩
      simp [addParents]
  | succ n ih =>
      have hne : path ≠ [] := fun hnil => by simp [hnil] at hn
      have hlast : path.dropLast.length = n := by rw [List.length_dropLast, hn]; rfl
      rcases @ih _ (seenIn_addDirToStagedDb ht path.dropLast) path.dropLast hlast with ⟨hseen, hmem⟩
      refine ⟨hseen, fun k => ?_⟩
      rw [addParents, hmem, mem_addDirToStagedDb ht, ← isPrefix_dropLast_iff hne, ← or_assoc]
      refine or_congr_left ?_
      constructor
      · rintro (⟨h, -⟩ | rfl)
        · exact h
        · exact List.prefix_refl _
      · intro h
        by_cases heq : k = path.dropLast
        · exact .inr heq
        · exact .inl ⟨h, heq⟩

theorem mem_seen_addDirToStagedDb (t : Adding) (path : PathBuf) :
    k ∈ (addDirToStagedDb t path).2 ↔ k = path ∨ k ∈ t.2 := by
  unfold addDirToStagedDb
  split_ifs with hseen
  · constructor
    · exact .inr
    · rintro (rfl | hk)
      · exact hseen
      · exact hk
  · exact List.mem_cons

theorem lookup_addDirToStagedDb (t : Adding) (path : PathBuf) :
    (addDirToStagedDb t path).1.lookup k =
      if k = path ∧ path ∉ t.2 then some { status := .added, node := defaultDirFromPath path }
      else t.1.lookup k := by
  unfold addDirToStagedDb
  split_ifs with hseen hk hk
  · exact absurd hseen hk.2
  · rfl
  · rw [hk.1, AList.lookup_insert]
  · exact AList.lookup_insert_ne fun heq => hk ⟨heq, hseen⟩

/-- The directories above a path that were not seen before get entries of their own. -/
theorem lookup_addParents (t : Adding) (path : PathBuf) :
    ((addParents path.length path t).1.lookup k =
        if (k <+: path ∧ k ≠ path) ∧ k ∉ t.2 then
          some { status := .added, node := defaultDirFromPath k }
        else t.1.lookup k) ∧
      (k ∈ (addParents path.length path t).2 ↔ (k <+: path ∧ k ≠ path) ∨ k ∈ t.2) := by
  induction hn : path.length generalizing path t with
  | zero =>
      rw [List.length_eq_zero_iff] at hn
      subst hn
      simp [addParents]
  | succ n ih =>
      have hne : path ≠ [] := fun hnil => by simp [hnil] at hn
      have hlast : path.dropLast.length = n := by rw [List.length_dropLast, hn]; rfl
      rcases ih (addDirToStagedDb t path.dropLast) path.dropLast hlast with ⟨hlookup, hseen⟩
      rw [addParents, hlookup, hseen, lookup_addDirToStagedDb]
      simp only [← isPrefix_dropLast_iff hne, mem_seen_addDirToStagedDb]
      by_cases hk : k = path.dropLast
      · subst hk
        simp
      · simp [hk]

theorem mem_pAddFileNodeToStagedDb {t : Adding} (ht : SeenIn t) (file : AddedFile) :
    SeenIn (pAddFileNodeToStagedDb t file) ∧
      ∀ k, k ∈ (pAddFileNodeToStagedDb t file).1 ↔ k <+: file.path ∨ k ∈ t.1 := by
  have hseen : SeenIn (t.1.insert file.path { status := file.status, node := .file file.node },
      t.2) := fun path hpath => (AList.mem_insert _).mpr (.inr (ht path hpath))
  rcases @mem_addParents _ hseen file.path with ⟨hseen', hmem⟩
  refine ⟨hseen', fun k => ?_⟩
  rw [pAddFileNodeToStagedDb, hmem, AList.mem_insert, ← or_assoc]
  refine or_congr_left ?_
  constructor
  · rintro (⟨h, -⟩ | rfl)
    · exact h
    · exact List.prefix_refl _
  · intro h
    by_cases heq : k = file.path
    · exact .inr heq
    · exact .inl ⟨h, heq⟩

/-- Staging puts in the files and everything above them. -/
theorem mem_addFiles (db : StagedDb) (added : List AddedFile) :
    k ∈ addFiles db added ↔ (∃ file ∈ added, k <+: file.path) ∨ k ∈ db := by
  have hfold : ∀ t : Adding, SeenIn t → (k ∈ (added.foldl pAddFileNodeToStagedDb t).1 ↔
      (∃ file ∈ added, k <+: file.path) ∨ k ∈ t.1) := by
    induction added with
    | nil => simp
    | cons file added ih =>
        intro t ht
        rcases mem_pAddFileNodeToStagedDb ht file with ⟨hseen, hmem⟩
        rw [List.foldl_cons, ih _ hseen, hmem, List.exists_mem_cons_iff, or_left_comm, ← or_assoc]
  exact hfold (db, []) nofun

/-- Calls that add files, one after the other. -/
def addAll (calls : List (List AddedFile)) : StagedDb :=
  calls.foldl addFiles ∅

/-- The paths of the files that were added. -/
def addedPaths (calls : List (List AddedFile)) : List PathBuf :=
  calls.flatten.map AddedFile.path

theorem mem_addAll {calls : List (List AddedFile)} :
    k ∈ addAll calls ↔ ∃ f ∈ addedPaths calls, k <+: f := by
  have hfold : ∀ db : StagedDb, k ∈ calls.foldl addFiles db ↔
      (∃ f ∈ addedPaths calls, k <+: f) ∨ k ∈ db := by
    induction calls with
    | nil => simp [addedPaths]
    | cons added calls ih =>
        intro db
        rw [List.foldl_cons, ih, mem_addFiles]
        simp only [addedPaths, List.flatten_cons, List.map_append, List.mem_append, List.mem_map]
        constructor
        · rintro (⟨f, hf, hk⟩ | ⟨file, hfile, hk⟩ | hk)
          · exact .inl ⟨f, .inr hf, hk⟩
          · exact .inl ⟨file.path, .inl ⟨file, hfile, rfl⟩, hk⟩
          · exact .inr hk
        · rintro (⟨f, ⟨file, hfile, rfl⟩ | hf, hk⟩ | hk)
          · exact .inr (.inl ⟨file, hfile, hk⟩)
          · exact .inl ⟨f, hf, hk⟩
          · exact .inr (.inr hk)
  rw [addAll, hfold]
  simp

/-! ## Removing -/

/-- Paths of files, none of which lies below another. -/
structure FilePaths (files : List PathBuf) : Prop where
  relative : ∀ f ∈ files, Relative f
  ne_nil : ∀ f ∈ files, f ≠ []
  apart : ∀ f ∈ files, ∀ g ∈ files, f <+: g → f = g

/-- A key at or below one of the paths, which is not the root. -/
def Covered (paths : List PathBuf) (k : PathBuf) : Prop :=
  ∃ p ∈ paths, p <+: k ∧ p ≠ []

/-- The last of the files in the order of their texts lies in a directory. -/
def LastIsNested (files : List PathBuf) : Prop :=
  ∀ f ∈ files, (∀ g ∈ files, keyText g ≤ keyText f) → 2 ≤ f.length

/-- Everything below was removed, and the root was looked at after that. -/
structure Emptied (files paths done : List PathBuf) (k : PathBuf) : Prop where
  below : ∀ f ∈ files, k <+: f → Covered paths f ∧ f ∈ done
  root : k = [] → LastIsNested files

def Gone (files paths done : List PathBuf) (k : PathBuf) : Prop :=
  Covered paths k ∧ k ∈ done ∨ Emptied files paths done k

theorem gone_file_iff (hk : k ∈ files) :
    Gone files paths done k ↔ Covered paths k ∧ k ∈ done := by
  constructor
  · rintro (h | h)
    · exact h
    · exact h.below k hk (List.prefix_refl k)
  · exact .inl

/-- What the database holds while some keys are done. -/
structure Within (files paths done : List PathBuf) (staged db : StagedDb) : Prop where
  lookup : ∀ k ∈ db, k ∈ staged ∧ db.lookup k = staged.lookup k
  kept : ∀ k ∈ staged, ¬ Gone files paths done k → k ∈ db

/-- What is gone is not in the database. -/
structure Settled (files paths done : List PathBuf) (staged db : StagedDb) : Prop extends
    Within files paths done staged db where
  gone : ∀ k ∈ db, ¬ Gone files paths done k

/-- What is gone is only in the database from a directory on upwards. -/
structure SettledBelow (files paths done : List PathBuf) (staged db : StagedDb) (q : PathBuf) :
    Prop extends Within files paths done staged db where
  gone : ∀ k ∈ db, Gone files paths done k → k <+: q ∧ Emptied files paths done k

theorem Within.erase (h : Within files paths done staged db) (hq : q ∈ staged → Gone files paths done q) :
    Within files paths done staged (db.erase q) where
  lookup k hk := by
    rw [AList.mem_erase] at hk
    rw [AList.lookup_erase_ne hk.1]
    exact h.lookup k hk.2
  kept k hk hnot := by
    rw [AList.mem_erase]
    refine ⟨?_, h.kept k hk hnot⟩
    rintro rfl
    exact hnot (hq hk)

/-- A directory is cleaned up if everything below it is gone. -/
theorem settledBelow_cleanupEmptyDirs
    (hstaged : ∀ k, k ∈ staged ↔ ∃ f ∈ files, k <+: f)
    (h : SettledBelow files paths done staged db q) (hq : q ∉ files)
    (hroot : q = [] → (∀ f ∈ files, Covered paths f ∧ f ∈ done) → LastIsNested files) :
    Within files paths done staged (cleanupEmptyDirs db q) ∧
      ∀ k ∈ cleanupEmptyDirs db q, Gone files paths done k →
        (k <+: q ∧ k ≠ q) ∧ Emptied files paths done k := by
  unfold cleanupEmptyDirs
  split_ifs with hnone
  · rw [List.all_eq_true] at hnone
    have hbelow : ∀ f ∈ files, q <+: f → Covered paths f ∧ f ∈ done := by
      intro f hf hqf
      rw [← gone_file_iff hf]
      by_contra hnot
      have hmem := h.kept f ((hstaged f).mpr ⟨f, hf, List.prefix_refl f⟩) hnot
      have hno := hnone f (AList.mem_keys.mp hmem)
      rw [decide_eq_true_eq] at hno
      exact hno ⟨hqf, fun heq => hq (heq ▸ hf)⟩
    have hgone : Gone files paths done q :=
      .inr ⟨hbelow, fun hnil => hroot hnil fun f hf => hbelow f hf (hnil ▸ List.nil_prefix)⟩
    refine ⟨h.toWithin.erase fun _ => hgone, fun k hk hk' => ?_⟩
    rw [AList.mem_erase] at hk
    have hup := h.gone k hk.2 hk'
    exact ⟨⟨hup.1, hk.1⟩, hup.2⟩
  · refine ⟨h.toWithin, fun k hk hk' => ?_⟩
    have hup := h.gone k hk hk'
    refine ⟨⟨hup.1, ?_⟩, hup.2⟩
    rintro rfl
    rw [List.all_eq_true] at hnone
    push Not at hnone
    rcases hnone with ⟨e, he, hstrict⟩
    have hstrict : k <+: e ∧ k ≠ e := by simpa using hstrict
    -- an entry below has only files below it that are gone, so it is gone itself
    have hemptied : Emptied files paths done e :=
      ⟨fun f hf hef => hup.2.below f hf (hstrict.1.trans hef), fun hnil => by
        have hup := hstrict.1
        rw [hnil, List.prefix_nil] at hup
        exact absurd (hup.trans hnil.symm) hstrict.2⟩
    have hback := (h.gone e (AList.mem_keys.mpr he) (.inr hemptied)).1
    exact hstrict.2 (hstrict.1.eq_of_length (le_antisymm hstrict.1.length_le hback.length_le))

/-- Going up cleans up all directories above an entry that is gone, and the root if the way
to it leads through another directory. -/
theorem settled_cleanupParents {height : ℕ} (hstaged : ∀ k, k ∈ staged ↔ ∃ f ∈ files, k <+: f)
    (h : SettledBelow files paths done staged db q) (hlength : q.length ≤ height)
    (hq : ∀ p, p <+: q → p ∉ files)
    (hnested : q ≠ [] → (∀ f ∈ files, Covered paths f ∧ f ∈ done) → LastIsNested files)
    (hroot : q = [] → ¬ Emptied files paths done []) :
    Settled files paths done staged (cleanupParents height q db) := by
  induction height generalizing q db with
  | zero =>
      rw [Nat.le_zero, List.length_eq_zero_iff] at hlength
      refine ⟨h.toWithin, fun k hk hgone => ?_⟩
      have hup := h.gone k hk hgone
      rw [hlength, List.prefix_nil] at hup
      exact hroot hlength (hup.1 ▸ hup.2)
  | succ height ih =>
      rw [cleanupParents]
      split_ifs with hnil
      · refine ⟨h.toWithin, fun k hk hgone => ?_⟩
        have hup := h.gone k hk hgone
        rw [hnil, List.prefix_nil] at hup
        exact hroot hnil (hup.1 ▸ hup.2)
      dsimp only
      by_cases hlast : q.dropLast = []
      · -- the root is cleaned up last
        rw [if_pos hlast]
        rcases settledBelow_cleanupEmptyDirs hstaged h (hq q (List.prefix_refl q))
          (fun heq => absurd heq hnil) with ⟨hwithin, hgone⟩
        have hbelow : SettledBelow files paths done staged (cleanupEmptyDirs db q) [] := by
          refine ⟨hwithin, fun k hk hk' => ?_⟩
          rw [← hlast, isPrefix_dropLast_iff hnil]
          exact hgone k hk hk'
        rcases settledBelow_cleanupEmptyDirs hstaged hbelow (hq [] List.nil_prefix)
          (fun _ => hnested hnil) with ⟨hwithin', hgone'⟩
        have hsettled : Settled files paths done staged
            (cleanupEmptyDirs (cleanupEmptyDirs db q) []) := by
          refine ⟨hwithin', fun k hk hk' => ?_⟩
          rcases hgone' k hk hk' with ⟨⟨hup, hne⟩, -⟩
          exact hne (List.prefix_nil.mp hup)
        rw [hlast]
        cases height with
        | zero => exact hsettled
        | succ height =>
            rw [cleanupParents, if_pos rfl]
            exact hsettled
      · rw [if_neg hlast]
        rcases settledBelow_cleanupEmptyDirs hstaged h (hq q (List.prefix_refl q))
          (fun heq => absurd heq hnil) with ⟨hwithin, hgone⟩
        apply ih
        · refine ⟨hwithin, fun k hk hk' => ?_⟩
          rw [isPrefix_dropLast_iff hnil]
          exact hgone k hk hk'
        · rw [List.length_dropLast]
          omega
        · exact fun p hp => hq p (hp.trans (List.dropLast_prefix q))
        · exact fun _ => hnested hnil
        · exact fun heq => absurd heq hlast

/-! ## One key -/

/-- The keys that are done, and the one after them, are in the order of their texts. -/
structure Next (files : List PathBuf) (staged : StagedDb) (done : List PathBuf) (c : PathBuf) :
    Prop where
  mem : c ∈ staged
  le : ∀ k ∈ done, keyText k ≤ keyText c

/-- The last file is the last key. -/
theorem Next.eq_last (h : Next files staged done c) (hfiles : FilePaths files)
    (hstaged : ∀ k, k ∈ staged ↔ ∃ f ∈ files, k <+: f)
    (hall : ∀ f ∈ files, f ∈ done ++ [c]) {f : PathBuf} (hf : f ∈ files)
    (hlast : ∀ g ∈ files, keyText g ≤ keyText f) : f = c := by
  rcases (hstaged c).mp h.mem with ⟨g, hg, hcg⟩
  have hrelative : Relative c := Relative.of_prefix (hfiles.relative g hg) hcg
  rcases List.mem_append.mp (hall f hf) with hdone | hc
  · apply keyText_injective (hfiles.relative f hf) hrelative
    apply le_antisymm (h.le f hdone)
    exact (KeyScan.le_of_isPrefix (keyText_isPrefix hcg)).trans (hlast g hg)
  · exact List.mem_singleton.mp hc

theorem exists_last (hne : files ≠ []) : ∃ f ∈ files, ∀ g ∈ files, keyText g ≤ keyText f := by
  rcases List.exists_mem_of_ne_nil files hne with ⟨f, hf⟩
  rcases files.toFinset.exists_max_image keyText ⟨f, List.mem_toFinset.mpr hf⟩ with ⟨g, hg, hmax⟩
  exact ⟨g, List.mem_toFinset.mp hg, fun k hk => hmax k (List.mem_toFinset.mpr hk)⟩

/-- What becomes gone with one more key. -/
theorem gone_append (hgone : Gone files paths (done ++ [c]) k) :
    Gone files paths done k ∨
      Covered paths c ∧ (k = c ∨ (k <+: c ∧ Emptied files paths (done ++ [c]) k)) := by
  by_cases hold : Gone files paths done k
  · exact .inl hold
  · right
    rcases hgone with ⟨hcovered, hdone⟩ | hemptied
    · rcases List.mem_append.mp hdone with hdone | hc
      · exact absurd (.inl ⟨hcovered, hdone⟩) hold
      · obtain rfl := List.mem_singleton.mp hc
        exact ⟨hcovered, .inl rfl⟩
    · have hnew : ∃ f ∈ files, k <+: f ∧ f ∉ done := by
        by_contra hnot
        push Not at hnot
        exact hold (.inr ⟨fun f hf hkf => ⟨(hemptied.below f hf hkf).1, hnot f hf hkf⟩,
          hemptied.root⟩)
      rcases hnew with ⟨f, hf, hkf, hdone⟩
      rcases hemptied.below f hf hkf with ⟨hcovered, hmem⟩
      obtain rfl := List.mem_singleton.mp ((List.mem_append.mp hmem).resolve_left hdone)
      exact ⟨hcovered, .inr ⟨hkf, hemptied⟩⟩

theorem Gone.append (h : Gone files paths done k) : Gone files paths (done ++ [c]) k := by
  rcases h with ⟨hcovered, hdone⟩ | hemptied
  · exact .inl ⟨hcovered, List.mem_append_left _ hdone⟩
  · refine .inr ⟨fun f hf hkf => ?_, hemptied.root⟩
    rcases hemptied.below f hf hkf with ⟨hcovered, hdone⟩
    exact ⟨hcovered, List.mem_append_left _ hdone⟩

/-- What is gone is in the database only from the key on upwards. -/
structure Pending (files paths done : List PathBuf) (staged db : StagedDb) (c : PathBuf) : Prop
    extends Within files paths done staged db where
  gone : ∀ k ∈ db, Gone files paths done k → k = c ∨ (k <+: c ∧ Emptied files paths done k)

theorem Settled.pending (h : Settled files paths done staged db) :
    Pending files paths (done ++ [c]) staged db c where
  lookup := h.lookup
  kept k hk hnot := h.kept k hk fun hgone => hnot hgone.append
  gone k hk hgone := (gone_append hgone).resolve_left (h.gone k hk) |>.2

theorem Settled.append (h : Settled files paths done staged db) (hc : ¬ Covered paths c) :
    Settled files paths (done ++ [c]) staged db where
  lookup := h.lookup
  kept k hk hnot := h.kept k hk fun hgone => hnot hgone.append
  gone k hk hgone := hc ((gone_append hgone).resolve_left (h.gone k hk)).1

/-- Removing the key settles what is above it. -/
theorem settled_remove (hfiles : FilePaths files)
    (hstaged : ∀ k, k ∈ staged ↔ ∃ f ∈ files, k <+: f) (hnext : Next files staged done c)
    (hcovered : Covered paths c) (h : Pending files paths (done ++ [c]) staged db c) :
    Settled files paths (done ++ [c]) staged (cleanupParents c.length c.dropLast (db.erase c)) := by
  have hne : c ≠ [] := by
    rcases hcovered with ⟨p, -, hp, hpne⟩
    rintro rfl
    exact hpne (List.prefix_nil.mp hp)
  have hgone : Gone files paths (done ++ [c]) c :=
    .inl ⟨hcovered, List.mem_append_right _ (List.mem_singleton_self c)⟩
  rcases (hstaged c).mp hnext.mem with ⟨g, hg, hcg⟩
  have hlast : ∀ f ∈ files, (∀ f ∈ files, Covered paths f ∧ f ∈ done ++ [c]) →
      (∀ g ∈ files, keyText g ≤ keyText f) → f = c :=
    fun f hf hall hmax => hnext.eq_last hfiles hstaged (fun f hf => (hall f hf).2) hf hmax
  apply settled_cleanupParents hstaged
  · refine ⟨h.toWithin.erase fun _ => hgone, fun k hk hk' => ?_⟩
    rw [AList.mem_erase] at hk
    rcases h.gone k hk.2 hk' with heq | ⟨hup, hemptied⟩
    · exact absurd heq hk.1
    · exact ⟨(isPrefix_dropLast_iff hne).mpr ⟨hup, hk.1⟩, hemptied⟩
  · rw [List.length_dropLast]
    omega
  · intro p hp hpf
    rcases (isPrefix_dropLast_iff hne).mp hp with ⟨hpc, hpne⟩
    obtain rfl := hfiles.apart p hpf g hg (hpc.trans hcg)
    exact hpne (hpc.eq_of_length (le_antisymm hpc.length_le hcg.length_le))
  · intro hnil hall f hf hmax
    rw [hlast f hf hall hmax]
    have hpos := List.length_pos_of_ne_nil hnil
    rw [List.length_dropLast] at hpos
    omega
  · intro hnil hemptied
    rcases exists_last (List.ne_nil_of_mem hg) with ⟨f, hf, hmax⟩
    have htwo := hemptied.root rfl f hf hmax
    rw [hlast f hf (fun f hf => hemptied.below f hf List.nil_prefix) hmax] at htwo
    have hzero := congrArg List.length hnil
    rw [List.length_dropLast, List.length_nil] at hzero
    omega

/-- One key is done with all paths. -/
theorem settled_removeBelow (hfiles : FilePaths files)
    (hstaged : ∀ k, k ∈ staged ↔ ∃ f ∈ files, k <+: f) (hnext : Next files staged done c)
    (h : Settled files paths done staged db) :
    Settled files paths (done ++ [c]) staged (paths.foldl (removeBelow c) db) := by
  by_cases hcovered : Covered paths c
  · -- the first path at or above the key removes it, and the others change nothing more
    have hfold : ∀ ps : List PathBuf, ∀ db, Pending files paths (done ++ [c]) staged db c →
        (Settled files paths (done ++ [c]) staged db ∨ Covered ps c) →
        Settled files paths (done ++ [c]) staged (ps.foldl (removeBelow c) db) := by
      intro ps
      induction ps with
      | nil =>
          rintro db - (hsettled | ⟨p, hp, -⟩)
          · exact hsettled
          · cases hp
      | cons p ps ih =>
          intro db hpending hor
          rw [List.foldl_cons, removeBelow]
          split_ifs with hp
          · have hsettled := settled_remove hfiles hstaged hnext hcovered hpending
            refine ih _ ⟨hsettled.toWithin, fun k hk hgone => ?_⟩ (.inl hsettled)
            exact absurd hgone (hsettled.gone k hk)
          · refine ih db hpending (hor.imp_right ?_)
            rintro ⟨p', hp', habove⟩
            rcases List.mem_cons.mp hp' with rfl | hp'
            · exact absurd habove hp
            · exact ⟨p', hp', habove⟩
    exact hfold paths db h.pending (.inr hcovered)
  · have hsame : paths.foldl (removeBelow c) db = db := by
      have hnone : ∀ p ∈ paths, ¬ (p <+: c ∧ p ≠ []) := fun p hp habove =>
        hcovered ⟨p, hp, habove⟩
      clear hcovered h
      induction paths with
      | nil => rfl
      | cons p ps ih =>
          rw [List.foldl_cons, removeBelow, if_neg (hnone p List.mem_cons_self)]
          exact ih fun p' hp' => hnone p' (List.mem_cons_of_mem p hp')
    rw [hsame]
    exact h.append hcovered

/-- All keys are done in their order. -/
theorem settled_foldl (hfiles : FilePaths files)
    (hstaged : ∀ k, k ∈ staged ↔ ∃ f ∈ files, k <+: f) {keys : List PathBuf}
    (hsorted : (done ++ keys).Pairwise fun a b => keyText a ≤ keyText b)
    (hkeys : ∀ k ∈ keys, k ∈ staged) (h : Settled files paths done staged db) :
    Settled files paths (done ++ keys) staged
      (keys.foldl (fun db key => paths.foldl (removeBelow key) db) db) := by
  induction keys generalizing done db with
  | nil =>
      rw [List.append_nil]
      exact h
  | cons c keys ih =>
      have hnext : Next files staged done c :=
        ⟨hkeys c List.mem_cons_self, fun k hk =>
          (List.pairwise_append.mp hsorted).2.2 k hk c List.mem_cons_self⟩
      rw [List.append_cons] at hsorted ⊢
      exact ih hsorted (fun k hk => hkeys k (List.mem_cons_of_mem c hk))
        (settled_removeBelow hfiles hstaged hnext h)

theorem settled_nil (hstaged : ∀ k, k ∈ staged ↔ ∃ f ∈ files, k <+: f) :
    Settled files paths [] staged staged where
  lookup _ hk := ⟨hk, rfl⟩
  kept _ hk _ := hk
  gone k hk := by
    rintro (⟨-, hnone⟩ | hemptied)
    · cases hnone
    · rcases (hstaged k).mp hk with ⟨f, hf, hkf⟩
      cases (hemptied.below f hf hkf).2

theorem mem_keys_of_mem : k ∈ KeyScan.scanFrom keyText staged.keys [] ↔ k ∈ staged := by
  rw [KeyScan.mem_scanFrom, AList.mem_keys]
  exact and_iff_left (KeyScan.le_of_isPrefix List.nil_prefix)

theorem settled_removeStagedRecursivelyInner (hfiles : FilePaths files)
    (hstaged : ∀ k, k ∈ staged ↔ ∃ f ∈ files, k <+: f) (paths : List PathBuf) :
    Settled files paths (KeyScan.scanFrom keyText staged.keys []) staged
      (removeStagedRecursivelyInner staged paths) :=
  settled_foldl hfiles hstaged (KeyScan.pairwise_scanFrom staged.keys [])
    (fun _ hk => mem_keys_of_mem.mp hk) (settled_nil hstaged)

/-- What unstaging should leave: the other files with everything above them, as they were
staged, and nothing to commit if there are none. -/
structure Unstages (env : CommitEnv) (s : Repository) (files paths : List PathBuf)
    (staged after : StagedDb) : Prop where
  kept : ∀ k, (∃ f ∈ files, (¬ ∃ p ∈ paths, p <+: f) ∧ k <+: f) →
    after.lookup k = staged.lookup k
  removed : ∀ k ∈ after, ∃ f ∈ files, (¬ ∃ p ∈ paths, p <+: f) ∧ k <+: f
  nothing : (∀ f ∈ files, ∃ p ∈ paths, p <+: f) →
    (CommitWriter.commitWithCfg env { s with staged := after } none).result =
      .error (.basicStr "No changes to commit")

theorem commitWithCfg_of_empty (env : CommitEnv) (s : Repository) :
    (CommitWriter.commitWithCfg env { s with staged := ∅ } none).result =
      .error (.basicStr "No changes to commit") :=
  rfl

/-- Unstaging leaves what it should unless a file is covered by the root only, or all files
are covered and the last of them lies in the root. -/
theorem unstages_iff (env : CommitEnv) (s : Repository) (calls : List (List AddedFile))
    (paths : List PathBuf) (hfiles : FilePaths (addedPaths calls)) :
    Unstages env s (addedPaths calls) paths (addAll calls)
        (removeStagedRecursivelyInner (addAll calls) paths) ↔
      ([] ∈ paths → ∀ f ∈ addedPaths calls, Covered paths f) ∧
        ((∀ f ∈ addedPaths calls, Covered paths f) → LastIsNested (addedPaths calls)) := by
  have hsettled := settled_removeStagedRecursivelyInner hfiles
    (fun k => @mem_addAll k calls) paths
  have hcovered : ∀ {k f}, Covered paths k → k <+: f → ∃ p ∈ paths, p <+: f :=
    fun ⟨p, hp, hpk, _⟩ hkf => ⟨p, hp, hpk.trans hkf⟩
  have hkeys : ∀ {k f}, f ∈ addedPaths calls → k <+: f →
      k ∈ KeyScan.scanFrom keyText (addAll calls).keys [] :=
    fun hf hkf => mem_keys_of_mem.mpr (mem_addAll.mpr ⟨_, hf, hkf⟩)
  constructor
  · intro h
    constructor
    · intro hroot f hf
      by_contra hnot
      have hmem := hsettled.kept f (mem_addAll.mpr ⟨f, hf, List.prefix_refl f⟩)
        fun hgone => hnot ((gone_file_iff hf).mp hgone).1
      rcases h.removed f hmem with ⟨g, -, hg, -⟩
      exact hg ⟨[], hroot, List.nil_prefix⟩
    · intro hall f hf hmax
      by_contra hnot
      have hmem := hsettled.kept [] (mem_addAll.mpr ⟨f, hf, List.nil_prefix⟩) (by
        rintro (⟨⟨p, -, hp, hne⟩, -⟩ | hemptied)
        · exact hne (List.prefix_nil.mp hp)
        · exact hnot (hemptied.root rfl f hf hmax))
      rcases h.removed [] hmem with ⟨g, hg, hnone, -⟩
      exact hnone (hcovered (hall g hg) (List.prefix_refl g))
  · rintro ⟨hroot, hlast⟩
    have hany : ∀ f ∈ addedPaths calls, (∃ p ∈ paths, p <+: f) → Covered paths f := by
      rintro f hf ⟨p, hp, hpf⟩
      by_cases hne : p = []
      · exact hroot (hne ▸ hp) f hf
      · exact ⟨p, hp, hpf, hne⟩
    have hremoved : ∀ k ∈ removeStagedRecursivelyInner (addAll calls) paths,
        ∃ f ∈ addedPaths calls, (¬ ∃ p ∈ paths, p <+: f) ∧ k <+: f := by
      intro k hk
      by_contra hnot
      push Not at hnot
      have hbelow : ∀ f ∈ addedPaths calls, k <+: f → Covered paths f := by
        intro f hf hkf
        by_contra hno
        refine hnot f hf (fun p hp hpf => hno (hany f hf ⟨p, hp, hpf⟩)) hkf
      refine hsettled.gone k hk (.inr ⟨fun f hf hkf => ?_, fun hnil => ?_⟩)
      · exact ⟨hbelow f hf hkf, hkeys hf (List.prefix_refl f)⟩
      · exact hlast fun f hf => hbelow f hf (hnil ▸ List.nil_prefix)
    refine ⟨?_, hremoved, fun hall => ?_⟩
    · rintro k ⟨f, hf, hnone, hkf⟩
      refine (hsettled.lookup k (hsettled.kept k (mem_addAll.mpr ⟨f, hf, hkf⟩) ?_)).2
      rintro (⟨hk, -⟩ | hemptied)
      · exact hnone (hcovered hk hkf)
      · exact hnone (hcovered (hemptied.below f hf hkf).1 (List.prefix_refl f))
    · have hempty : removeStagedRecursivelyInner (addAll calls) paths = ∅ := by
        apply AList.ext
        apply List.eq_nil_iff_forall_not_mem.mpr
        intro entry hentry
        rcases hremoved entry.1 (List.mem_map_of_mem hentry) with ⟨f, hf, hnone, -⟩
        exact hnone (hall f hf)
      rw [hempty]
      exact commitWithCfg_of_empty env s

namespace Example

def env : CommitEnv where
  xxh3 bytes := bytes.length
  dirMetadata _ := { len := 4096, mtime := 7 }
  fileMetadataHash _ _ := none
  numVNodes n := (n + 999) / 1000
  numVNodes_zero := rfl
  numVNodes_pos n hn := by omega
  uuid _ _ := [7]
  timestamp := 5000000000

/-- A call that adds new files at these paths. -/
def adds (paths : List PathBuf) : List AddedFile :=
  paths.map fun path => { path, status := .added, node := { name := path, hash := 1 } }

theorem filePaths_nested : FilePaths [["a.txt"], ["data", "b.txt"]] where
  relative := by simp [Relative]
  ne_nil := by decide
  apart := by decide

theorem filePaths_root : FilePaths [["z.txt"]] where
  relative := by simp [Relative]
  ne_nil := by decide
  apart := by decide

end Example

open Example in
/-- The last file lies in a directory: all of it is unstaged. -/
theorem unstages_nested :
    Unstages env {} [["a.txt"], ["data", "b.txt"]] [["a.txt"], ["data"]]
      (addAll [adds [["a.txt"], ["data", "b.txt"]]])
      (removeStagedRecursivelyInner (addAll [adds [["a.txt"], ["data", "b.txt"]]])
        [["a.txt"], ["data"]]) := by
  apply (unstages_iff env {} [adds [["a.txt"], ["data", "b.txt"]]] [["a.txt"], ["data"]]
    filePaths_nested).mpr
  constructor
  · intro hroot
    exact absurd hroot (by decide)
  · intro _ f hf hlast
    rcases List.mem_cons.mp hf with rfl | hf
    · exact absurd (hlast ["data", "b.txt"] (by decide)) (by decide)
    · obtain rfl := List.mem_singleton.mp hf
      decide

open Example in
/-- The entry of the root stays when the only staged file lies in it. -/
theorem not_unstages :
    ¬ ∀ (env : CommitEnv) (s : Repository) (calls : List (List AddedFile)) (paths : List PathBuf),
      FilePaths (addedPaths calls) →
        Unstages env s (addedPaths calls) paths (addAll calls)
          (removeStagedRecursivelyInner (addAll calls) paths) := by
  intro h
  have hempty := (h env {} [adds [["z.txt"]]] [["z.txt"]] filePaths_root).removed [] (by
    decide)
  rcases hempty with ⟨f, hf, hnone, -⟩
  obtain rfl := List.mem_singleton.mp hf
  exact hnone ⟨["z.txt"], by decide, List.prefix_refl _⟩

end Unstage

end Oxen
