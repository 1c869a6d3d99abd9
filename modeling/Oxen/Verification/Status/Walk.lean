import Mathlib.Algebra.BigOperators.Group.Finset.Sigma
import Oxen.Verification.Staging.RemoveModified
import Oxen.Verification.Status.HeadTree

/-! What a walk down the working tree finds. -/

namespace Oxen

namespace Status

open MerkleTreeNode CommitMerkleTree Remove

variable {env : Env} {dirHashes : DirHashes} {s : State} {path search c x r : PathBuf}

def IsFile (s : State) (path : PathBuf) : Prop :=
  ∃ content mtime, s.disk.lookup path = some (.file content mtime)

section

variable (env dirHashes s)

/-- A path that keeps the directories above from being untracked. -/
def Tracked (path : PathBuf) : Prop :=
  path ∈ s.staged ∨ ∃ n, Entry env dirHashes path n

/-- A file that is listed as untracked. What lies in a path that is a file of the head is not. -/
structure Untracked (path : PathBuf) : Prop where
  isFile : IsFile s path
  not_tracked : ¬ Tracked env dirHashes s path
  parent : ∀ f, ¬ Committed env dirHashes path.dropLast f

/-- A file that is compared with a file of the head, and how: its own, or one that is a
directory on disk. -/
structure Compared (answer : Except OxenError Bool) (path : PathBuf) : Prop where
  isFile : IsFile s path
  unstaged : path ∉ s.staged
  compares : (∃ f, Committed env dirHashes path f ∧ isModifiedFromNode env s path f = answer) ∨
    (∀ n, ¬ Entry env dirHashes path n) ∧
      ∃ f, Committed env dirHashes path.dropLast f ∧ isModifiedFromNode env s path f = answer

/-- A file that differs from the one it is compared with. -/
abbrev Modified (path : PathBuf) : Prop :=
  Compared env dirHashes s (.ok true) path

/-- Nothing below the path is tracked. -/
def AllUntracked (path : PathBuf) : Prop :=
  ∀ x, path <+: x → IsFile s x → ¬ Tracked env dirHashes s x

/-- A directory that stands for what is in it. -/
structure Folded (path : PathBuf) : Prop where
  ne_nil : path ≠ []
  isDir : s.disk.isDir path = true
  unstaged : path ∉ s.staged
  not_dir : path ∉ dirHashes
  not_committed : ∀ f, ¬ Committed env dirHashes path f
  allUntracked : AllUntracked env dirHashes s path

/-- A path of the head that is missing in a directory on disk. -/
structure Gone (path : PathBuf) : Prop where
  entry : ∃ n, Entry env dirHashes path n
  isDir : s.disk.isDir path.dropLast = true
  missing : s.disk.lookup path = none

end

open Classical in
/-- The files at or below a path. -/
noncomputable def filesBelow (s : State) (path : PathBuf) : Finset PathBuf :=
  s.disk.entries.keys.toFinset.filter fun x => path <+: x ∧ IsFile s x

/-- No directory from one path down to the other is folded. -/
def Unfolded (env : Env) (dirHashes : DirHashes) (s : State) (search path : PathBuf) : Prop :=
  ∀ r, search <+: r → r <+: path → ¬ Folded env dirHashes s r

/-- A folded directory below no other one from the path down. -/
structure Topmost (env : Env) (dirHashes : DirHashes) (s : State) (search path : PathBuf) :
    Prop where
  below : search <+: path
  folded : Folded env dirHashes s path
  topmost : ∀ r, search <+: r → r <+: path → r ≠ path → ¬ Folded env dirHashes s r

/-- What is found at and below a path. -/
structure Finds (env : Env) (dirHashes : DirHashes) (s : State) (search : PathBuf)
    (changes : Changes) : Prop where
  modified : ∀ x, x ∈ changes.modified ↔ search <+: x ∧ Modified env dirHashes s x
  removed : ∀ x, x ∈ changes.removed ↔ search <+: x.dropLast ∧ Gone env dirHashes s x
  files : ∀ x, x ∈ changes.untracked.files ↔
    search <+: x ∧ Untracked env dirHashes s x ∧ Unfolded env dirHashes s search x
  dirs : ∀ r, r ∈ changes.untracked.dirs ↔ Topmost env dirHashes s search r
  counts : ∀ r n, changes.untracked.dirs.lookup r = some n → n = (filesBelow s r).card
  allUntracked : changes.untracked.allUntracked = true ↔ AllUntracked env dirHashes s search

/-! ## The working tree -/

theorem IsFile.not_isDir (h : IsFile s path) : s.disk.isDir path = false := by
  rcases h with ⟨content, mtime, hlookup⟩
  simp [WorkingTree.isDir, hlookup]

theorem IsFile.lookup_ne_none (h : IsFile s path) : s.disk.lookup path ≠ none := by
  rcases h with ⟨content, mtime, hlookup⟩
  rw [hlookup]
  exact Option.some_ne_none _

theorem IsFile.ne_nil (h : IsFile s path) : path ≠ [] := by
  rintro rfl
  have hdir := h.not_isDir
  simp [WorkingTree.isDir] at hdir

theorem isFile_iff (h : s.disk.lookup path ≠ none) :
    IsFile s path ↔ s.disk.isDir path = false := by
  refine ⟨IsFile.not_isDir, fun hdir => ?_⟩
  cases hlookup : s.disk.lookup path with
  | none => exact absurd hlookup h
  | some entry =>
      cases entry with
      | dir => simp [WorkingTree.isDir, hlookup] at hdir
      | file content mtime => exact ⟨content, mtime, hlookup⟩

theorem isDir_iff : s.disk.isDir path = true ↔ s.disk.lookup path = some .dir := by
  simp [WorkingTree.isDir]

theorem isDir_of_isPrefix (h : s.disk.lookup x ≠ none) (hpath : path <+: x) (hne : path ≠ x) :
    s.disk.isDir path = true := by
  by_contra hdir
  refine h (WorkingTree.lookup_eq_none_of_isPrefix ?_ hpath hne)
  rwa [isDir_iff] at hdir

theorem lookup_ne_none_of_isDir (h : s.disk.isDir path = true) : s.disk.lookup path ≠ none := by
  rw [isDir_iff.mp h]
  exact Option.some_ne_none _

/-- What lies below a directory lies at or below one of its entries. -/
theorem exists_entry (hx : s.disk.lookup x ≠ none) (hsearch : search <+: x) (hne : search ≠ x) :
    ∃ c ∈ s.disk.readDir search, c <+: x := by
  rcases hsearch with ⟨rest, rfl⟩
  cases rest with
  | nil => exact absurd (List.append_nil search).symm hne
  | cons name rest =>
      have hc : search ++ [name] <+: search ++ name :: rest := ⟨rest, List.append_cons .. |>.symm⟩
      refine ⟨search ++ [name], mem_readDir_iff.mpr ⟨name, rfl, fun hnone => ?_⟩, hc⟩
      by_cases heq : search ++ [name] = search ++ name :: rest
      · rw [heq] at hnone
        exact hx hnone
      · exact hx (WorkingTree.lookup_eq_none_of_isPrefix (by rw [hnone]; decide) hc heq)

theorem isPrefix_of_mem_readDir (hc : c ∈ s.disk.readDir search) : search <+: c := by
  rcases mem_readDir_iff.mp hc with ⟨name, rfl, -⟩
  exact List.prefix_append _ _

theorem ne_of_mem_readDir (hc : c ∈ s.disk.readDir search) : c ≠ search := by
  rcases mem_readDir_iff.mp hc with ⟨name, rfl, -⟩
  simp

theorem dropLast_of_mem_readDir (hc : c ∈ s.disk.readDir search) : c.dropLast = search := by
  rcases mem_readDir_iff.mp hc with ⟨name, rfl, -⟩
  exact List.dropLast_concat

/-- Between a directory and its entry there is nothing. -/
theorem eq_or_isPrefix (hc : c ∈ s.disk.readDir search) (hcx : c <+: x) (hr : search <+: r)
    (hrx : r <+: x) : r = search ∨ c <+: r := by
  rcases mem_readDir_iff.mp hc with ⟨name, rfl, -⟩
  rcases List.prefix_or_prefix_of_prefix hcx hrx with h | h
  · exact .inr h
  · rcases hr with ⟨rest, rfl⟩
    rw [List.prefix_append_right_inj] at h
    cases rest with
    | nil => exact .inl (List.append_nil search)
    | cons a rest =>
        obtain ⟨rfl, hrest⟩ := List.cons_prefix_cons.mp h
        rw [List.prefix_nil.mp hrest]
        exact .inr (List.prefix_refl _)

/-! ## One entry -/

open Classical in
/-- What an entry adds to the count. -/
noncomputable def untrackedCount (env : Env) (dirHashes : DirHashes) (s : State) (path : PathBuf) :
    ℕ :=
  if Untracked env dirHashes s path then 1 else 0

theorem eq_of_isFile (hc : IsFile s c) (hcx : c <+: x) (hx : s.disk.lookup x ≠ none) : x = c := by
  by_contra hne
  have hdir := isDir_of_isPrefix hx hcx (Ne.symm hne)
  rw [hc.not_isDir] at hdir
  cases hdir

/-- What is found at a file. -/
theorem finds_of_isFile (hc : IsFile s c) (modified : Finset PathBuf) (files : List PathBuf)
    (allUntracked : Bool) (hmodified : ∀ x, x ∈ modified ↔ x = c ∧ Modified env dirHashes s c)
    (hfiles : ∀ x, x ∈ files ↔ x = c ∧ Untracked env dirHashes s c)
    (hall : allUntracked = true ↔ ¬ Tracked env dirHashes s c) :
    Finds env dirHashes s c { modified, untracked := { files, allUntracked } } where
  modified x := by
    rw [hmodified]
    constructor
    · rintro ⟨rfl, h⟩
      exact ⟨List.prefix_refl x, h⟩
    · rintro ⟨hcx, h⟩
      obtain rfl := eq_of_isFile hc hcx h.isFile.lookup_ne_none
      exact ⟨rfl, h⟩
  removed x := by
    refine iff_of_false (Finset.notMem_empty x) ?_
    rintro ⟨hcx, h⟩
    have heq := eq_of_isFile hc hcx (lookup_ne_none_of_isDir h.isDir)
    have hdir := h.isDir
    rw [heq, hc.not_isDir] at hdir
    cases hdir
  files x := by
    rw [hfiles]
    constructor
    · rintro ⟨rfl, h⟩
      refine ⟨List.prefix_refl x, h, fun r hxr hrx hfolded => ?_⟩
      obtain rfl := hrx.eq_of_length_le hxr.length_le
      have hdir := hfolded.isDir
      rw [hc.not_isDir] at hdir
      cases hdir
    · rintro ⟨hcx, h, -⟩
      obtain rfl := eq_of_isFile hc hcx h.isFile.lookup_ne_none
      exact ⟨rfl, h⟩
  dirs r := by
    refine iff_of_false (AList.notMem_empty r) fun h => ?_
    have heq := eq_of_isFile hc h.below (lookup_ne_none_of_isDir h.folded.isDir)
    have hdir := h.folded.isDir
    rw [heq, hc.not_isDir] at hdir
    cases hdir
  counts r n h := by cases h
  allUntracked := by
    rw [hall]
    constructor
    · intro h x hcx hx
      rwa [eq_of_isFile hc hcx hx.lookup_ne_none]
    · exact fun h => h c (List.prefix_refl c) hc

/-- What is found at a file that is not untracked. -/
theorem finds_of_compared (hc : IsFile s c) (huntracked : ¬ Untracked env dirHashes s c)
    {isModified allUntracked : Bool} (hmodified : Modified env dirHashes s c ↔ isModified = true)
    (hall : allUntracked = true ↔ ¬ Tracked env dirHashes s c) :
    Finds env dirHashes s c
      { modified := if isModified then {c} else ∅, untracked := { files := [], allUntracked } } := by
  refine finds_of_isFile hc _ [] allUntracked (fun x => ?_) (fun x => ?_) hall
  · rw [hmodified]
    cases isModified with
    | true => simp
    | false => simp
  · exact iff_of_false List.not_mem_nil fun h => huntracked h.2

/-- What is found at a file that is untracked. -/
theorem finds_of_untracked (h : Untracked env dirHashes s c) :
    Finds env dirHashes s c { modified := ∅, untracked := { files := [c], allUntracked := true } } := by
  refine finds_of_isFile h.isFile ∅ [c] true (fun x => ?_) (fun x => ?_) ?_
  · refine iff_of_false (Finset.notMem_empty x) ?_
    rintro ⟨-, hmodified⟩
    rcases hmodified.compares with ⟨f, hf, -⟩ | ⟨-, f, hf, -⟩
    · exact h.not_tracked (.inr ⟨_, hf⟩)
    · exact h.parent f hf
  · rw [List.mem_singleton, and_iff_left h]
  · exact iff_of_true rfl h.not_tracked

theorem merge_eq (changes : Changes) (modified : Finset PathBuf) (files : List PathBuf)
    (allUntracked : Bool) :
    changes.merge { modified, untracked := { files, allUntracked } } =
      { changes with
        modified := changes.modified ∪ modified
        untracked := { changes.untracked with
          files := changes.untracked.files ++ files
          allUntracked := changes.untracked.allUntracked && allUntracked } } := by
  simp only [Changes.merge, UntrackedData.merge, Finset.union_empty]
  rfl

section Entries

variable (hhead : HeadTree env dirHashes) (hfuel : 2 ≤ env.fuel)
  (hvisible : ∀ path, s.disk.lookup path ≠ none →
    isIgnored env path (s.disk.isDir path) = false)

theorem lookup_ne_none_of_mem_readDir (hc : c ∈ s.disk.readDir search) :
    s.disk.lookup c ≠ none := by
  rcases mem_readDir_iff.mp hc with ⟨name, rfl, hlookup⟩
  exact hlookup

include hvisible in
theorem checkEntry_of_isDir {walk : PathBuf → Except OxenError Changes} {sub : Changes}
    (hc : c ∈ s.disk.readDir search) (hdir : s.disk.isDir c = true) (hwalk : walk c = .ok sub)
    (found : Changes × ℕ) :
    checkEntry env dirHashes s search walk found c =
      .ok (found.1.merge sub, found.2 + untrackedCount env dirHashes s c) := by
  have huntracked : ¬ Untracked env dirHashes s c := fun h => by
    rw [h.isFile.not_isDir] at hdir
    cases hdir
  have hignored := hvisible c (lookup_ne_none_of_mem_readDir hc)
  rw [checkEntry, if_neg (by rw [hignored]; decide), if_pos hdir, hwalk, untrackedCount,
    if_neg huntracked]
  rfl

/-- What a comparison with a file adds. -/
theorem checkModified_eq (hc : IsFile s c) {f : FileNode}
    (hreturns : isModifiedFromNode env s c f ≠ .error .panicked) (changes : Changes) :
    ∃ isModified, isModifiedFromNode env s c f = .ok isModified ∧
      checkModified env s c f changes =
        .ok (if isModified then { changes with modified := insert c changes.modified }
          else changes) := by
  rcases isModifiedFromNode_cases hc.not_isDir f with ⟨isModified, hrun⟩ | hpanics
  · exact ⟨isModified, hrun, by rw [checkModified, hrun]; rfl⟩
  · exact absurd hpanics hreturns

include hhead hfuel hvisible in
/-- A comparison with a file that has no time fails. -/
theorem checkEntry_panics (walk : PathBuf → Except OxenError Changes)
    (hmem : c ∈ s.disk.readDir search) (h : Compared env dirHashes s (.error .panicked) c)
    (found : Changes × ℕ) :
    checkEntry env dirHashes s search walk found c = .error .panicked := by
  have hignored := hvisible c h.isFile.lookup_ne_none
  have hparent := dropLast_of_mem_readDir hmem
  rcases mem_readDir_iff.mp hmem with ⟨name, rfl, -⟩
  rw [checkEntry, if_neg (by rw [hignored]; decide), if_neg (by rw [h.isFile.not_isDir]; decide),
    List.drop_left, if_neg h.unstaged]
  rcases h.compares with ⟨f, hf, hpanics⟩ | ⟨-, f, hf, hpanics⟩
  · have hdir := hf.dropLast_mem
    rw [hparent] at hdir
    rcases maybeGetNode_of_mem hhead.good hfuel hdir with ⟨d, loaded, hnode, hlookup⟩
    simp only [hnode, maybeGetDirChildren, Option.bind_some]
    cases hentry : (listFilesAndFoldersMap loaded).lookup [name] with
    | none =>
        have hn : Entry env dirHashes (search ++ [name]) (.file f) := hf
        rw [← hlookup name, hentry] at hn
        cases hn
    | some child =>
        rcases child with ⟨n, cs⟩
        have hn : Entry env dirHashes (search ++ [name]) n := by
          rw [← hlookup name, hentry]
          rfl
        cases hn.unique hhead.good hf
        simp only [MerkleTreeNode.fileNode?, checkModified, hpanics, Except.map]
  · rw [hparent] at hf
    have hdir : search ∉ dirHashes := hf.notMem hhead
    rcases maybeGetNode_of_not_mem hhead hfuel hdir with ⟨-, hnone⟩ | ⟨g, cs, hnode, hg⟩
    · exact absurd hf (hnone f)
    · cases hg.unique hhead.good hf
      simp only [hnode, maybeGetDirChildren, Option.bind_none, Option.bind_some,
        MerkleTreeNode.fileNode?, checkModified, hpanics, Except.map]

variable (htimes : ∀ path, ¬ Compared env dirHashes s (.error .panicked) path)

include hhead in
/-- Against the entry of the file itself. -/
theorem modified_iff_of_entry (hc : IsFile s c) (hstaged : c ∉ s.staged) {f : FileNode}
    (hn : Entry env dirHashes c (.file f)) {isModified : Bool}
    (hrun : isModifiedFromNode env s c f = .ok isModified) :
    Modified env dirHashes s c ↔ isModified = true := by
  constructor
  · intro h
    rcases h.compares with ⟨g, hg, hdiffers⟩ | ⟨hno, -⟩
    · cases hn.unique hhead.good hg
      exact Except.ok.inj (hrun.symm.trans hdiffers)
    · exact absurd hn (hno _)
  · intro h
    rw [h] at hrun
    exact ⟨hc, hstaged, .inl ⟨f, hn, hrun⟩⟩

include hhead in
/-- Against the file that the head has in the place of the directory. -/
theorem modified_iff_of_parent (hc : IsFile s c) (hstaged : c ∉ s.staged)
    (hnoEntry : ∀ n, ¬ Entry env dirHashes c n) {f : FileNode}
    (hf : Committed env dirHashes c.dropLast f) {isModified : Bool}
    (hrun : isModifiedFromNode env s c f = .ok isModified) :
    Modified env dirHashes s c ↔ isModified = true := by
  constructor
  · intro h
    rcases h.compares with ⟨g, hg, -⟩ | ⟨-, g, hg, hdiffers⟩
    · exact absurd hg (hnoEntry _)
    · cases hf.unique hhead.good hg
      exact Except.ok.inj (hrun.symm.trans hdiffers)
  · intro h
    rw [h] at hrun
    exact ⟨hc, hstaged, .inr ⟨hnoEntry, f, hf, hrun⟩⟩

include hhead in
theorem not_modified_of_directory {d : DirNode} (hn : Entry env dirHashes c (.directory d)) :
    ¬ Modified env dirHashes s c := by
  intro h
  rcases h.compares with ⟨g, hg, -⟩ | ⟨hno, -⟩
  · cases hn.unique hhead.good hg
  · exact hno _ hn

theorem Tracked.not_untracked (h : Tracked env dirHashes s c) : ¬ Untracked env dirHashes s c :=
  fun huntracked => huntracked.not_tracked h

include hvisible in
theorem checkEntry_of_staged (walk : PathBuf → Except OxenError Changes) (hc : IsFile s c)
    (hstaged : c ∈ s.staged) (found : Changes × ℕ) :
    ∃ sub, Finds env dirHashes s c sub ∧
      checkEntry env dirHashes s search walk found c =
        .ok (found.1.merge sub, found.2 + untrackedCount env dirHashes s c) := by
  have hignored := hvisible c hc.lookup_ne_none
  have htracked : Tracked env dirHashes s c := .inl hstaged
  have hmodified : Modified env dirHashes s c ↔ false = true :=
    iff_of_false (fun h => h.unstaged hstaged) Bool.false_ne_true
  have hall : false = true ↔ ¬ Tracked env dirHashes s c :=
    iff_of_false Bool.false_ne_true fun h => h htracked
  refine ⟨_, finds_of_compared hc htracked.not_untracked hmodified hall, ?_⟩
  rw [checkEntry, if_neg (by rw [hignored]; decide), if_neg (by rw [hc.not_isDir]; decide),
    if_pos hstaged, merge_eq, untrackedCount, if_neg htracked.not_untracked]
  simp [Changes.notAllUntracked]

include hhead hfuel hvisible htimes in
/-- A file in a directory that the head has. -/
theorem checkEntry_of_mem_dirHashes (walk : PathBuf → Except OxenError Changes)
    (hmem : c ∈ s.disk.readDir search) (hc : IsFile s c) (hstaged : c ∉ s.staged)
    (hdir : search ∈ dirHashes) (found : Changes × ℕ) :
    ∃ sub, Finds env dirHashes s c sub ∧
      checkEntry env dirHashes s search walk found c =
        .ok (found.1.merge sub, found.2 + untrackedCount env dirHashes s c) := by
  have hignored := hvisible c hc.lookup_ne_none
  have hparent := dropLast_of_mem_readDir hmem
  rcases mem_readDir_iff.mp hmem with ⟨name, rfl, -⟩
  rcases maybeGetNode_of_mem hhead.good hfuel hdir with ⟨d, loaded, hnode, hlookup⟩
  have hchild := hlookup name
  have hnone : ∀ f, ¬ Committed env dirHashes search f := fun f hf => hf.notMem hhead hdir
  rw [checkEntry, if_neg (by rw [hignored]; decide), if_neg (by rw [hc.not_isDir]; decide),
    List.drop_left, if_neg hstaged]
  simp only [hnode, maybeGetDirChildren, Option.bind_some]
  cases hentry : (listFilesAndFoldersMap loaded).lookup [name] with
  | none =>
      have hnoEntry : ∀ n, ¬ Entry env dirHashes (search ++ [name]) n := fun n hn => by
        rw [← hchild, hentry] at hn
        cases hn
      have huntracked : Untracked env dirHashes s (search ++ [name]) :=
        ⟨hc, fun h => h.elim hstaged fun ⟨n, hn⟩ => hnoEntry n hn, by rwa [hparent]⟩
      refine ⟨_, finds_of_untracked huntracked, ?_⟩
      rw [merge_eq, untrackedCount, if_pos huntracked]
      simp [UntrackedData.addFile, MerkleTreeNode.fileNode?]
  | some child =>
      rcases child with ⟨n, cs⟩
      have hn : Entry env dirHashes (search ++ [name]) n := by
        rw [← hchild, hentry]
        rfl
      have htracked : Tracked env dirHashes s (search ++ [name]) := .inr ⟨n, hn⟩
      have hall : false = true ↔ ¬ Tracked env dirHashes s (search ++ [name]) :=
        iff_of_false Bool.false_ne_true fun h => h htracked
      rcases hn.file_or_directory hhead.good with ⟨f, rfl⟩ | ⟨d', rfl⟩
      · have hreturns : isModifiedFromNode env s (search ++ [name]) f ≠ .error .panicked :=
          fun hpanics => htimes _ ⟨hc, hstaged, .inl ⟨f, hn, hpanics⟩⟩
        rcases checkModified_eq hc hreturns found.1.notAllUntracked with
          ⟨isModified, hrun, hcheck⟩
        have hmodified := modified_iff_of_entry hhead hc hstaged hn hrun
        refine ⟨_, finds_of_compared hc htracked.not_untracked hmodified hall, ?_⟩
        rw [merge_eq, untrackedCount, if_neg htracked.not_untracked]
        simp only [MerkleTreeNode.fileNode?, hcheck]
        cases isModified with
        | true => simp [Changes.notAllUntracked, Except.map]
        | false => simp [Changes.notAllUntracked, Except.map]
      · have hmodified : Modified env dirHashes s (search ++ [name]) ↔ false = true :=
          iff_of_false (not_modified_of_directory hhead hn) Bool.false_ne_true
        refine ⟨_, finds_of_compared hc htracked.not_untracked hmodified hall, ?_⟩
        rw [merge_eq, untrackedCount, if_neg htracked.not_untracked]
        simp [Changes.notAllUntracked, MerkleTreeNode.fileNode?]

include hhead hfuel hvisible htimes in
/-- A file in a directory that the head does not have: it may have a file there. -/
theorem checkEntry_of_notMem_dirHashes (walk : PathBuf → Except OxenError Changes)
    (hmem : c ∈ s.disk.readDir search) (hc : IsFile s c) (hstaged : c ∉ s.staged)
    (hdir : search ∉ dirHashes) (found : Changes × ℕ) :
    ∃ sub, Finds env dirHashes s c sub ∧
      checkEntry env dirHashes s search walk found c =
        .ok (found.1.merge sub, found.2 + untrackedCount env dirHashes s c) := by
  have hignored := hvisible c hc.lookup_ne_none
  have hparent := dropLast_of_mem_readDir hmem
  have hnoEntry : ∀ n, ¬ Entry env dirHashes c n := fun n hn => by
    have hmem := hn.dropLast_mem
    rw [hparent] at hmem
    exact hdir hmem
  have hnotTracked : ¬ Tracked env dirHashes s c := fun h =>
    h.elim hstaged fun ⟨n, hn⟩ => hnoEntry n hn
  rw [checkEntry, if_neg (by rw [hignored]; decide), if_neg (by rw [hc.not_isDir]; decide),
    if_neg hstaged]
  rcases maybeGetNode_of_not_mem hhead hfuel hdir with ⟨hnode, hnone⟩ | ⟨f, cs, hnode, hf⟩
  · have huntracked : Untracked env dirHashes s c := ⟨hc, hnotTracked, by rwa [hparent]⟩
    refine ⟨_, finds_of_untracked huntracked, ?_⟩
    rw [merge_eq, untrackedCount, if_pos huntracked, hnode]
    simp [UntrackedData.addFile, maybeGetDirChildren]
  · rw [← hparent] at hf
    have huntracked : ¬ Untracked env dirHashes s c := fun h => h.parent f hf
    have hreturns : isModifiedFromNode env s c f ≠ .error .panicked := fun hpanics =>
      htimes _ ⟨hc, hstaged, .inr ⟨hnoEntry, f, hf, hpanics⟩⟩
    rcases checkModified_eq hc hreturns found.1 with ⟨isModified, hrun, hcheck⟩
    have hmodified := modified_iff_of_parent hhead hc hstaged hnoEntry hf hrun
    refine ⟨_, finds_of_compared hc huntracked hmodified (iff_of_true rfl hnotTracked), ?_⟩
    rw [merge_eq, untrackedCount, if_neg huntracked, hnode]
    simp only [maybeGetDirChildren, Option.bind_none, Option.bind_some,
      MerkleTreeNode.fileNode?, hcheck]
    cases isModified with
    | true => simp [Except.map]
    | false => simp [Except.map]

include hhead hfuel hvisible htimes in
theorem checkEntry_of_isFile (walk : PathBuf → Except OxenError Changes)
    (hmem : c ∈ s.disk.readDir search) (hc : IsFile s c) (found : Changes × ℕ) :
    ∃ sub, Finds env dirHashes s c sub ∧
      checkEntry env dirHashes s search walk found c =
        .ok (found.1.merge sub, found.2 + untrackedCount env dirHashes s c) := by
  by_cases hstaged : c ∈ s.staged
  · exact checkEntry_of_staged hvisible walk hc hstaged found
  · by_cases hdir : search ∈ dirHashes
    · exact checkEntry_of_mem_dirHashes hhead hfuel hvisible htimes walk hmem hc hstaged hdir found
    · exact checkEntry_of_notMem_dirHashes hhead hfuel hvisible htimes walk hmem hc hstaged hdir
        found

/-- What was found after some entries of a directory. -/
structure Collects (env : Env) (dirHashes : DirHashes) (s : State) (entries : List PathBuf)
    (found out : Changes × ℕ) : Prop where
  modified : ∀ x, x ∈ out.1.modified ↔
    x ∈ found.1.modified ∨ ∃ c ∈ entries, c <+: x ∧ Modified env dirHashes s x
  removed : ∀ x, x ∈ out.1.removed ↔
    x ∈ found.1.removed ∨ ∃ c ∈ entries, c <+: x.dropLast ∧ Gone env dirHashes s x
  files : ∀ x, x ∈ out.1.untracked.files ↔ x ∈ found.1.untracked.files ∨
    ∃ c ∈ entries, c <+: x ∧ Untracked env dirHashes s x ∧ Unfolded env dirHashes s c x
  dirs : ∀ r, r ∈ out.1.untracked.dirs ↔
    r ∈ found.1.untracked.dirs ∨ ∃ c ∈ entries, Topmost env dirHashes s c r
  counts : (∀ r n, found.1.untracked.dirs.lookup r = some n → n = (filesBelow s r).card) →
    ∀ r n, out.1.untracked.dirs.lookup r = some n → n = (filesBelow s r).card
  allUntracked : out.1.untracked.allUntracked = true ↔
    found.1.untracked.allUntracked = true ∧ ∀ c ∈ entries, AllUntracked env dirHashes s c
  count : out.2 = found.2 + (entries.map (untrackedCount env dirHashes s)).sum

theorem Collects.nil (found : Changes × ℕ) : Collects env dirHashes s [] found found := by
  constructor <;> simp

/-- One entry more. -/
theorem Collects.cons {sub : Changes} {entries : List PathBuf} {found out : Changes × ℕ}
    (hsub : Finds env dirHashes s c sub)
    (h : Collects env dirHashes s entries
      (found.1.merge sub, found.2 + untrackedCount env dirHashes s c) out) :
    Collects env dirHashes s (c :: entries) found out where
  modified x := by
    rw [h.modified, Changes.merge, Finset.mem_union, hsub.modified, List.exists_mem_cons_iff,
      or_assoc]
  removed x := by
    rw [h.removed, Changes.merge, Finset.mem_union, hsub.removed, List.exists_mem_cons_iff,
      or_assoc]
  files x := by
    rw [h.files, Changes.merge, UntrackedData.merge, List.mem_append, hsub.files,
      List.exists_mem_cons_iff, or_assoc]
  dirs r := by
    have hmem : r ∈ (KeyedMap.toList sub.untracked.dirs).map Prod.fst ↔ r ∈ sub.untracked.dirs := by
      rw [List.mem_map, ← AList.lookup_isSome, Option.isSome_iff_exists]
      constructor
      · rintro ⟨⟨k, n⟩, hpair, rfl⟩
        exact ⟨n, KeyedMap.mem_toList.mp hpair⟩
      · rintro ⟨n, hn⟩
        exact ⟨(r, n), KeyedMap.mem_toList.mpr hn, rfl⟩
    rw [h.dirs, Changes.merge, UntrackedData.merge, KeyedMap.mem_insertAll, hmem, hsub.dirs,
      List.exists_mem_cons_iff, or_assoc]
  counts hfound := by
    refine h.counts fun r n hlookup => ?_
    rcases KeyedMap.mem_of_lookup_insertAll hlookup with hlookup | hpair
    · exact hfound r n hlookup
    · exact hsub.counts r n (KeyedMap.mem_toList.mp hpair)
  allUntracked := by
    rw [h.allUntracked, Changes.merge, UntrackedData.merge, Bool.and_eq_true, hsub.allUntracked,
      List.forall_mem_cons, and_assoc]
  count := by
    rw [h.count, List.map_cons, List.sum_cons, add_assoc]

include hhead hfuel hvisible htimes in
theorem foldlM_checkEntry (walk : PathBuf → Except OxenError Changes) (entries : List PathBuf)
    (hentries : ∀ c ∈ entries, c ∈ s.disk.readDir search)
    (hwalk : ∀ c ∈ entries, s.disk.isDir c = true →
      ∃ sub, walk c = .ok sub ∧ Finds env dirHashes s c sub) (found : Changes × ℕ) :
    ∃ out, entries.foldlM (checkEntry env dirHashes s search walk) found = .ok out ∧
      Collects env dirHashes s entries found out := by
  induction entries generalizing found with
  | nil => exact ⟨found, rfl, .nil found⟩
  | cons c entries ih =>
      have hc := hentries c List.mem_cons_self
      have hstep : ∃ sub, Finds env dirHashes s c sub ∧
          checkEntry env dirHashes s search walk found c =
            .ok (found.1.merge sub, found.2 + untrackedCount env dirHashes s c) := by
        cases hdir : s.disk.isDir c with
        | true =>
            rcases hwalk c List.mem_cons_self hdir with ⟨sub, hsub, hfinds⟩
            exact ⟨sub, hfinds, checkEntry_of_isDir hvisible hc hdir hsub found⟩
        | false =>
            have hfile := (isFile_iff (lookup_ne_none_of_mem_readDir hc)).mpr hdir
            exact checkEntry_of_isFile hhead hfuel hvisible htimes walk hc hfile found
      rcases hstep with ⟨sub, hfinds, hcheck⟩
      rcases ih (fun c hc => hentries c (List.mem_cons_of_mem _ hc))
        (fun c hc => hwalk c (List.mem_cons_of_mem _ hc))
        (found.1.merge sub, found.2 + untrackedCount env dirHashes s c) with ⟨out, hout, hcollects⟩
      refine ⟨out, ?_, hcollects.cons hfinds⟩
      rw [List.foldlM_cons, hcheck]
      exact hout

end Entries

/-! ## Counts -/

theorem mem_filesBelow : x ∈ filesBelow s path ↔ path <+: x ∧ IsFile s x := by
  simp only [filesBelow, Finset.mem_filter, List.mem_toFinset, and_iff_right_iff_imp]
  rintro ⟨-, hfile⟩
  have hlookup := hfile.lookup_ne_none
  rw [s.disk.lookup_of_ne_nil hfile.ne_nil, ne_eq, AList.lookup_eq_none, not_not] at hlookup
  exact AList.mem_keys.mp hlookup

theorem nodup_readDir (search : PathBuf) : (s.disk.readDir search).Nodup :=
  s.disk.entries.keys_nodup.filter _

/-- The files below a directory are those below its entries. -/
theorem card_filesBelow (hdir : s.disk.isDir search = true) :
    (filesBelow s search).card =
      ((s.disk.readDir search).map fun c => (filesBelow s c).card).sum := by
  have hunion : filesBelow s search = (s.disk.readDir search).toFinset.biUnion (filesBelow s) := by
    ext x
    rw [Finset.mem_biUnion, mem_filesBelow]
    constructor
    · rintro ⟨hx, hfile⟩
      have hne : search ≠ x := by
        rintro rfl
        rw [hfile.not_isDir] at hdir
        cases hdir
      rcases exists_entry hfile.lookup_ne_none hx hne with ⟨c, hc, hcx⟩
      exact ⟨c, List.mem_toFinset.mpr hc, mem_filesBelow.mpr ⟨hcx, hfile⟩⟩
    · rintro ⟨c, hc, hx⟩
      rcases mem_filesBelow.mp hx with ⟨hcx, hfile⟩
      exact ⟨(isPrefix_of_mem_readDir (List.mem_toFinset.mp hc)).trans hcx, hfile⟩
  rw [hunion, Finset.card_biUnion]
  · exact List.sum_toFinset _ (nodup_readDir search)
  · intro c hc c' hc' hne
    rw [Function.onFun, Finset.disjoint_left]
    intro x hx hx'
    have hcx := (mem_filesBelow.mp hx).1
    have hcx' := (mem_filesBelow.mp hx').1
    have hlength : c.length = c'.length := by
      rcases mem_readDir_iff.mp (List.mem_toFinset.mp hc) with ⟨name, rfl, -⟩
      rcases mem_readDir_iff.mp (List.mem_toFinset.mp hc') with ⟨name', rfl, -⟩
      simp
    exact hne ((List.prefix_of_prefix_length_le hcx hcx' hlength.le).eq_of_length hlength)

theorem card_filesBelow_of_isFile (hc : IsFile s c) : (filesBelow s c).card = 1 := by
  rw [Finset.card_eq_one]
  refine ⟨c, Finset.ext fun x => ?_⟩
  rw [mem_filesBelow, Finset.mem_singleton]
  constructor
  · exact fun h => eq_of_isFile hc h.1 h.2.lookup_ne_none
  · rintro rfl
    exact ⟨List.prefix_refl x, hc⟩

/-! ## Folding -/

section Folding

variable (hhead : HeadTree env dirHashes) (hfuel : 2 ≤ env.fuel)
  (hstaged : ∀ path name, path ≠ [] → path ++ [name] ∈ s.staged → path ∈ s.staged)

include hhead hfuel in
theorem maybeGetNode_eq_none_iff : maybeGetNode env dirHashes path = none ↔
    path ∉ dirHashes ∧ ∀ f, ¬ Committed env dirHashes path f := by
  by_cases hdir : path ∈ dirHashes
  · rcases maybeGetNode_of_mem hhead.good hfuel hdir with ⟨d, loaded, hnode, -⟩
    rw [hnode]
    exact iff_of_false (Option.some_ne_none _) fun h => h.1 hdir
  · rcases maybeGetNode_of_not_mem hhead hfuel hdir with ⟨hnode, hnone⟩ | ⟨f, cs, hnode, hf⟩
    · exact iff_of_true hnode ⟨hdir, hnone⟩
    · rw [hnode]
      exact iff_of_false (Option.some_ne_none _) fun h => h.2 f hf

theorem allUntracked_iff (hdir : s.disk.isDir search = true) : AllUntracked env dirHashes s search ↔
    ∀ c ∈ s.disk.readDir search, AllUntracked env dirHashes s c := by
  constructor
  · exact fun h c hc x hcx => h x ((isPrefix_of_mem_readDir hc).trans hcx)
  · intro h x hx hfile
    have hne : search ≠ x := by
      rintro rfl
      rw [hfile.not_isDir] at hdir
      cases hdir
    rcases exists_entry hfile.lookup_ne_none hx hne with ⟨c, hc, hcx⟩
    exact h c hc x hcx hfile

/-- Below a folded directory nothing is in the head. -/
theorem Folded.no_entry (h : Folded env dirHashes s search) (hc : c ∈ s.disk.readDir search)
    (n : EMerkleTreeNode) : ¬ Entry env dirHashes c n := by
  intro hn
  have hmem := hn.dropLast_mem
  rw [dropLast_of_mem_readDir hc] at hmem
  exact h.not_dir hmem

include hhead hstaged in
theorem Folded.entry (h : Folded env dirHashes s search) (hc : c ∈ s.disk.readDir search)
    (hdir : s.disk.isDir c = true) : Folded env dirHashes s c where
  ne_nil := by
    rcases mem_readDir_iff.mp hc with ⟨name, rfl, -⟩
    simp
  isDir := hdir
  unstaged := by
    rcases mem_readDir_iff.mp hc with ⟨name, rfl, -⟩
    exact fun hmem => h.unstaged (hstaged search name h.ne_nil hmem)
  not_dir := by
    intro hmem
    have hne : c ≠ [] := by
      rcases mem_readDir_iff.mp hc with ⟨name, rfl, -⟩
      simp
    rcases (hhead.mem_iff c hne).mp hmem with ⟨d, hd⟩
    exact h.no_entry hc _ hd
  not_committed f hf := h.no_entry hc _ hf
  allUntracked := (allUntracked_iff h.isDir).mp h.allUntracked c hc

theorem topmost_iff_of_folded (h : Folded env dirHashes s c) :
    Topmost env dirHashes s c r ↔ r = c := by
  constructor
  · intro htop
    by_contra hne
    exact htop.topmost c (List.prefix_refl c) htop.below (Ne.symm hne) h
  · rintro rfl
    refine ⟨List.prefix_refl r, h, fun q hrq hqr hne => ?_⟩
    exact absurd (hqr.eq_of_length_le hrq.length_le) hne

theorem lookup_addDir (data : UntrackedData) (count : ℕ) :
    (data.addDir path count).dirs.lookup r =
      if r = path then
        some (((data.dirs.keys.filter fun key => path <+: key ∧ key ≠ path).map fun key =>
          (data.dirs.lookup key).getD 0).sum + count)
      else if path <+: r then none
      else data.dirs.lookup r := by
  unfold UntrackedData.addDir
  dsimp only
  rcases eq_or_ne r path with rfl | hne
  · rw [if_pos rfl, AList.lookup_insert]
  · rw [if_neg hne, AList.lookup_insert_ne hne, KeyedMap.lookup_foldl_erase_keys]
    by_cases hbelow : path <+: r
    · rw [if_pos hbelow]
      split
      · rfl
      · next hmem =>
        rw [AList.lookup_eq_none]
        exact fun hkey => hmem (List.mem_filter.mpr
          ⟨AList.mem_keys.mp hkey, by simpa using ⟨hbelow, hne⟩⟩)
    · rw [if_neg hbelow, if_neg]
      intro hmem
      exact hbelow (by simpa using (List.mem_filter.mp hmem).2 : path <+: r ∧ r ≠ path).1

/-- The entries of a folded directory count as what is below them. -/
theorem card_filesBelow_entry (h : Folded env dirHashes s search) (hc : c ∈ s.disk.readDir search) :
    (filesBelow s c).card =
      (if s.disk.isDir c then (filesBelow s c).card else 0) + untrackedCount env dirHashes s c := by
  cases hdir : s.disk.isDir c with
  | true =>
      have huntracked : ¬ Untracked env dirHashes s c := fun hc => by
        rw [hc.isFile.not_isDir] at hdir
        cases hdir
      rw [if_pos rfl, untrackedCount, if_neg huntracked, add_zero]
  | false =>
      have hfile := (isFile_iff (lookup_ne_none_of_mem_readDir hc)).mpr hdir
      have huntracked : Untracked env dirHashes s c :=
        ⟨hfile, h.allUntracked c (isPrefix_of_mem_readDir hc) hfile,
          by rw [dropLast_of_mem_readDir hc]; exact h.not_committed⟩
      rw [if_neg Bool.false_ne_true, untrackedCount, if_pos huntracked, zero_add,
        card_filesBelow_of_isFile hfile]

include hhead hstaged in
/-- A folded directory is counted by the directories in it and its own files. -/
theorem count_of_folded (h : Folded env dirHashes s search) {out : Changes × ℕ}
    (hout : Collects env dirHashes s (s.disk.readDir search) ({}, 0) out) :
    ((out.1.untracked.dirs.keys.filter fun key => search <+: key ∧ key ≠ search).map fun key =>
        (out.1.untracked.dirs.lookup key).getD 0).sum + out.2 = (filesBelow s search).card := by
  have hkey : ∀ r, r ∈ out.1.untracked.dirs ↔
      r ∈ (s.disk.readDir search).filter fun c => s.disk.isDir c := by
    intro r
    rw [hout.dirs, or_iff_right (AList.notMem_empty r), List.mem_filter]
    constructor
    · rintro ⟨c, hc, htop⟩
      have hdir : s.disk.isDir c = true := by
        by_cases heq : c = r
        · rw [heq]
          exact htop.folded.isDir
        · exact isDir_of_isPrefix (lookup_ne_none_of_isDir htop.folded.isDir) htop.below heq
      obtain rfl := (topmost_iff_of_folded (h.entry hhead hstaged hc hdir)).mp htop
      exact ⟨hc, hdir⟩
    · rintro ⟨hr, hdir⟩
      exact ⟨r, hr, (topmost_iff_of_folded (h.entry hhead hstaged hr hdir)).mpr rfl⟩
  have hall : (out.1.untracked.dirs.keys.filter fun key => search <+: key ∧ key ≠ search) =
      out.1.untracked.dirs.keys := by
    rw [List.filter_eq_self]
    intro r hr
    have hmem := (List.mem_filter.mp ((hkey r).mp (AList.mem_keys.mpr hr))).1
    simpa using And.intro (isPrefix_of_mem_readDir hmem) (ne_of_mem_readDir hmem)
  have hperm : out.1.untracked.dirs.keys.Perm
      ((s.disk.readDir search).filter fun c => s.disk.isDir c) := by
    rw [List.perm_ext_iff_of_nodup out.1.untracked.dirs.keys_nodup
      ((nodup_readDir search).filter _)]
    intro r
    rw [← AList.mem_keys, hkey]
  have hvalue : ∀ r ∈ out.1.untracked.dirs.keys,
      (out.1.untracked.dirs.lookup r).getD 0 = (filesBelow s r).card := by
    intro r hr
    rcases Option.isSome_iff_exists.mp (AList.lookup_isSome.mpr (AList.mem_keys.mpr hr)) with
      ⟨n, hn⟩
    rw [hn, Option.getD_some]
    exact hout.counts (fun r n hempty => by cases hempty) r n hn
  have hcount := hout.count
  rw [zero_add] at hcount
  rw [hall, List.map_congr_left hvalue, (hperm.map _).sum_eq, hcount, card_filesBelow h.isDir,
    List.map_congr_left fun c hc => card_filesBelow_entry h hc, List.sum_map_add]
  refine congrArg (· + _) ?_
  induction s.disk.readDir search with
  | nil => rfl
  | cons c cs ih =>
      cases hdir : s.disk.isDir c with
      | true => simpa [hdir] using ih
      | false => simpa [hdir] using ih

/-- Whether the directory that was searched is folded. -/
theorem foldUntracked_condition (hhead : HeadTree env dirHashes) (hfuel : 2 ≤ env.fuel)
    (hdir : s.disk.isDir search = true) {out : Changes × ℕ}
    (hout : Collects env dirHashes s (s.disk.readDir search) ({}, 0) out) :
    (out.1.untracked.allUntracked ∧ search ≠ [] ∧ search ∉ s.staged ∧ s.disk.isDir search ∧
      maybeGetNode env dirHashes search = none) ↔ Folded env dirHashes s search := by
  rw [maybeGetNode_eq_none_iff hhead hfuel, hout.allUntracked, and_iff_right rfl,
    ← allUntracked_iff hdir]
  constructor
  · rintro ⟨hall, hne, hunstaged, -, hnot, hcommitted⟩
    exact ⟨hne, hdir, hunstaged, hnot, hcommitted, hall⟩
  · intro h
    exact ⟨h.allUntracked, h.ne_nil, h.unstaged, hdir, h.not_dir, h.not_committed⟩

/-- What lies below a directory that is not folded is found in its entries. -/
theorem unfolded_iff (hfolded : ¬ Folded env dirHashes s search)
    (hc : c ∈ s.disk.readDir search) (hcx : c <+: x) :
    Unfolded env dirHashes s search x ↔ Unfolded env dirHashes s c x := by
  constructor
  · exact fun h r hcr hrx => h r ((isPrefix_of_mem_readDir hc).trans hcr) hrx
  · intro h r hr hrx
    rcases eq_or_isPrefix hc hcx hr hrx with rfl | hcr
    · exact hfolded
    · exact h r hcr hrx

theorem topmost_iff_exists (hdir : s.disk.isDir search = true)
    (hfolded : ¬ Folded env dirHashes s search) :
    Topmost env dirHashes s search r ↔
      ∃ c ∈ s.disk.readDir search, Topmost env dirHashes s c r := by
  constructor
  · intro h
    have hne : search ≠ r := by
      rintro rfl
      exact hfolded h.folded
    rcases exists_entry (lookup_ne_none_of_isDir h.folded.isDir) h.below hne with ⟨c, hc, hcr⟩
    exact ⟨c, hc, hcr, h.folded, fun q hcq => h.topmost q ((isPrefix_of_mem_readDir hc).trans hcq)⟩
  · rintro ⟨c, hc, h⟩
    refine ⟨(isPrefix_of_mem_readDir hc).trans h.below, h.folded, fun q hq hqr hne => ?_⟩
    rcases eq_or_isPrefix hc h.below hq hqr with rfl | hcq
    · exact hfolded
    · exact h.topmost q hcq hqr hne

include hhead hfuel in
/-- The children of a directory that are missing on disk. -/
theorem removedChildren_spec (search : PathBuf) :
    ∃ removed, removedChildren env dirHashes s search = .ok removed ∧
      ∀ x, x ∈ removed ↔ x.dropLast = search ∧ (∃ n, Entry env dirHashes x n) ∧
        s.disk.lookup x = none := by
  unfold removedChildren
  cases hlookup : dirHashes.lookup search with
  | none =>
      refine ⟨∅, rfl, fun x => iff_of_false (Finset.notMem_empty x) ?_⟩
      rintro ⟨rfl, ⟨n, hn⟩, -⟩
      exact AList.lookup_eq_none.mp hlookup hn.dropLast_mem
  | some hash =>
      rcases exists_children hhead.good hfuel hlookup with
        ⟨loaded, children, hread, hchildren, hlisted, hentry⟩
      dsimp only
      rw [hread]
      dsimp only
      rw [hchildren]
      refine ⟨_, rfl, fun x => ?_⟩
      rw [List.mem_toFinset, List.mem_filterMap]
      constructor
      · rintro ⟨c, hc, hx⟩
        rw [nameOf_eq (hentry c hc), Option.map_some, Option.filter_eq_some_iff] at hx
        obtain ⟨heq, hmissing⟩ := hx
        obtain rfl := Option.some.inj heq
        have hlisted : c.node ∈ listed env.db hash := by
          rw [← hlisted]
          exact List.mem_map_of_mem hc
        rcases exists_name_of_isEntry (hentry c hc) with ⟨name, hname⟩
        rw [hname] at hmissing ⊢
        refine ⟨List.dropLast_concat, ⟨c.node, (entry_concat_iff hlookup).mpr ⟨hlisted, hname⟩⟩, ?_⟩
        simpa [WorkingTree.pathExists] using hmissing
      · rintro ⟨rfl, ⟨n, hn⟩, hmissing⟩
        have hconcat := List.dropLast_append_getLast hn.ne_nil
        have hn' := hn
        rw [← hconcat, entry_concat_iff hlookup, ← hlisted] at hn'
        rcases List.mem_map.mp hn'.1 with ⟨c, hc, rfl⟩
        refine ⟨c, hc, ?_⟩
        rw [nameOf_eq (hentry c hc), Option.map_some, hn'.2, hconcat]
        simp [WorkingTree.pathExists, hmissing]

end Folding

/-! ## The walk -/

section Walks

variable (hhead : HeadTree env dirHashes) (hfuel : 2 ≤ env.fuel)
  (hvisible : ∀ path, s.disk.lookup path ≠ none →
    isIgnored env path (s.disk.isDir path) = false)
  (hstaged : ∀ path name, path ≠ [] → path ++ [name] ∈ s.staged → path ∈ s.staged)

include hhead hfuel hstaged in
/-- A directory whose entries were collected. -/
theorem finds_of_collects (hdir : s.disk.isDir search = true) {out : Changes × ℕ}
    (hout : Collects env dirHashes s (s.disk.readDir search) ({}, 0) out)
    {removed : Finset PathBuf} (hremoved : ∀ x, x ∈ removed ↔ x.dropLast = search ∧
      (∃ n, Entry env dirHashes x n) ∧ s.disk.lookup x = none) :
    Finds env dirHashes s search
      { foldUntracked env dirHashes s search out with
        removed := (foldUntracked env dirHashes s search out).removed ∪ removed } := by
  have hchanges : (foldUntracked env dirHashes s search out).modified = out.1.modified ∧
      (foldUntracked env dirHashes s search out).removed = out.1.removed ∧
      (foldUntracked env dirHashes s search out).untracked.allUntracked =
        out.1.untracked.allUntracked := by
    unfold foldUntracked
    split
    · exact ⟨rfl, rfl, rfl⟩
    · exact ⟨rfl, rfl, rfl⟩
  have hnotFile : ¬ IsFile s search := fun h => by
    rw [h.not_isDir] at hdir
    cases hdir
  have hcondition := foldUntracked_condition hhead hfuel hdir hout
  refine ⟨fun x => ?_, fun x => ?_, fun x => ?_, fun r => ?_, ?_, ?_⟩
  · dsimp only
    rw [hchanges.1, hout.modified, or_iff_right (Finset.notMem_empty x)]
    constructor
    · rintro ⟨c, hc, hcx, h⟩
      exact ⟨(isPrefix_of_mem_readDir hc).trans hcx, h⟩
    · rintro ⟨hx, h⟩
      have hne : search ≠ x := by
        rintro rfl
        exact hnotFile h.isFile
      rcases exists_entry h.isFile.lookup_ne_none hx hne with ⟨c, hc, hcx⟩
      exact ⟨c, hc, hcx, h⟩
  · dsimp only
    rw [hchanges.2.1, Finset.mem_union, hremoved, hout.removed,
      or_iff_right (Finset.notMem_empty x)]
    constructor
    · rintro (⟨c, hc, hcx, h⟩ | ⟨rfl, hentry, hmissing⟩)
      · exact ⟨(isPrefix_of_mem_readDir hc).trans hcx, h⟩
      · exact ⟨List.prefix_refl _, hentry, hdir, hmissing⟩
    · rintro ⟨hx, h⟩
      by_cases heq : x.dropLast = search
      · exact .inr ⟨heq, h.entry, h.missing⟩
      · rcases exists_entry (lookup_ne_none_of_isDir h.isDir) hx (Ne.symm heq) with ⟨c, hc, hcx⟩
        exact .inl ⟨c, hc, hcx, h⟩
  · have hfiles := hout.files x
    rw [or_iff_right List.not_mem_nil] at hfiles
    unfold foldUntracked
    by_cases hfolded : Folded env dirHashes s search
    · rw [if_pos (hcondition.mpr hfolded)]
      refine iff_of_false List.not_mem_nil ?_
      rintro ⟨hx, -, hunfolded⟩
      exact hunfolded search (List.prefix_refl search) hx hfolded
    · rw [if_neg fun h => hfolded (hcondition.mp h)]
      dsimp only
      rw [hfiles]
      constructor
      · rintro ⟨c, hc, hcx, h, hunfolded⟩
        exact ⟨(isPrefix_of_mem_readDir hc).trans hcx, h,
          (unfolded_iff hfolded hc hcx).mpr hunfolded⟩
      · rintro ⟨hx, h, hunfolded⟩
        have hne : search ≠ x := by
          rintro rfl
          exact hnotFile h.isFile
        rcases exists_entry h.isFile.lookup_ne_none hx hne with ⟨c, hc, hcx⟩
        exact ⟨c, hc, hcx, h, (unfolded_iff hfolded hc hcx).mp hunfolded⟩
  · have hdirs := hout.dirs r
    rw [or_iff_right (AList.notMem_empty r)] at hdirs
    unfold foldUntracked
    by_cases hfolded : Folded env dirHashes s search
    · rw [if_pos (hcondition.mpr hfolded), topmost_iff_of_folded hfolded, ← AList.lookup_isSome]
      dsimp only
      rw [lookup_addDir]
      rcases eq_or_ne r search with rfl | hne
      · simp
      · rw [if_neg hne]
        refine iff_of_false ?_ hne
        split
        · exact Bool.false_ne_true
        · next hbelow =>
          rw [AList.lookup_isSome, hdirs]
          rintro ⟨c, hc, htop⟩
          exact hbelow ((isPrefix_of_mem_readDir hc).trans htop.below)
    · rw [if_neg fun h => hfolded (hcondition.mp h), topmost_iff_exists hdir hfolded]
      exact hdirs
  · intro r n hlookup
    have hcounts := hout.counts (fun r n hempty => by cases hempty)
    unfold foldUntracked at hlookup
    by_cases hfolded : Folded env dirHashes s search
    · rw [if_pos (hcondition.mpr hfolded)] at hlookup
      dsimp only at hlookup
      rw [lookup_addDir] at hlookup
      split at hlookup
      · next heq =>
        rw [heq, ← count_of_folded hhead hstaged hfolded hout]
        exact (Option.some.inj hlookup).symm
      · split at hlookup
        · cases hlookup
        · exact hcounts r n hlookup
    · rw [if_neg fun h => hfolded (hcondition.mp h)] at hlookup
      exact hcounts r n hlookup
  · dsimp only
    rw [hchanges.2.2, hout.allUntracked, and_iff_right rfl, allUntracked_iff hdir]

include hhead hfuel hvisible in
/-- A walk that returns has compared nothing with a file that has no time. -/
theorem not_compared_of_findChanges (height : ℕ) (search : PathBuf)
    (hdir : s.disk.isDir search = true) (hheight : s.disk.height < search.length + height)
    {changes : Changes} (hrun : findChanges env dirHashes s height search = .ok changes)
    (hpath : search <+: path) : ¬ Compared env dirHashes s (.error .panicked) path := by
  intro h
  induction height generalizing search changes with
  | zero =>
      have hlength := length_le_height h.isFile.lookup_ne_none h.isFile.ne_nil
      have hbelow := hpath.length_le
      omega
  | succ height ih =>
      have hne : search ≠ path := by
        rintro rfl
        rw [h.isFile.not_isDir] at hdir
        cases hdir
      rcases exists_entry h.isFile.lookup_ne_none hpath hne with ⟨c, hc, hcx⟩
      rw [findChanges] at hrun
      simp only [hdir, if_true] at hrun
      rcases Runs.bind_eq_ok.mp hrun with ⟨out, hfold, -⟩
      rcases (Runs.foldlM_eq_ok.mp hfold).exists_step c hc with ⟨before, after, hstep⟩
      cases hcdir : s.disk.isDir c with
      | true =>
          rw [checkEntry, if_neg (by rw [hvisible c (lookup_ne_none_of_mem_readDir hc)]; decide),
            if_pos hcdir] at hstep
          rcases hwalk : findChanges env dirHashes s height c with e | sub
          · rw [hwalk] at hstep
            cases hstep
          · rcases mem_readDir_iff.mp hc with ⟨name, rfl, -⟩
            refine ih (search ++ [name]) hcdir ?_ hwalk hcx
            rw [List.length_append, List.length_singleton]
            omega
      | false =>
          have hfile := (isFile_iff (lookup_ne_none_of_mem_readDir hc)).mpr hcdir
          obtain rfl := eq_of_isFile hfile hcx h.isFile.lookup_ne_none
          rw [checkEntry_panics hhead hfuel hvisible _ hc h] at hstep
          cases hstep

include hhead hfuel hvisible hstaged in
/-- With height for the longest path a walk finds everything below a directory, unless it compares
with a file that has no time. -/
theorem findChanges_finds (htimes : ∀ path, ¬ Compared env dirHashes s (.error .panicked) path)
    (height : ℕ) (search : PathBuf) (hdir : s.disk.isDir search = true)
    (hheight : s.disk.height < search.length + height) :
    ∃ changes, findChanges env dirHashes s height search = .ok changes ∧
      Finds env dirHashes s search changes := by
  induction height generalizing search with
  | zero =>
      by_cases hne : search = []
      · subst hne
        simp at hheight
      · have hlength := length_le_height (lookup_ne_none_of_isDir hdir) hne
        omega
  | succ height ih =>
      have hwalk : ∀ c ∈ s.disk.readDir search, s.disk.isDir c = true →
          ∃ sub, findChanges env dirHashes s height c = .ok sub ∧ Finds env dirHashes s c sub := by
        intro c hc hcdir
        rcases mem_readDir_iff.mp hc with ⟨name, rfl, -⟩
        apply ih _ hcdir
        rw [List.length_append, List.length_singleton]
        omega
      rcases foldlM_checkEntry hhead hfuel hvisible htimes _ _ (fun c hc => hc) hwalk ({}, 0) with
        ⟨out, hrun, hout⟩
      rcases removedChildren_spec hhead hfuel search with ⟨removed, hremovedRun, hremoved⟩
      refine ⟨_, ?_, finds_of_collects hhead hfuel hstaged hdir hout hremoved⟩
      rw [findChanges]
      simp only [hdir, if_true, hrun, hremovedRun, Runs.ok_bind]
      rfl

end Walks

end Status

end Oxen
