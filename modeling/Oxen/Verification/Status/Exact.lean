import Oxen.Verification.Status.Staged
import Oxen.Verification.Staging.Remove
import Oxen.Verification.Staging.Unstage
import Oxen.Verification.Status.Walk

/-! The status is exact where files and directories do not take each other's place, and where
nothing is staged in what is missing. -/

namespace Oxen

namespace Status

open MerkleTreeNode CommitMerkleTree Remove CommitWriter

variable {env : Env} {dirHashes : DirHashes} {s : State} {data : StagedData} {path dir x : PathBuf}
  {f : FileNode}

/-! ## What exactness is -/

/-- The path is listed as removed, itself or through a directory above. -/
def ListedRemoved (data : StagedData) (path : PathBuf) : Prop :=
  ∃ dir, dir <+: path ∧ dir ∈ data.removedFiles

/-- An untracked directory with its count, at or above the path. -/
def CoversUntracked (data : StagedData) (path : PathBuf) (entry : PathBuf × ℕ) : Prop :=
  entry ∈ data.untrackedDirs ∧ entry.1 <+: path

def ListedUntracked (data : StagedData) (path : PathBuf) : Prop :=
  path ∈ data.untrackedFiles ∨ ∃ entry, CoversUntracked data path entry

/-- The path is listed as untracked in one way: itself, or below exactly one directory. -/
def OnceUntracked (data : StagedData) (path : PathBuf) : Prop :=
  (path ∈ data.untrackedFiles ∧ ∀ entry, ¬ CoversUntracked data path entry) ∨
    path ∉ data.untrackedFiles ∧ ∃! entry, CoversUntracked data path entry

/-- A file on disk with another content. -/
def DiffersOnDisk (env : Env) (s : State) (path : PathBuf) (f : FileNode) : Prop :=
  ∃ content mtime, s.disk.lookup path = some (.file content mtime) ∧ env.xxh3 content ≠ f.hash

/-- Every path is reported in exactly one way. -/
structure Exact (env : Env) (dirHashes : DirHashes) (s : State) (data : StagedData) : Prop where
  staged : ∀ path entry f, s.staged.lookup path = some entry → entry.node = .file f →
    data.stagedFiles.lookup path =
        some { hash := MerkleHash.display f.hash, status := entry.status } ∧
      path ∉ data.modifiedFiles ∧ ¬ ListedRemoved data path ∧ ¬ ListedUntracked data path
  unstaged : ∀ path, ¬ StagedFile s.staged path → data.stagedFiles.lookup path = none
  committed : ∀ path f, Committed env dirHashes path f → ¬ StagedFile s.staged path →
    (path ∈ data.modifiedFiles ↔ DiffersOnDisk env s path f) ∧
      (ListedRemoved data path ↔ ¬ IsFile s path) ∧ ¬ ListedUntracked data path
  untracked : ∀ path, IsFile s path → ¬ StagedFile s.staged path →
    (∀ f, ¬ Committed env dirHashes path f) →
      OnceUntracked data path ∧ path ∉ data.modifiedFiles ∧ ¬ ListedRemoved data path
  counts : ∀ entry ∈ data.untrackedDirs, entry.2 = (filesBelow s entry.1).card

/-! ## When it is exact -/

/-- The paths with a file in the head that is not staged, and files on disk that are neither
staged nor in the head, that keep apart from directories and from what is staged. -/
structure KeptApart (env : Env) (dirHashes : DirHashes) (s : State) : Prop where
  /-- Where there is no file for one of the head, a path on the way is missing in a directory and
  has nothing staged. -/
  missing : ∀ path f, Committed env dirHashes path f → ¬ StagedFile s.staged path →
    ¬ IsFile s path → ∃ dir, dir ≠ [] ∧ dir <+: path ∧ s.disk.isDir dir.dropLast = true ∧
      s.disk.lookup dir = none ∧ dir ∉ s.staged
  /-- A file that differs from the head's has nothing staged at its path. -/
  modified : ∀ path f, Committed env dirHashes path f → ¬ StagedFile s.staged path →
    DiffersOnDisk env s path f → path ∉ s.staged
  /-- A new file is at the path of no staged directory and of no directory of the head, and in no
  directory that is a file of the head. -/
  untracked : ∀ path, IsFile s path → ¬ StagedFile s.staged path →
    (∀ f, ¬ Committed env dirHashes path f) →
      path ∉ s.staged ∧ path ∉ dirHashes ∧ ∀ f, ¬ Committed env dirHashes path.dropLast f

/-! ## The head's tree -/

theorem Committed.no_folded (hhead : HeadTree env dirHashes) (h : Committed env dirHashes path f)
    (hdir : dir <+: path) : ¬ Folded env dirHashes s dir := by
  intro hfolded
  by_cases heq : dir = path
  · subst heq
    exact hfolded.not_committed f h
  · exact hfolded.not_dir ((h.of_isPrefix hhead hdir hfolded.ne_nil).2 heq)

/-! ## What is reported -/

/-- Below a folded directory there is a topmost one. -/
theorem exists_topmost (h : Folded env dirHashes s dir) :
    ∃ top, Topmost env dirHashes s [] top ∧ top <+: dir := by
  induction hlength : dir.length using Nat.strong_induction_on generalizing dir with
  | _ n ih =>
      by_cases habove : ∃ r, r <+: dir ∧ r ≠ dir ∧ Folded env dirHashes s r
      · rcases habove with ⟨r, hr, hne, hfolded⟩
        have hlt : r.length < n := by
          rw [← hlength]
          exact lt_of_le_of_ne hr.length_le fun heq => hne (hr.eq_of_length heq)
        rcases ih r.length hlt hfolded rfl with ⟨top, htop, hbelow⟩
        exact ⟨top, htop, hbelow.trans hr⟩
      · exact ⟨dir, ⟨List.nil_prefix, h, fun r _ hr hne hfolded => habove ⟨r, hr, hne, hfolded⟩⟩,
          List.prefix_refl dir⟩

theorem Topmost.unique {top : PathBuf} (h : Topmost env dirHashes s [] top)
    (h' : Topmost env dirHashes s [] dir) (htop : top <+: path) (hdir : dir <+: path) :
    top = dir := by
  by_contra hne
  rcases List.prefix_or_prefix_of_prefix htop hdir with hle | hle
  · exact h'.topmost top List.nil_prefix hle hne h.folded
  · exact h.topmost dir List.nil_prefix hle (Ne.symm hne) h'.folded

/-- The data before the staged entries are added. -/
def onDisk (changes : Changes) : StagedData where
  untrackedDirs := KeyedMap.toList changes.untracked.dirs
  untrackedFiles := changes.untracked.files
  modifiedFiles := changes.modified
  removedFiles := changes.removed

section Reports

variable {changes : Changes} (hfinds : Finds env dirHashes s [] changes)
  (hadds : AddsStaged s.staged (onDisk changes) data)

include hfinds hadds

theorem mem_modifiedFiles : path ∈ data.modifiedFiles ↔
    Modified env dirHashes s path ∧ ¬ StagedFile s.staged path := by
  rw [hadds.modified, onDisk, hfinds.modified, and_iff_right List.nil_prefix]

theorem listedRemoved_iff : ListedRemoved data path ↔
    ∃ dir, dir <+: path ∧ Gone env dirHashes s dir ∧ dir ∉ s.staged := by
  constructor
  · rintro ⟨dir, hdir, hmem⟩
    rw [hadds.removed, onDisk, hfinds.removed] at hmem
    rcases hmem with ⟨⟨-, hgone⟩, hunstaged⟩
    rcases hgone.entry with ⟨n, hn⟩
    exact ⟨dir, hdir, hgone, hunstaged.resolve_left hn.ne_nil⟩
  · rintro ⟨dir, hdir, hgone, hunstaged⟩
    refine ⟨dir, hdir, ?_⟩
    rw [hadds.removed, onDisk, hfinds.removed]
    exact ⟨⟨List.nil_prefix, hgone⟩, .inr hunstaged⟩

theorem mem_untrackedFiles : path ∈ data.untrackedFiles ↔
    Untracked env dirHashes s path ∧ Unfolded env dirHashes s [] path := by
  rw [hadds.untrackedFiles, onDisk, hfinds.files, and_iff_right List.nil_prefix]

theorem mem_untrackedDirs {entry : PathBuf × ℕ} : entry ∈ data.untrackedDirs ↔
    Topmost env dirHashes s [] entry.1 ∧ entry.2 = (filesBelow s entry.1).card := by
  rw [hadds.untrackedDirs, onDisk]
  rcases entry with ⟨dir, n⟩
  rw [KeyedMap.mem_toList, ← hfinds.dirs, ← AList.lookup_isSome, Option.isSome_iff_exists]
  constructor
  · exact fun hlookup => ⟨⟨n, hlookup⟩, hfinds.counts dir n hlookup⟩
  · rintro ⟨⟨m, hlookup⟩, hn⟩
    rw [hlookup, hfinds.counts dir m hlookup]
    exact congrArg some hn.symm

theorem listedUntracked_iff : ListedUntracked data path ↔
    Untracked env dirHashes s path ∧ Unfolded env dirHashes s [] path ∨
      ∃ dir, dir <+: path ∧ Folded env dirHashes s dir := by
  rw [ListedUntracked, mem_untrackedFiles hfinds hadds]
  refine or_congr_right ⟨?_, ?_⟩
  · rintro ⟨entry, hmem, hdir⟩
    exact ⟨entry.1, hdir, ((mem_untrackedDirs hfinds hadds).mp hmem).1.folded⟩
  · rintro ⟨dir, hdir, hfolded⟩
    rcases exists_topmost hfolded with ⟨top, htop, hbelow⟩
    exact ⟨(top, (filesBelow s top).card), (mem_untrackedDirs hfinds hadds).mpr ⟨htop, rfl⟩,
      hbelow.trans hdir⟩

/-- What is untracked is listed once. -/
theorem onceUntracked_of_untracked (h : Untracked env dirHashes s path) :
    OnceUntracked data path := by
  have hfiles : path ∈ data.untrackedFiles ↔ Unfolded env dirHashes s [] path := by
    rw [mem_untrackedFiles hfinds hadds, and_iff_right h]
  by_cases hunfolded : Unfolded env dirHashes s [] path
  · refine .inl ⟨hfiles.mpr hunfolded, fun entry hentry => ?_⟩
    exact hunfolded entry.1 List.nil_prefix hentry.2
      ((mem_untrackedDirs hfinds hadds).mp hentry.1).1.folded
  · refine .inr ⟨fun hmem => hunfolded (hfiles.mp hmem), ?_⟩
    simp only [Unfolded, not_forall, not_not] at hunfolded
    rcases hunfolded with ⟨dir, -, hdir, hfolded⟩
    rcases exists_topmost hfolded with ⟨top, htop, hbelow⟩
    refine ⟨(top, (filesBelow s top).card),
      ⟨(mem_untrackedDirs hfinds hadds).mpr ⟨htop, rfl⟩, hbelow.trans hdir⟩, fun entry hentry => ?_⟩
    rcases (mem_untrackedDirs hfinds hadds).mp hentry.1 with ⟨htop', hcount⟩
    have heq := htop'.unique htop hentry.2 (hbelow.trans hdir)
    exact Prod.ext heq (by rw [hcount, heq])

end Reports

/-! ## Exactness -/

/-- What is above a staged path is staged. -/
theorem StagedFiles.mem_of_isPrefix (h : StagedFiles s.staged) (hpath : path ∈ s.staged)
    (hdir : dir <+: path) (hne : dir ≠ []) : dir ∈ s.staged := by
  rcases hdir with ⟨rest, rfl⟩
  induction rest using List.reverseRecOn with
  | nil => rwa [List.append_nil] at hpath
  | append_singleton rest name ih =>
      rw [← List.append_assoc] at hpath
      rcases h.parents _ name (by simp [hne]) hpath with ⟨entry, d, hlookup, -⟩
      exact ih (AList.lookup_isSome.mp (by rw [hlookup]; rfl))

theorem StagedFile.mem (h : StagedFile s.staged path) : path ∈ s.staged := by
  rcases h with ⟨entry, f, hlookup, -⟩
  exact AList.lookup_isSome.mp (by rw [hlookup]; rfl)

/-- Nothing that is gone lies on the way to a file. -/
theorem IsFile.not_gone (h : IsFile s path) (hdir : dir <+: path) :
    ¬ Gone env dirHashes s dir := by
  intro hgone
  by_cases heq : dir = path
  · subst heq
    exact h.lookup_ne_none hgone.missing
  · exact lookup_ne_none_of_isDir (isDir_of_isPrefix h.lookup_ne_none hdir heq) hgone.missing

section Exactness

variable (hhead : HeadTree env dirHashes) (hstaged : StagedFiles s.staged)
  (hcompare : ∀ path f content mtime, Committed env dirHashes path f →
    s.disk.lookup path = some (.file content mtime) →
      isModifiedFromNode env s path f = .ok (decide (env.xxh3 content ≠ f.hash)))
  {changes : Changes} (hfinds : Finds env dirHashes s [] changes)
  (hadds : AddsStaged s.staged (onDisk changes) data)

include hhead hfinds hadds in
theorem keptApart_of_exact (h : Exact env dirHashes s data) : KeptApart env dirHashes s where
  missing path f hf hunstaged hfile := by
    have hlisted := ((h.committed path f hf hunstaged).2.1).mpr hfile
    rcases (listedRemoved_iff hfinds hadds).mp hlisted with ⟨dir, hdir, hgone, hnot⟩
    rcases hgone.entry with ⟨n, hn⟩
    exact ⟨dir, hn.ne_nil, hdir, hgone.isDir, hgone.missing, hnot⟩
  modified path f hf hunstaged hdiffers := by
    have hmem := (h.committed path f hf hunstaged).1.mpr hdiffers
    exact ((mem_modifiedFiles hfinds hadds).mp hmem).1.unstaged
  untracked path hfile hunstaged hnone := by
    have hlisted : ListedUntracked data path := by
      rcases (h.untracked path hfile hunstaged hnone).1 with ⟨hmem, -⟩ | ⟨-, entry, hentry, -⟩
      · exact .inl hmem
      · exact .inr ⟨entry, hentry⟩
    have huntracked : ¬ Tracked env dirHashes s path ∧
        ∀ f, ¬ Committed env dirHashes path.dropLast f := by
      rcases (listedUntracked_iff hfinds hadds).mp hlisted with ⟨huntracked, -⟩ |
        ⟨dir, hdir, hfolded⟩
      · exact ⟨huntracked.not_tracked, huntracked.parent⟩
      · refine ⟨hfolded.allUntracked path hdir hfile, fun f hf => ?_⟩
        have hne : dir ≠ path := by
          rintro rfl
          have hisDir := hfolded.isDir
          rw [hfile.not_isDir] at hisDir
          cases hisDir
        exact hf.no_folded hhead ((Unstage.isPrefix_dropLast_iff hfile.ne_nil).mpr ⟨hdir, hne⟩)
          hfolded
    refine ⟨fun hmem => huntracked.1 (.inl hmem), fun hmem => ?_, huntracked.2⟩
    rcases (hhead.mem_iff path hfile.ne_nil).mp hmem with ⟨d, hd⟩
    exact huntracked.1 (.inr ⟨_, hd⟩)

include hhead hstaged hcompare hfinds hadds in
theorem exact_of_keptApart (h : KeptApart env dirHashes s) : Exact env dirHashes s data where
  staged path entry f hlookup hf := by
    have hfile : StagedFile s.staged path := ⟨entry, f, hlookup, hf⟩
    refine ⟨hadds.files path entry f hlookup hf, fun hmem => ?_, fun hlisted => ?_,
      fun hlisted => ?_⟩
    · exact ((mem_modifiedFiles hfinds hadds).mp hmem).2 hfile
    · rcases (listedRemoved_iff hfinds hadds).mp hlisted with ⟨dir, hdir, hgone, hnot⟩
      rcases hgone.entry with ⟨n, hn⟩
      exact hnot (hstaged.mem_of_isPrefix hfile.mem hdir hn.ne_nil)
    · rcases (listedUntracked_iff hfinds hadds).mp hlisted with ⟨huntracked, -⟩ |
        ⟨dir, hdir, hfolded⟩
      · exact huntracked.not_tracked (.inl hfile.mem)
      · exact hfolded.unstaged (hstaged.mem_of_isPrefix hfile.mem hdir hfolded.ne_nil)
  unstaged path hunstaged := hadds.others path hunstaged
  committed path f hf hunstaged := by
    refine ⟨?_, ?_, fun hlisted => ?_⟩
    · rw [mem_modifiedFiles hfinds hadds]
      constructor
      · rintro ⟨hmodified, -⟩
        rcases hmodified.isFile with ⟨content, mtime, hlookup⟩
        rcases hmodified.compares with ⟨g, hg, hdiffers⟩ | ⟨hnone, -⟩
        · cases hf.unique hhead.good hg
          rw [hcompare path f content mtime hf hlookup] at hdiffers
          exact ⟨content, mtime, hlookup, of_decide_eq_true (Except.ok.inj hdiffers)⟩
        · exact absurd hf (hnone _)
      · intro hdiffers
        refine ⟨⟨?_, h.modified path f hf hunstaged hdiffers, .inl ⟨f, hf, ?_⟩⟩, hunstaged⟩
        · rcases hdiffers with ⟨content, mtime, hlookup, -⟩
          exact ⟨content, mtime, hlookup⟩
        · rcases hdiffers with ⟨content, mtime, hlookup, hne⟩
          rw [hcompare path f content mtime hf hlookup, decide_eq_true hne]
    · rw [listedRemoved_iff hfinds hadds]
      constructor
      · rintro ⟨dir, hdir, hgone, -⟩ hfile
        exact hfile.not_gone hdir hgone
      · intro hfile
        rcases h.missing path f hf hunstaged hfile with ⟨dir, hne, hdir, hisDir, hmissing, hnot⟩
        exact ⟨dir, hdir, ⟨(hf.of_isPrefix hhead hdir hne).1, hisDir, hmissing⟩, hnot⟩
    · rcases (listedUntracked_iff hfinds hadds).mp hlisted with ⟨huntracked, -⟩ |
        ⟨dir, hdir, hfolded⟩
      · exact huntracked.not_tracked (.inr ⟨_, hf⟩)
      · exact hf.no_folded hhead hdir hfolded
  untracked path hfile hunstaged hnone := by
    rcases h.untracked path hfile hunstaged hnone with ⟨hnot, hindex, hparent⟩
    have huntracked : Untracked env dirHashes s path := by
      refine ⟨hfile, ?_, hparent⟩
      rintro (hmem | ⟨n, hn⟩)
      · exact hnot hmem
      · rcases hn.file_or_directory hhead.good with ⟨f, rfl⟩ | ⟨d, rfl⟩
        · exact hnone f hn
        · exact hindex ((hhead.mem_iff path hn.ne_nil).mpr ⟨d, hn⟩)
    refine ⟨onceUntracked_of_untracked hfinds hadds huntracked, fun hmem => ?_, fun hlisted => ?_⟩
    · rcases ((mem_modifiedFiles hfinds hadds).mp hmem).1.compares with ⟨f, hf, -⟩ | ⟨-, f, hf, -⟩
      · exact hnone f hf
      · exact hparent f hf
    · rcases (listedRemoved_iff hfinds hadds).mp hlisted with ⟨dir, hdir, hgone, -⟩
      exact hfile.not_gone hdir hgone
  counts entry hentry := ((mem_untrackedDirs hfinds hadds).mp hentry).2

end Exactness

namespace ReplacedExample

open NestedExample

theorem noFiles_free : RemoveExample.noFiles.lookup ["a"].dropLast = some .dir ∧
    RemoveExample.noFiles.lookup ["a"] ≠ some .dir := by
  decide

/-- In the place of the file `a` there is a directory with a new file. The file `d/x` is as
committed, and next to them lies a new file. -/
def disk : WorkingTree :=
  ((((RemoveExample.noFiles.put ["a"] .dir noFiles_free).put ["a", "new"] (.file [5, 5] 5)
    (by decide)).put ["d"] .dir (by decide)).put ["d", "x"] (.file [2] 2) (by decide)).put
      ["b"] (.file [7] 7) (by decide)

def stagedFile : StagedMerkleTreeNode :=
  { status := .added, node := .file (Oxen.Example.fileNode "b" [7] 7) }

/-- The new file `b` is staged. -/
def state : State := { staged := AList.insert ["b"] stagedFile ∅, disk }

theorem lookup_staged {path : PathBuf} {entry : StagedMerkleTreeNode}
    (h : state.staged.lookup path = some entry) : path = ["b"] ∧ entry = stagedFile := by
  rcases KeyedMap.lookup_insert_eq_some.mp h with ⟨rfl, rfl⟩ | ⟨-, hnone⟩
  · exact ⟨rfl, rfl⟩
  · cases hnone

theorem stagedFiles : StagedFiles state.staged where
  kinds path entry h := by
    obtain ⟨rfl, rfl⟩ := lookup_staged h
    exact .inl ⟨by decide, _, rfl, rfl⟩
  parents path name hne hmem := by
    rcases Option.isSome_iff_exists.mp (AList.lookup_isSome.mpr hmem) with ⟨entry, hentry⟩
    have hlength := congrArg List.length (lookup_staged hentry).1
    rw [List.length_append, List.length_singleton, List.length_singleton] at hlength
    exact absurd (List.eq_nil_of_length_eq_zero (Nat.succ.inj hlength)) hne

theorem mem_disk {path : PathBuf} (h : disk.lookup path ≠ none) :
    path ∈ [[], ["b"], ["d", "x"], ["d"], ["a", "new"], ["a"]] := by
  by_cases hne : path = []
  · rw [hne]
    exact List.mem_cons_self
  · rw [WorkingTree.lookup_of_ne_nil _ hne, ne_eq, AList.lookup_eq_none, not_not,
      AList.mem_keys,
      show disk.entries.keys = [["b"], ["d", "x"], ["d"], ["a", "new"], ["a"]] by decide] at h
    exact List.mem_cons_of_mem _ h

theorem visible (path : PathBuf) (h : state.disk.lookup path ≠ none) :
    isIgnored committed path (state.disk.isDir path) = false := by
  have hmem := mem_disk h
  simp only [List.mem_cons, List.not_mem_nil, or_false] at hmem
  rcases hmem with rfl | rfl | rfl | rfl | rfl | rfl <;> rfl

theorem compared (path : PathBuf) (f : FileNode) (content : Content) (mtime : FileTime)
    (hf : Committed committed head path f)
    (hlookup : state.disk.lookup path = some (.file content mtime)) :
    isModifiedFromNode committed state path f =
      .ok (decide (committed.xxh3 content ≠ f.hash)) := by
  rcases entry_iff.mp hf with ⟨rfl, -⟩ | ⟨rfl, -⟩ | ⟨rfl, hnode⟩
  · have hdir : state.disk.lookup ["a"] = some .dir := by decide
    rw [hdir] at hlookup
    cases hlookup
  · have hdir : state.disk.lookup ["d"] = some .dir := by decide
    rw [hdir] at hlookup
    cases hlookup
  · obtain rfl := EMerkleTreeNode.file.inj hnode
    have hfile : state.disk.lookup ["d", "x"] = some (.file [2] 2) := by decide
    obtain ⟨rfl, rfl⟩ := FsEntry.file.inj (Option.some.inj (hlookup.symm.trans hfile))
    decide

end ReplacedExample

end Status

end Oxen
