import Oxen.Lib.Runs
import Oxen.Verification.Diff.Collected
import Oxen.Verification.Diff.Pages
import Oxen.Verification.Tree.FileMap

/-! The entries of a listing, over all of its pages, and the change from one commit to another. -/

namespace Oxen

open Changes

/-! ## The parts of the pages -/

namespace Paginate

variable {α : Type}

/-- The directories on a page, counted from zero. -/
def dirsPart (dirs : List α) (pageSize i : ℕ) : List α :=
  (dirs.drop (i * pageSize)).take pageSize

/-- The files on a page behind so many directories. -/
def filesPart (numDirs : ℕ) (files : List α) (pageSize i : ℕ) : List α :=
  (files.drop (i * pageSize - numDirs)).take (pageSize - (numDirs - i * pageSize))

theorem flatMap_dirsPart {dirs : List α} {pageSize n : ℕ} (h : dirs.length ≤ n * pageSize) :
    (List.range n).flatMap (dirsPart dirs pageSize) = dirs := by
  have hflatten := Batches.flatten_batches dirs pageSize n
  rw [List.take_of_length_le h] at hflatten
  rwa [List.flatMap_def]

theorem flatMap_filesPart {files : List α} {numDirs pageSize n : ℕ}
    (h : numDirs + files.length ≤ n * pageSize) :
    (List.range n).flatMap (filesPart numDirs files pageSize) = files := by
  have hbelow : ∀ m, (List.range m).flatMap (filesPart numDirs files pageSize) =
      files.take (m * pageSize - numDirs) := by
    intro m
    induction m with
    | zero => simp
    | succ m ih =>
        have hnext : (m + 1) * pageSize - numDirs =
            (m * pageSize - numDirs) + (pageSize - (numDirs - m * pageSize)) := by
          rw [Nat.succ_mul]
          omega
        rw [List.range_succ, List.flatMap_append, ih, List.flatMap_singleton, hnext,
          List.take_add]
        rfl
  rw [hbelow, List.take_of_length_le (by omega)]

end Paginate

namespace Diff

open Paginate Commits

/-! ## One page -/

section

variable (env : DiffEnv) (baseCommit headCommit : CommitNode)

/-- The entry of a file whose summary can be made. -/
def shownEntry (entry : DiffFileNode) : DiffEntry :=
  .ofFileNodes baseCommit headCommit entry
    (DiffEntry.diffSummaryFromFileNodes env entry.dataType entry.baseEntry
      entry.headEntry).toOption.join

/-- The summary of the file can be made. -/
def Summarized (entry : DiffFileNode) : Prop :=
  ∃ summary, DiffEntry.diffSummaryFromFileNodes env entry.dataType entry.baseEntry
    entry.headEntry = .ok summary

variable {env baseCommit headCommit}

theorem fromFileNodes_eq {entry : DiffFileNode} (h : Summarized env entry) :
    DiffEntry.fromFileNodes env baseCommit headCommit entry =
      .ok (shownEntry env baseCommit headCommit entry) := by
  rcases h with ⟨summary, hsummary⟩
  rw [DiffEntry.fromFileNodes, shownEntry, hsummary]
  rfl

theorem summarized_of_fromFileNodes {entry : DiffFileNode} {x : DiffEntry}
    (h : DiffEntry.fromFileNodes env baseCommit headCommit entry = .ok x) :
    Summarized env entry := by
  unfold Summarized
  cases hsummary : DiffEntry.diffSummaryFromFileNodes env entry.dataType entry.baseEntry
      entry.headEntry with
  | error e =>
      rw [DiffEntry.fromFileNodes, hsummary] at h
      cases h
  | ok summary => exact ⟨summary, rfl⟩

theorem sliceOf_eq {α : Type} {l : List α} (h : l.length < 2 ^ 63) : sliceOf l = some ⟨l, h⟩ :=
  dif_pos h

/-- A page is its part of the directories and its part of the files, if these have summaries. -/
theorem pageOf_eq {dirEntries : List DiffEntry} {combined : List DiffFileNode}
    (hdirs : dirEntries.length < 2 ^ 63) (hfiles : combined.length < 2 ^ 63)
    (counts : AddRemoveModifyCounts) {pageSize i : ℕ} (hi : i * pageSize ≤ usizeMax) :
    ∃ pagination, pagination.totalEntries = dirEntries.length + combined.length ∧
      pageOf env baseCommit headCommit dirEntries combined counts (i + 1) pageSize =
        some (((filesPart dirEntries.length combined pageSize i).mapM
          (DiffEntry.fromFileNodes env baseCommit headCommit)).map fun fileEntries =>
            { entries := dirsPart dirEntries pageSize i ++ env.buffered fileEntries
              counts, pagination }) := by
  have hpage : (i + 1 - 1) * pageSize ≤ usizeMax := by rwa [Nat.add_sub_cancel]
  rcases paginateFiles_eq env.ceilQuotient (⟨dirEntries, hdirs⟩ : Slice DiffEntry)
    (⟨combined, hfiles⟩ : Slice DiffFileNode) hpage with ⟨pagination, hfilesPage, htotal⟩
  rcases paginateDirs_eq env.ceilQuotient (⟨dirEntries, hdirs⟩ : Slice DiffEntry)
    (⟨combined, hfiles⟩ : Slice DiffFileNode) hpage with ⟨pagination', hdirsPage⟩
  rw [Nat.add_sub_cancel] at hfilesPage hdirsPage
  refine ⟨pagination, htotal, ?_⟩
  rw [← filesPart] at hfilesPage
  rw [pageOf, sliceOf_eq hdirs, sliceOf_eq hfiles]
  simp only [Option.bind_eq_bind, Option.bind_some, hfilesPage]
  cases (filesPart dirEntries.length combined pageSize i).mapM
    (DiffEntry.fromFileNodes env baseCommit headCommit) with
  | error e => rfl
  | ok fileEntries =>
      simp only [hdirsPage, Option.bind_some]
      rfl

end

/-! ## All pages -/

/-- The pages from the first to the last that they count. -/
structure AllPages (list : ℕ → Option (Except DiffError DiffEntriesCounts)) (pageSize : ℕ)
    (pages : List DiffEntriesCounts) : Prop where
  ne_nil : pages ≠ []
  shown : ∀ i (h : i < pages.length), list (i + 1) = some (.ok pages[i])
  length : ∀ shown ∈ pages,
    pages.length = max 1 (shown.pagination.totalEntries ⌈/⌉ pageSize)

/-- The number of pages for so many entries, of which an empty listing has one. -/
def numPages (total pageSize : ℕ) : ℕ :=
  max 1 (total ⌈/⌉ pageSize)

theorem le_numPages_mul {total pageSize : ℕ} (hsize : 1 ≤ pageSize) :
    total ≤ numPages total pageSize * pageSize := by
  rw [Nat.mul_comm, ← ceilDiv_le_iff_le_mul hsize]
  exact le_max_right _ _

theorem mul_le_of_lt_numPages {total pageSize i : ℕ} (hsize : 1 ≤ pageSize)
    (hi : i < numPages total pageSize) : i * pageSize ≤ total := by
  rcases lt_max_iff.mp hi with hone | hlt
  · rw [Nat.lt_one_iff.mp hone, Nat.zero_mul]
    exact Nat.zero_le total
  · rw [← not_le, ceilDiv_le_iff_le_mul hsize, not_le, Nat.mul_comm] at hlt
    exact hlt.le

section

variable {env : DiffEnv} {baseCommit headCommit : CommitNode} {dirEntries : List DiffEntry}
  {combined : List DiffFileNode} {counts : AddRemoveModifyCounts} {pageSize : ℕ}
  {pages : List DiffEntriesCounts}

/-- The entries of one page whose files have summaries. -/
def pageEntries (env : DiffEnv) (baseCommit headCommit : CommitNode) (dirEntries : List DiffEntry)
    (combined : List DiffFileNode) (pageSize i : ℕ) : List DiffEntry :=
  dirsPart dirEntries pageSize i ++ env.buffered
    ((filesPart dirEntries.length combined pageSize i).map (shownEntry env baseCommit headCommit))

theorem mul_le_usizeMax (hdirs : dirEntries.length < 2 ^ 63) (hfiles : combined.length < 2 ^ 63)
    (hsize : 1 ≤ pageSize) {i : ℕ}
    (hi : i < numPages (dirEntries.length + combined.length) pageSize) :
    i * pageSize ≤ usizeMax :=
  (mul_le_of_lt_numPages hsize hi).trans
    (Slice.length_add_le (⟨dirEntries, hdirs⟩ : Slice DiffEntry)
      (⟨combined, hfiles⟩ : Slice DiffFileNode))

/-- The pages of a listing whose files have summaries. -/
theorem exists_allPages (hdirs : dirEntries.length < 2 ^ 63) (hfiles : combined.length < 2 ^ 63)
    (counts : AddRemoveModifyCounts) (hsize : 1 ≤ pageSize)
    (h : ∀ entry ∈ combined, Summarized env entry) :
    ∃ pages, AllPages (fun page => pageOf env baseCommit headCommit dirEntries combined counts
      page pageSize) pageSize pages := by
  have hpage : ∀ i, i < numPages (dirEntries.length + combined.length) pageSize →
      ∃ shown : DiffEntriesCounts,
        shown.pagination.totalEntries = dirEntries.length + combined.length ∧
        pageOf env baseCommit headCommit dirEntries combined counts (i + 1) pageSize =
          some (.ok shown) := by
    intro i hi
    rcases pageOf_eq hdirs hfiles counts (mul_le_usizeMax hdirs hfiles hsize hi) with
      ⟨pagination, htotal, heq⟩
    have hsub : ∀ entry ∈ filesPart dirEntries.length combined pageSize i,
        Summarized env entry := fun entry hentry =>
      h entry (List.mem_of_mem_drop (List.mem_of_mem_take hentry))
    rw [Runs.mapM_ok fun entry hentry => fromFileNodes_eq (hsub entry hentry)] at heq
    exact ⟨_, htotal, heq⟩
  have : Nonempty DiffEntriesCounts := ⟨{ entries := [], counts, pagination := ⟨0, 0, 0, 0⟩ }⟩
  choose! shown htotal hshown using hpage
  refine ⟨(List.range (numPages (dirEntries.length + combined.length) pageSize)).map shown,
    ?_, fun i hi => ?_, fun page hmem => ?_⟩
  · rw [ne_eq, List.map_eq_nil_iff, List.range_eq_nil]
    exact Nat.ne_of_gt (lt_of_lt_of_le Nat.one_pos (le_max_left _ _))
  · rw [List.length_map, List.length_range] at hi
    rw [List.getElem_map, List.getElem_range]
    exact hshown i hi
  · rcases List.mem_map.mp hmem with ⟨i, hi, rfl⟩
    rw [htotal i (List.mem_range.mp hi), List.length_map, List.length_range, numPages]

/-- What all pages are. -/
theorem AllPages.page (h : AllPages (fun page => pageOf env baseCommit headCommit dirEntries
      combined counts page pageSize) pageSize pages)
    (hdirs : dirEntries.length < 2 ^ 63) (hfiles : combined.length < 2 ^ 63)
    (hsize : 1 ≤ pageSize) :
    pages.length = numPages (dirEntries.length + combined.length) pageSize ∧
      ∀ i (hi : i < pages.length), pages[i].counts = counts ∧
        pages[i].entries = pageEntries env baseCommit headCommit dirEntries combined pageSize i ∧
        ∀ entry ∈ filesPart dirEntries.length combined pageSize i, Summarized env entry := by
  have hone : ∀ i (hi : i < pages.length), i * pageSize ≤ usizeMax →
      pages[i].pagination.totalEntries = dirEntries.length + combined.length ∧
      pages[i].counts = counts ∧
        pages[i].entries = pageEntries env baseCommit headCommit dirEntries combined pageSize i ∧
        ∀ entry ∈ filesPart dirEntries.length combined pageSize i, Summarized env entry := by
    intro i hi hbound
    rcases @pageOf_eq env baseCommit headCommit _ _ hdirs hfiles counts pageSize i hbound with
      ⟨pagination, htotal, heq⟩
    have hshown := heq.symm.trans (h.shown i hi)
    rcases hrun : (filesPart dirEntries.length combined pageSize i).mapM
        (DiffEntry.fromFileNodes env baseCommit headCommit) with e | fileEntries
    · rw [hrun] at hshown
      cases hshown
    · have hsummarized : ∀ entry ∈ filesPart dirEntries.length combined pageSize i,
          Summarized env entry := fun entry hentry => by
        rcases Runs.exists_ok_of_mapM_ok hrun entry hentry with ⟨x, hx⟩
        exact summarized_of_fromFileNodes hx
      rw [Runs.mapM_ok fun entry hentry => fromFileNodes_eq (hsummarized entry hentry)] at hrun
      obtain rfl := Except.ok.inj hrun
      rw [Runs.mapM_ok fun entry hentry => fromFileNodes_eq (hsummarized entry hentry)] at hshown
      rw [← Except.ok.inj (Option.some.inj hshown)]
      exact ⟨htotal, rfl, rfl, hsummarized⟩
  have hpos : 0 < pages.length := List.length_pos_iff.mpr h.ne_nil
  have hlength : pages.length = numPages (dirEntries.length + combined.length) pageSize := by
    rw [h.length pages[0] (List.getElem_mem hpos), numPages,
      (hone 0 hpos (by rw [Nat.zero_mul]; exact Nat.zero_le _)).1]
  refine ⟨hlength, fun i hi => (hone i hi ?_).2⟩
  exact mul_le_usizeMax hdirs hfiles hsize (hlength ▸ hi)

/-- All entries of all pages. -/
def allEntries (pages : List DiffEntriesCounts) : List DiffEntry :=
  pages.flatMap (·.entries)

theorem isDir_shownEntry (entry : DiffFileNode) :
    (shownEntry env baseCommit headCommit entry).isDir = false := rfl

/-- Taken together, the pages show the directories and the files. -/
theorem AllPages.entries (h : AllPages (fun page => pageOf env baseCommit headCommit dirEntries
      combined counts page pageSize) pageSize pages)
    (hdirs : dirEntries.length < 2 ^ 63) (hfiles : combined.length < 2 ^ 63)
    (hsize : 1 ≤ pageSize) (hisDir : ∀ e ∈ dirEntries, e.isDir = true) :
    (∀ shown ∈ pages, shown.counts = counts) ∧
      (∀ entry ∈ combined, Summarized env entry) ∧
      (∀ e, e ∈ allEntries pages ∧ e.isDir = true ↔ e ∈ dirEntries) ∧
      ((allEntries pages).filter fun e => !e.isDir).Perm
        (combined.map (shownEntry env baseCommit headCommit)) := by
  rcases h.page hdirs hfiles hsize with ⟨hlength, hpage⟩
  have hcover := @le_numPages_mul (dirEntries.length + combined.length) pageSize hsize
  rw [← hlength] at hcover
  have hall : allEntries pages = (List.range pages.length).flatMap
      (pageEntries env baseCommit headCommit dirEntries combined pageSize) := by
    rw [allEntries, List.flatMap_def, List.flatMap_def]
    refine congrArg List.flatten (List.ext_getElem ?_ fun i hi hi' => ?_)
    · rw [List.length_map, List.length_map, List.length_range]
    · rw [List.length_map] at hi
      rw [List.getElem_map, List.getElem_map, List.getElem_range]
      exact (hpage i hi).2.1
  have hfilesAll := @flatMap_filesPart _ combined dirEntries.length pageSize pages.length hcover
  have hdirsAll := @flatMap_dirsPart _ dirEntries pageSize pages.length (by omega)
  have hpartDir : ∀ i, ∀ e ∈ dirsPart dirEntries pageSize i, e.isDir = true := fun i e he =>
    hisDir e (List.mem_of_mem_drop (List.mem_of_mem_take he))
  have hpartFile : ∀ i, ∀ e ∈ env.buffered ((filesPart dirEntries.length combined pageSize i).map
      (shownEntry env baseCommit headCommit)), e.isDir = false := by
    intro i e he
    rcases List.mem_map.mp ((env.buffered_perm _).mem_iff.mp he) with ⟨entry, -, rfl⟩
    exact isDir_shownEntry entry
  refine ⟨fun shown hshown => ?_, fun entry hentry => ?_, fun e => ?_, ?_⟩
  · rcases List.getElem_of_mem hshown with ⟨i, hi, rfl⟩
    exact (hpage i hi).1
  · rw [← hfilesAll, List.mem_flatMap] at hentry
    rcases hentry with ⟨i, hi, hentry⟩
    exact (hpage i (List.mem_range.mp hi)).2.2 entry hentry
  · rw [hall, List.mem_flatMap]
    constructor
    · rintro ⟨⟨i, hi, he⟩, hdir⟩
      rcases List.mem_append.mp he with he | he
      · rw [← hdirsAll]
        exact List.mem_flatMap.mpr ⟨i, hi, he⟩
      · rw [hpartFile i e he] at hdir
        cases hdir
    · intro he
      refine ⟨?_, hisDir e he⟩
      rw [← hdirsAll, List.mem_flatMap] at he
      rcases he with ⟨i, hi, he⟩
      exact ⟨i, hi, List.mem_append_left _ he⟩
  · have hfilter : ∀ i, (pageEntries env baseCommit headCommit dirEntries combined pageSize
        i).filter (fun e => !e.isDir) = env.buffered
          ((filesPart dirEntries.length combined pageSize i).map
            (shownEntry env baseCommit headCommit)) := by
      intro i
      rw [pageEntries, List.filter_append, List.filter_eq_nil_iff.mpr, List.nil_append,
        List.filter_eq_self]
      · intro e he
        rw [hpartFile i e he]
        rfl
      · intro e he
        rw [hpartDir i e he]
        decide
    have hmap : combined.map (shownEntry env baseCommit headCommit) =
        (List.range pages.length).flatMap fun i =>
          (filesPart dirEntries.length combined pageSize i).map
            (shownEntry env baseCommit headCommit) := by
      rw [← List.map_flatMap, hfilesAll]
    rw [hall, List.filter_flatMap, hmap]
    refine List.Perm.flatMap_left _ fun i _ => ?_
    rw [hfilter]
    exact env.buffered_perm _

end

end Diff

end Oxen
