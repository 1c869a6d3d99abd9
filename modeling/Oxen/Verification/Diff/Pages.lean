import Oxen.Lib.Batches
import Oxen.Model.Paginate

/-! The pages of a listing of differences are the batches of its directories and files. -/

namespace Oxen

namespace Paginate

open Commits Batches

variable {α : Type} {ceilQuotient : ℕ → ℕ → ℕ} {dirs files : Slice α} {page pageSize : ℕ}

theorem add_of_le {a b : ℕ} (h : a + b ≤ usizeMax) : add a b = some (a + b) := by
  rw [add, if_pos h]

theorem sub_of_le {a b : ℕ} (h : b ≤ a) : sub a b = some (a - b) := by
  rw [sub, if_pos h]

/-- Up to so many elements from an index on. -/
theorem slice_min {l : List α} {start : ℕ} (h : start ≤ l.length) (n : ℕ) :
    slice l start (start + min n (l.length - start)) = some ((l.drop start).take n) := by
  rw [slice, if_pos ⟨Nat.le_add_right .., by omega⟩, Nat.add_sub_cancel_left, ← List.length_drop,
    ← List.take_eq_take_min]

theorem add_min {l : List α} (hl : l.length < 2 ^ 63) {start : ℕ} (h : start ≤ l.length)
    (n : ℕ) : add start (min n (l.length - start)) = some (start + min n (l.length - start)) := by
  apply add_of_le
  rw [usizeMax]
  omega

theorem startIndex_eq (h : (page - 1) * pageSize ≤ usizeMax) :
    startIndex page pageSize = some ((page - 1) * pageSize) := by
  unfold startIndex
  split
  · next hzero => simp [hzero, mul]
  · next hpos => simp [sub_of_le (Nat.one_le_iff_ne_zero.mpr hpos), mul, h]

/-- Two slices are indexed together by a `usize`. -/
theorem Slice.length_add_le {β : Type} (dirs : Slice α) (files : Slice β) :
    dirs.elems.length + files.elems.length ≤ usizeMax := by
  have hdirs := dirs.length_lt
  have hfiles := files.length_lt
  rw [usizeMax]
  omega

/-- What a page shows of the directories. -/
theorem paginateDirs_eq {β : Type} (ceilQuotient : ℕ → ℕ → ℕ) (dirs : Slice α) (files : Slice β)
    (h : (page - 1) * pageSize ≤ usizeMax) :
    ∃ pagination,
      paginateDirsAssumingFiles ceilQuotient dirs files.elems.length page pageSize =
        some ((dirs.elems.drop ((page - 1) * pageSize)).take pageSize, pagination) := by
  have htotal := Slice.length_add_le dirs files
  unfold paginateDirsAssumingFiles
  rw [add_of_le htotal, startIndex_eq h]
  generalize (page - 1) * pageSize = start
  simp only [Option.bind_eq_bind, Option.bind_some]
  split
  · next hpast =>
      rw [List.drop_of_length_le (by omega), List.take_nil]
      exact ⟨_, rfl⟩
  · have hA := min_le_right start dirs.elems.length
    have hdrop : dirs.elems.drop (min start dirs.elems.length) = dirs.elems.drop start := by
      rcases le_total start dirs.elems.length with h | h
      · rw [min_eq_left h]
      · rw [min_eq_right h, List.drop_length, List.drop_of_length_le h]
    simp only [sub_of_le hA, Option.bind_some, add_min dirs.length_lt hA, slice_min hA, hdrop]
    exact ⟨_, rfl⟩

/-- What a page shows of the files: what the directories leave room for. -/
theorem paginateFiles_eq {β : Type} (ceilQuotient : ℕ → ℕ → ℕ) (dirs : Slice α) (files : Slice β)
    (h : (page - 1) * pageSize ≤ usizeMax) :
    ∃ pagination,
      paginateFilesAssumingDirs ceilQuotient files dirs.elems.length page pageSize =
        some ((files.elems.drop ((page - 1) * pageSize - dirs.elems.length)).take
          (pageSize - (dirs.elems.length - (page - 1) * pageSize)), pagination) ∧
      pagination.totalEntries = dirs.elems.length + files.elems.length := by
  have htotal := Slice.length_add_le dirs files
  have hfiles := files.length_lt
  unfold paginateFilesAssumingDirs
  rw [add_of_le htotal, startIndex_eq h]
  generalize (page - 1) * pageSize = start
  simp only [Option.bind_eq_bind, Option.bind_some]
  split
  · next hpast =>
      rw [List.drop_of_length_le (by omega), List.take_nil]
      exact ⟨_, rfl, rfl⟩
  · next hwithin =>
      have hA := min_le_right start dirs.elems.length
      have hB : start - dirs.elems.length ≤ files.elems.length := by omega
      have hremaining : pageSize - min pageSize (dirs.elems.length -
          min start dirs.elems.length) = pageSize - (dirs.elems.length - start) := by omega
      simp only [sub_of_le hA, Option.bind_some, add_min dirs.length_lt hA,
        sub_of_le (Nat.le_add_right _ _), Nat.add_sub_cancel_left, sub_of_le (min_le_left _ _),
        hremaining]
      split
      · simp only [sub_of_le hB, Option.bind_some, add_min files.length_lt hB, slice_min hB]
        exact ⟨_, rfl, rfl⟩
      · next hfull =>
          rw [Nat.eq_zero_of_not_pos hfull, List.take_zero]
          exact ⟨_, rfl, rfl⟩

/-- A page shows one stretch of the directories followed by the files. -/
theorem combinedPage_eq (h : (page - 1) * pageSize ≤ usizeMax) :
    ∃ pagination, combinedPage ceilQuotient dirs files page pageSize =
      some (((dirs.elems ++ files.elems).drop ((page - 1) * pageSize)).take pageSize,
        pagination) := by
  rcases paginateFiles_eq ceilQuotient dirs files h with ⟨pagination, hfiles, -⟩
  rcases paginateDirs_eq ceilQuotient dirs files h with ⟨pagination', hdirs⟩
  refine ⟨pagination, ?_⟩
  rw [List.drop_append, List.take_append, List.length_drop, combinedPage, hfiles]
  simp only [Option.bind_eq_bind, Option.bind_some, hdirs]
  rfl

/-- No page is out of range, and the pages taken together are the directories followed by
the files, all of them full but the last. -/
theorem combinedPages_complete (ceilQuotient : ℕ → ℕ → ℕ) (dirs files : Slice α)
    (hsize : 1 ≤ pageSize) :
    (∀ page, (page - 1) * pageSize ≤ usizeMax →
      (combinedPage ceilQuotient dirs files page pageSize).isSome) ∧
    ∃ pages : List (List α),
      pages.length = (dirs.elems.length + files.elems.length) ⌈/⌉ pageSize ∧
      (∀ i < pages.length,
        (combinedPage ceilQuotient dirs files (i + 1) pageSize).map Prod.fst = pages[i]?) ∧
      pages.flatten = dirs.elems ++ files.elems ∧
      ∀ shown ∈ pages.dropLast, shown.length = pageSize := by
  constructor
  · intro page hpage
    rcases combinedPage_eq hpage with ⟨pagination, h⟩
    rw [h, Option.isSome_some]
  · have hlength : (split pageSize (dirs.elems ++ files.elems)).length =
        (dirs.elems.length + files.elems.length) ⌈/⌉ pageSize := by
      rw [length_split hsize, List.length_append]
    refine ⟨split pageSize (dirs.elems ++ files.elems), hlength, fun i hi => ?_,
      flatten_split hsize _, fun shown hshown => length_of_mem_dropLast_split hsize hshown⟩
    have hsome := getElem?_split hsize (dirs.elems ++ files.elems) i
    have htotal := Slice.length_add_le dirs files
    have hwithin : i * pageSize < (dirs.elems ++ files.elems).length := by
      by_contra hnot
      rw [if_neg hnot, List.getElem?_eq_none_iff] at hsome
      omega
    rw [List.length_append] at hwithin
    have hpage : (i + 1 - 1) * pageSize ≤ usizeMax := by
      rw [Nat.add_sub_cancel]
      omega
    rcases combinedPage_eq hpage with ⟨pagination, h⟩
    rw [h, hsome, if_pos (by rwa [List.length_append]), Nat.add_sub_cancel, Option.map_some]

theorem combinedPages_complete_three :
    (combinedPage (· ⌈/⌉ ·) ⟨["train"], by decide⟩ ⟨["a.csv", "b.csv"], by decide⟩ 2 2).isSome ∧
      ∃ pages : List (List String), pages.length = 2 ∧
        pages.flatten = ["train"] ++ ["a.csv", "b.csv"] := by
  rcases combinedPages_complete (· ⌈/⌉ ·) ⟨["train"], by decide⟩ ⟨["a.csv", "b.csv"], by decide⟩
    (show 1 ≤ 2 by decide) with ⟨hsome, pages, hlength, -, hflatten, -⟩
  exact ⟨hsome 2 (by decide), pages, hlength, hflatten⟩

end Paginate

end Oxen
