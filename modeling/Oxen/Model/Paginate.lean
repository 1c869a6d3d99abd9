import Oxen.Model.CommitHistory

/-! Pages over a list of directories followed by a list of files. Arithmetic that leaves the
range of a `usize`, and an index out of range, are no result. -/

namespace Oxen

/-- Elements in memory, which are never more than `isize::MAX`. -/
structure Slice (α : Type) where
  elems : List α
  length_lt : elems.length < 2 ^ 63

structure Pagination where
  pageSize : ℕ
  pageNumber : ℕ
  totalPages : ℕ
  totalEntries : ℕ
deriving DecidableEq, Repr

namespace Paginate

open Commits (usizeMax)

def add (a b : ℕ) : Option ℕ :=
  if a + b ≤ usizeMax then some (a + b) else none

def sub (a b : ℕ) : Option ℕ :=
  if b ≤ a then some (a - b) else none

def mul (a b : ℕ) : Option ℕ :=
  if a * b ≤ usizeMax then some (a * b) else none

/-- `l[start..end]`. -/
def slice {α : Type} (l : List α) (start stop : ℕ) : Option (List α) :=
  if start ≤ stop ∧ stop ≤ l.length then some ((l.drop start).take (stop - start)) else none

def startIndex (pageNumber pageSize : ℕ) : Option ℕ :=
  if pageNumber = 0 then mul pageNumber pageSize
  else do
    let before ← sub pageNumber 1
    mul before pageSize

-- The quotient of two numbers as floating-point numbers, rounded up.
variable {α : Type} (ceilQuotient : ℕ → ℕ → ℕ)

def paginateDirsAssumingFiles (dirs : Slice α) (numFiles pageNumber pageSize : ℕ) :
    Option (List α × Pagination) := do
  let totalEntries ← add dirs.elems.length numFiles
  let startIdx ← startIndex pageNumber pageSize
  let totalPages := ceilQuotient totalEntries pageSize
  if startIdx ≥ totalEntries then
    return ([], { pageSize := 0, pageNumber, totalPages, totalEntries })
  let startA := min startIdx dirs.elems.length
  let room ← sub dirs.elems.length startA
  let endA ← add startA (min pageSize room)
  let result ← slice dirs.elems startA endA
  return (result, { pageSize, pageNumber, totalPages, totalEntries })

def paginateFilesAssumingDirs (files : Slice α) (numDirs pageNumber pageSize : ℕ) :
    Option (List α × Pagination) := do
  let totalEntries ← add numDirs files.elems.length
  let startIdx ← startIndex pageNumber pageSize
  let totalPages := ceilQuotient totalEntries pageSize
  if startIdx ≥ totalEntries then
    return ([], { pageSize := 0, pageNumber, totalPages, totalEntries })
  let startA := min startIdx numDirs
  let room ← sub numDirs startA
  let endA ← add startA (min pageSize room)
  let taken ← sub endA startA
  let remainingSpace ← sub pageSize taken
  let result ←
    if remainingSpace > 0 then do
      let startB := startIdx - numDirs
      let left ← sub files.elems.length startB
      let endB ← add startB (min remainingSpace left)
      slice files.elems startB endB
    else pure []
  return (result, { pageSize, pageNumber, totalPages, totalEntries })

/-- The page of a list of directories and files as a listing of differences shows it. -/
def combinedPage (dirs files : Slice α) (page pageSize : ℕ) :
    Option (List α × Pagination) := do
  let (fileEntries, pagination) ←
    paginateFilesAssumingDirs ceilQuotient files dirs.elems.length page pageSize
  let (dirEntries, _) ← paginateDirsAssumingFiles ceilQuotient dirs files.elems.length page pageSize
  return (dirEntries ++ fileEntries, pagination)

end Paginate

end Oxen
