import Mathlib.Data.String.Basic

/-! The line diff of two texts: the changes of a changeset with the lines around them. -/

namespace Oxen

/-- A block of a changeset. -/
inductive Difference where
  | same (text : String)
  | add (text : String)
  | rem (text : String)
deriving DecidableEq, Repr

inductive ChangeType where
  | added
  | removed
  | modified
  | unchanged
deriving DecidableEq, Repr

structure LineDiff where
  modification : ChangeType
  text : String
  /-- The block of the line and its place there, which the code does not keep. -/
  origin : Option (ℕ × ℕ) := none
deriving DecidableEq, Repr

structure TextDiff where
  lines : List LineDiff := []
  filename1 : Option String := none
  filename2 : Option String := none
deriving DecidableEq, Repr

def Difference.isChange : Difference → Bool
  | same _ => false
  | add _ | rem _ => true

namespace Utf8Diff

def splitLines (text : String) : List String :=
  (text.toList.splitOn '\n').map String.ofList

/-- An index that is cast to an integer of 32 bits. -/
def asI32 (i : ℕ) : ℤ :=
  Int.bmod i (2 ^ 32)

def addLinesToDiff (result : TextDiff) (block : ℕ) (textBlock : String) (modification : ChangeType)
    (linesToTake : Option (ℕ × ℕ)) : TextDiff :=
  let lines := splitLines textBlock
  let (start, stop) := linesToTake.getD (0, lines.length)
  let start := min start lines.length
  let stop := min stop lines.length
  if start ≥ stop then result
  else
    { result with
      lines := result.lines ++ ((lines.zipIdx.take stop).drop start).map fun (text, place) =>
        { modification, text, origin := some (block, place) } }

def changeIndices (diffs : List Difference) : List ℕ :=
  (diffs.zipIdx.filter fun (d, _) => d.isChange).map fun (_, i) => i

/-- What the loop over the changes carries from chunk to chunk. -/
structure DiffState where
  result : TextDiff
  /-- Kept as an integer of 32 bits. -/
  lastProcessedDiffIdx : ℤ := -1
  postContextLinesFromPrevChunk : ℕ := 0
  isFirstChunk : Bool := true

def separator : LineDiff where
  modification := .unchanged
  text := "..."

/-- Adds the blocks up to the next unchanged one, and says where that is. -/
def addChanges (s : DiffState) : List Difference → ℕ → DiffState × ℕ
  | .add text :: diffs, currentIdx =>
      addChanges { s with
        result := addLinesToDiff s.result currentIdx text .added none
        lastProcessedDiffIdx := asI32 currentIdx } diffs (currentIdx + 1)
  | .rem text :: diffs, currentIdx =>
      addChanges { s with
        result := addLinesToDiff s.result currentIdx text .removed none
        lastProcessedDiffIdx := asI32 currentIdx } diffs (currentIdx + 1)
  | .same _ :: _, currentIdx | [], currentIdx => (s, currentIdx)

def addPreContext (diffs : List Difference) (s : DiffState) (changeIdx : ℕ) : TextDiff :=
  let result :=
    if s.isFirstChunk then s.result
    else { s.result with lines := s.result.lines ++ [separator] }
  let contextDiffIdx := changeIdx - 1
  let preContextLinesToSkip :=
    if asI32 contextDiffIdx = s.lastProcessedDiffIdx then s.postContextLinesFromPrevChunk else 0
  match diffs[contextDiffIdx]? with
  | some (.same text) =>
      if 0 < changeIdx then
        let numLines := (splitLines text).length
        addLinesToDiff result contextDiffIdx text .unchanged
          (some (max (numLines - 3) preContextLinesToSkip, numLines))
      else result
  | _ => result

/-- One change, unless a chunk has it already. -/
def addChunk (diffs : List Difference) (s : DiffState) (changeIdx : ℕ) : DiffState :=
  if asI32 changeIdx ≤ s.lastProcessedDiffIdx then s
  else
    let (s, currentIdx) :=
      addChanges
        { result := addPreContext diffs s changeIdx
          lastProcessedDiffIdx := s.lastProcessedDiffIdx
          isFirstChunk := false }
        (diffs.drop changeIdx) changeIdx
    match diffs[currentIdx]? with
    | some (.same text) =>
        let count := min 2 (splitLines text).length
        { s with
          result := addLinesToDiff s.result currentIdx text .unchanged (some (0, count))
          lastProcessedDiffIdx := asI32 currentIdx
          postContextLinesFromPrevChunk := count }
    | _ => s

-- The changeset of two texts, split at a separator.
variable (changeset : String → String → String → List Difference)

def diff (originalData versionFile1 compareData versionFile2 : Option String) : TextDiff :=
  let result : TextDiff := { filename1 := versionFile1, filename2 := versionFile2 }
  let diffs := changeset (originalData.getD "") (compareData.getD "") "\n"
  if changeIndices diffs = [] then result
  else ((changeIndices diffs).foldl (addChunk diffs) { result }).result

end Utf8Diff

end Oxen
