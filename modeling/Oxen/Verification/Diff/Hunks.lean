import Mathlib.Data.List.Nodup
import Mathlib.Data.List.TakeWhile
import Oxen.Lib.Occurrences
import Oxen.Model.TextDiff

/-! What the text diff shows: every change once, in chunks with the lines next to them, unless
indices are mistaken for others when they are cast. -/

namespace Oxen

/-! ## Chunks -/

namespace Difference

def text : Difference → String
  | same text | add text | rem text => text

def lines (d : Difference) : List String :=
  Utf8Diff.splitLines d.text

def changeType : Difference → ChangeType
  | same _ => .unchanged
  | add _ => .added
  | rem _ => .removed

/-- The lines of the block at an index as the diff shows them. -/
def shown (d : Difference) (block : ℕ) : List LineDiff :=
  d.lines.zipIdx.map fun (text, place) =>
    { modification := d.changeType, text, origin := some (block, place) }

end Difference

namespace Utf8Diff

/-- The lines of a text: what stands before, between and after its line feeds. -/
def LinesOf (text : String) (lines : List String) : Prop :=
  Occurrences.Separated '\n' text.toList (lines.map String.toList)

def IsChange (diffs : List Difference) (i : ℕ) : Prop :=
  ∃ d, diffs[i]? = some d ∧ d.isChange = true

/-- The lines of a changed block; a place without one has no lines. -/
def changeLines (diffs : List Difference) (i : ℕ) : List LineDiff :=
  match diffs[i]? with
  | some d => if d.isChange then d.shown i else []
  | none => []

/-- The lines of an unchanged block; a place without one has no lines. -/
def sameLines (diffs : List Difference) (i : ℕ) : List LineDiff :=
  match diffs[i]? with
  | some d => if d.isChange then [] else d.shown i
  | none => []

/-- The changes of the blocks from `first` up to `stop`, with the lines from `start` on of
the block before them and the first `count` lines of the block after them. -/
structure Hunk where
  first : ℕ
  stop : ℕ
  start : ℕ
  count : ℕ

namespace Hunk

variable (diffs : List Difference) (h : Hunk)

def leading : List LineDiff :=
  (sameLines diffs (h.first - 1)).drop h.start

def trailing : List LineDiff :=
  (sameLines diffs h.stop).take h.count

def lines : List LineDiff :=
  h.leading diffs ++ (List.range' h.first (h.stop - h.first)).flatMap (changeLines diffs) ++
    h.trailing diffs

def context : List LineDiff :=
  h.leading diffs ++ h.trailing diffs

structure WellFormed : Prop where
  first_lt : h.first < h.stop
  stop_le : h.stop ≤ diffs.length
  isChange : ∀ i, h.first ≤ i → i < h.stop → IsChange diffs i
  leading_le : (h.leading diffs).length ≤ 3
  trailing_le : (h.trailing diffs).length ≤ 2

end Hunk

/-- The changed lines of the blocks up to an index, in their order. -/
def changedUpTo (diffs : List Difference) (n : ℕ) : List LineDiff :=
  (List.range n).flatMap (changeLines diffs)

/-- Lines that are chunks with separators between them. Every changed line is shown, in order, and no
line twice. -/
structure Shows (diffs : List Difference) (hunks : List Hunk) (lines : List LineDiff) : Prop where
  lines_eq : lines = [separator].intercalate (hunks.map (Hunk.lines diffs))
  wellFormed : ∀ h ∈ hunks, h.WellFormed diffs
  nodup : (hunks.flatMap (Hunk.context diffs)).Nodup
  changed_eq : lines.filter (·.modification ≠ .unchanged) = changedUpTo diffs diffs.length

/-- The lines of the blocks are those of their texts, they are shown in chunks, and none are shown
only if nothing is changed. -/
structure ShowsChanges (diffs : List Difference) (lines : List LineDiff) : Prop where
  linesOf : ∀ d ∈ diffs, LinesOf d.text d.lines
  shows : ∃ hunks, Shows diffs hunks lines
  eq_nil_iff : lines = [] ↔ ∀ d ∈ diffs, d.isChange = false

/-! ## Single blocks -/

variable {diffs : List Difference} {i c n p : ℕ}

theorem linesOf_splitLines (text : String) : LinesOf text (splitLines text) := by
  have hlines : (splitLines text).map String.toList = text.toList.splitOn '\n' := by
    rw [splitLines, List.map_map]
    exact List.map_id'' (fun _ => String.toList_ofList) _
  rw [LinesOf, hlines]
  exact Occurrences.separated_splitOn '\n' text.toList

theorem splitLines_ne_nil (text : String) : splitLines text ≠ [] := by
  rw [splitLines, ne_eq, List.map_eq_nil_iff]
  exact List.splitOn_ne_nil _ _

theorem length_shown (d : Difference) (block : ℕ) : (d.shown block).length = d.lines.length := by
  rw [Difference.shown, List.length_map, List.length_zipIdx]

theorem addLinesToDiff_some (result : TextDiff) (block : ℕ) (text : String)
    (modification : ChangeType) (start stop : ℕ) :
    addLinesToDiff result block text modification (some (start, stop)) = { result with
      lines := result.lines ++
        (((splitLines text).zipIdx.take stop).drop start).map fun (text, place) =>
          { modification, text, origin := some (block, place) } } := by
  have htake : (splitLines text).zipIdx.take (min stop (splitLines text).length) =
      (splitLines text).zipIdx.take stop := by
    rw [List.take_eq_take_iff, List.length_zipIdx]
    omega
  rw [addLinesToDiff, Option.getD_some]
  simp only [htake]
  split
  · next hge =>
    have hnil : ((splitLines text).zipIdx.take stop).drop start = [] := by
      rw [List.drop_eq_nil_iff, List.length_take, List.length_zipIdx]
      omega
    rw [hnil, List.map_nil, List.append_nil]
  · next hlt =>
    have hdrop : min start (splitLines text).length = start := by omega
    rw [hdrop]

theorem addLinesToDiff_none (result : TextDiff) (block : ℕ) (text : String)
    (modification : ChangeType) :
    addLinesToDiff result block text modification none = { result with
      lines := result.lines ++ (splitLines text).zipIdx.map fun (text, place) =>
        { modification, text, origin := some (block, place) } } := by
  have hsome := addLinesToDiff_some result block text modification 0 (splitLines text).length
  rw [List.take_of_length_le (by rw [List.length_zipIdx]), List.drop_zero] at hsome
  exact hsome

theorem changeLines_eq {d : Difference} (hd : diffs[i]? = some d) (hchange : d.isChange = true) :
    changeLines diffs i = d.shown i := by
  simp [changeLines, hd, hchange]

theorem sameLines_eq {text : String} (hd : diffs[i]? = some (.same text)) :
    sameLines diffs i = (Difference.same text).shown i := by
  simp [sameLines, hd, Difference.isChange]

theorem changeLines_of_not_isChange (h : ¬ IsChange diffs i) : changeLines diffs i = [] := by
  unfold changeLines
  split
  · next d hd => rw [if_neg fun hchange => h ⟨d, hd, hchange⟩]
  · rfl

theorem length_sameLines {text : String} (h : diffs[i]? = some (.same text)) :
    (sameLines diffs i).length = (splitLines text).length := by
  rw [sameLines_eq h, length_shown]
  rfl

theorem origin_of_getElem? {d : Difference} {block place : ℕ} {line : LineDiff}
    (h : (d.shown block)[place]? = some line) :
    line.origin = some (block, place) ∧ line.modification = d.changeType := by
  rw [Difference.shown, List.getElem?_map, List.getElem?_zipIdx] at h
  rcases Option.map_eq_some_iff.mp h with ⟨pair, hpair, rfl⟩
  rcases Option.map_eq_some_iff.mp hpair with ⟨text, -, rfl⟩
  simp

/-- A line of an unchanged block, with its place. -/
theorem sameLines_getElem? {place : ℕ} {line : LineDiff}
    (h : (sameLines diffs i)[place]? = some line) :
    line.origin = some (i, place) ∧ line.modification = .unchanged := by
  unfold sameLines at h
  split at h
  · next d hd =>
    split at h
    · cases h
    · next hchange =>
      cases d with
      | same text => exact origin_of_getElem? h
      | add text => exact absurd rfl hchange
      | rem text => exact absurd rfl hchange
  · cases h

/-- A line of a changed block, with its place. -/
theorem changeLines_getElem? {place : ℕ} {line : LineDiff}
    (h : (changeLines diffs i)[place]? = some line) :
    line.origin = some (i, place) ∧ line.modification ≠ .unchanged := by
  unfold changeLines at h
  split at h
  · next d hd =>
    split at h
    · next hchange =>
      have hline := origin_of_getElem? h
      cases d with
      | same text => cases hchange
      | add text => exact ⟨hline.1, by rw [hline.2]; exact ChangeType.noConfusion⟩
      | rem text => exact ⟨hline.1, by rw [hline.2]; exact ChangeType.noConfusion⟩
    · cases h
  · cases h

theorem origin_of_mem_changeLines {line : LineDiff} (h : line ∈ changeLines diffs i) :
    ∃ place, line.origin = some (i, place) := by
  rcases List.mem_iff_getElem?.mp h with ⟨place, hplace⟩
  exact ⟨place, (changeLines_getElem? hplace).1⟩

theorem nodup_of_origin {l : List LineDiff}
    (h : ∀ (place : ℕ) (line : LineDiff), l[place]? = some line → line.origin = some (i, place)) :
    l.Nodup := by
  rw [List.nodup_iff_getElem?_ne_getElem?]
  intro j k hjk hk heq
  have hline := List.getElem?_eq_getElem hk
  have hj := h j _ (heq.trans hline)
  rw [h k _ hline] at hj
  have hsame := congrArg Prod.snd (Option.some.inj hj)
  have hkj : k = j := hsame
  omega

theorem exists_mem_changeLines (h : IsChange diffs i) : ∃ line, line ∈ changeLines diffs i := by
  rcases h with ⟨d, hd, hchange⟩
  have hpos : 0 < (d.shown i).length := by
    rw [length_shown]
    exact List.length_pos_iff.mpr (splitLines_ne_nil d.text)
  rw [changeLines_eq hd hchange]
  exact ⟨(d.shown i)[0], List.getElem_mem hpos⟩

/-! ## Runs of changes -/

/-- The number of changes from a place on, up to the next unchanged block. -/
def runLength (diffs : List Difference) (i : ℕ) : ℕ :=
  ((diffs.drop i).takeWhile Difference.isChange).length

theorem runLength_of_isChange (h : IsChange diffs i) :
    runLength diffs i = runLength diffs (i + 1) + 1 := by
  rcases h with ⟨d, hd, hchange⟩
  rcases List.getElem?_eq_some_iff.mp hd with ⟨hlt, rfl⟩
  rw [runLength, List.drop_eq_getElem_cons hlt, List.takeWhile_cons_of_pos hchange,
    List.length_cons, runLength]

theorem runLength_of_not_isChange (h : ¬ IsChange diffs i) : runLength diffs i = 0 := by
  rw [runLength]
  by_cases hlt : i < diffs.length
  · rw [List.drop_eq_getElem_cons hlt, List.takeWhile_cons_of_neg]
    · rfl
    · exact fun hchange => h ⟨_, List.getElem?_eq_getElem hlt, hchange⟩
  · rw [List.drop_eq_nil_of_le (Nat.not_lt.mp hlt)]
    rfl

theorem runLength_pos (h : IsChange diffs i) : 0 < runLength diffs i := by
  rw [runLength_of_isChange h]
  exact Nat.succ_pos _

theorem lt_length_of_isChange (h : IsChange diffs i) : i < diffs.length := by
  rcases h with ⟨d, hd, -⟩
  exact (List.getElem?_eq_some_iff.mp hd).1

theorem stop_le (h : i ≤ diffs.length) : i + runLength diffs i ≤ diffs.length := by
  have hle := (List.takeWhile_prefix (l := diffs.drop i) Difference.isChange).length_le
  rw [List.length_drop] at hle
  rw [runLength]
  omega

/-- A run ends where one ends that starts within it. -/
theorem stop_eq (k : ℕ) (h : ∀ j, i ≤ j → j < i + k → IsChange diffs j) :
    i + k + runLength diffs (i + k) = i + runLength diffs i := by
  induction k with
  | zero => rfl
  | succ k ih =>
      have hprev := ih fun j hj hlt => h j hj (by omega)
      rw [runLength_of_isChange (h (i + k) (by omega) (by omega))] at hprev
      rw [← hprev, Nat.add_assoc i k 1]
      omega

theorem isChange_of_runLength_pos (h : 0 < runLength diffs i) : IsChange diffs i := by
  by_contra hnot
  rw [runLength_of_not_isChange hnot] at h
  exact Nat.lt_irrefl 0 h

/-- The blocks of a run are changes. -/
theorem isChange_of_lt_runLength (k : ℕ) (hk : k < runLength diffs i) : IsChange diffs (i + k) := by
  induction k generalizing i with
  | zero => exact isChange_of_runLength_pos hk
  | succ k ih =>
      have hlength := runLength_of_isChange (isChange_of_runLength_pos (Nat.zero_lt_of_lt hk))
      have hrest := @ih (i + 1) (by omega)
      rwa [Nat.add_right_comm, Nat.add_assoc] at hrest

theorem isChange_of_lt_stop (hi : i ≤ n) (hn : n < i + runLength diffs i) : IsChange diffs n := by
  have hchange := @isChange_of_lt_runLength diffs i (n - i) (by omega)
  rwa [Nat.add_sub_of_le hi] at hchange

/-- After a run comes an unchanged block, or nothing. -/
theorem not_isChange_stop : ¬ IsChange diffs (i + runLength diffs i) := by
  intro hchange
  have hstop := @stop_eq diffs i (runLength diffs i) fun j hj hlt => isChange_of_lt_stop hj hlt
  have hpos := runLength_pos hchange
  omega

theorem exists_same_of_stop {d : Difference} (hd : diffs[i + runLength diffs i]? = some d) :
    ∃ text, d = .same text := by
  cases d with
  | same text => exact ⟨text, rfl⟩
  | add text => exact absurd ⟨_, hd, rfl⟩ not_isChange_stop
  | rem text => exact absurd ⟨_, hd, rfl⟩ not_isChange_stop

/-- The last block that the chunk at a change goes through: the one after the changes, or the last of
them if none comes after. -/
def chunkEnd (diffs : List Difference) (i : ℕ) : ℕ :=
  if i + runLength diffs i < diffs.length then i + runLength diffs i
  else i + runLength diffs i - 1

/-- As they are cast, the first of adjacent changes comes behind the end of the chunk before, and the
others do not come behind the end of theirs. -/
structure InOrder (diffs : List Difference) : Prop where
  first : ∀ c, IsChange diffs c → (∀ i < c, ¬ IsChange diffs i) → -1 < asI32 c
  next : ∀ p c, IsChange diffs p → p + 1 < c → IsChange diffs c →
    (∀ i, p < i → i < c → ¬ IsChange diffs i) → asI32 (p + 1) < asI32 c
  inner : ∀ c, IsChange diffs c → IsChange diffs (c + 1) →
    asI32 (c + 1) ≤ asI32 (chunkEnd diffs (c + 1))

/-! ## One chunk -/

theorem addChanges_eq (s : DiffState) (l : List Difference) (i : ℕ) (hl : diffs.drop i = l) :
    addChanges s l i =
      ({ s with
          result := { s.result with
            lines := s.result.lines ++
              (List.range' i (runLength diffs i)).flatMap (changeLines diffs) }
          lastProcessedDiffIdx :=
            if runLength diffs i = 0 then s.lastProcessedDiffIdx
            else asI32 (i + runLength diffs i - 1) },
        i + runLength diffs i) := by
  induction l generalizing s i with
  | nil =>
      have hzero : runLength diffs i = 0 := by rw [runLength, hl]; rfl
      simp [addChanges, hzero]
  | cons d l ih =>
      have hd : diffs[i]? = some d := by rw [← List.head?_drop, hl, List.head?_cons]
      have hnext : diffs.drop (i + 1) = l := by rw [← List.tail_drop, hl, List.tail_cons]
      cases d with
      | same text =>
          have hzero : runLength diffs i = 0 := by rw [runLength, hl]; rfl
          simp [addChanges, hzero]
      | add text =>
          have hlines := changeLines_eq hd rfl
          have hrun := runLength_of_isChange ⟨_, hd, rfl⟩
          rw [addChanges, ih _ _ hnext, addLinesToDiff_none, hrun, List.range'_succ,
            List.flatMap_cons, hlines]
          refine Prod.ext ?_ (by show i + 1 + _ = _; omega)
          by_cases hzero : runLength diffs (i + 1) = 0
          · simp [hzero, Difference.shown, Difference.lines, Difference.text, Difference.changeType]
          · have hlast : i + 1 + runLength diffs (i + 1) - 1 = i + (runLength diffs (i + 1) + 1) - 1 := by
              omega
            simp [hzero, hlast, Difference.shown, Difference.lines, Difference.text,
              Difference.changeType]
      | rem text =>
          have hlines := changeLines_eq hd rfl
          have hrun := runLength_of_isChange ⟨_, hd, rfl⟩
          rw [addChanges, ih _ _ hnext, addLinesToDiff_none, hrun, List.range'_succ,
            List.flatMap_cons, hlines]
          refine Prod.ext ?_ (by show i + 1 + _ = _; omega)
          by_cases hzero : runLength diffs (i + 1) = 0
          · simp [hzero, Difference.shown, Difference.lines, Difference.text, Difference.changeType]
          · have hlast : i + 1 + runLength diffs (i + 1) - 1 = i + (runLength diffs (i + 1) + 1) - 1 := by
              omega
            simp [hzero, hlast, Difference.shown, Difference.lines, Difference.text,
              Difference.changeType]

/-- The line that the chunk at a change starts with in the block before it. -/
def startLine (diffs : List Difference) (s : DiffState) (changeIdx : ℕ) : ℕ :=
  max ((sameLines diffs (changeIdx - 1)).length - 3)
    (if asI32 (changeIdx - 1) = s.lastProcessedDiffIdx then s.postContextLinesFromPrevChunk else 0)

theorem addPreContext_eq (s : DiffState) (hc : IsChange diffs c) :
    addPreContext diffs s c = { s.result with
      lines := s.result.lines ++ (if s.isFirstChunk then [] else [separator]) ++
        (sameLines diffs (c - 1)).drop (startLine diffs s c) } := by
  have hfirst : (if s.isFirstChunk then s.result
      else { s.result with lines := s.result.lines ++ [separator] }) = { s.result with
        lines := s.result.lines ++ (if s.isFirstChunk then [] else [separator]) } := by
    split <;> simp
  rw [addPreContext, hfirst]
  cases hprev : diffs[c - 1]? with
  | none => simp [sameLines, hprev]
  | some prev =>
      cases prev with
      | add text => simp [sameLines, hprev, Difference.isChange]
      | rem text => simp [sameLines, hprev, Difference.isChange]
      | same text =>
          have hpos : 0 < c := by
            rcases Nat.eq_zero_or_pos c with rfl | hpos
            · rcases hc with ⟨d, hd, hchange⟩
              rw [hd] at hprev
              cases hprev
              cases hchange
            · exact hpos
          have htake : (splitLines text).zipIdx.take (splitLines text).length =
              (splitLines text).zipIdx := List.take_of_length_le (by rw [List.length_zipIdx])
          simp only [hpos, if_true, addLinesToDiff_some, htake, startLine, length_sameLines hprev]
          rw [sameLines_eq hprev, Difference.shown, ← List.map_drop]
          rfl

/-- The chunk at a change. -/
def hunkAt (diffs : List Difference) (s : DiffState) (changeIdx : ℕ) : Hunk where
  first := changeIdx
  stop := changeIdx + runLength diffs changeIdx
  start := startLine diffs s changeIdx
  count := 2

theorem addChunk_eq (s : DiffState) (hc : IsChange diffs c)
    (hlast : s.lastProcessedDiffIdx < asI32 c) :
    addChunk diffs s c =
      { result := { s.result with
          lines := s.result.lines ++ (if s.isFirstChunk then [] else [separator]) ++
            (hunkAt diffs s c).lines diffs }
        lastProcessedDiffIdx := asI32 (chunkEnd diffs c)
        postContextLinesFromPrevChunk :=
          min 2 (sameLines diffs (c + runLength diffs c)).length
        isFirstChunk := false } := by
  have hne : runLength diffs c ≠ 0 := (runLength_pos hc).ne'
  have hlines : (hunkAt diffs s c).lines diffs =
      (sameLines diffs (c - 1)).drop (startLine diffs s c) ++
        (List.range' c (runLength diffs c)).flatMap (changeLines diffs) ++
        (sameLines diffs (c + runLength diffs c)).take 2 := by
    rw [Hunk.lines, hunkAt, Nat.add_sub_cancel_left]
    rfl
  rw [addChunk, if_neg (by omega), addPreContext_eq s hc, addChanges_eq _ _ _ rfl, if_neg hne,
    hlines, chunkEnd]
  dsimp only
  cases hstop : diffs[c + runLength diffs c]? with
  | none =>
      have hge : ¬c + runLength diffs c < diffs.length :=
        Nat.not_lt.mpr (List.getElem?_eq_none_iff.mp hstop)
      simp [sameLines, hge]
  | some next =>
      rcases exists_same_of_stop hstop with ⟨text, rfl⟩
      have hlt : c + runLength diffs c < diffs.length := (List.getElem?_eq_some_iff.mp hstop).1
      have htake : (splitLines text).zipIdx.take (min 2 (splitLines text).length) =
          (splitLines text).zipIdx.take 2 := by
        rw [List.take_eq_take_iff, List.length_zipIdx]
        omega
      simp only [hlt, if_true, addLinesToDiff_some, List.drop_zero, htake, length_sameLines hstop]
      rw [sameLines_eq hstop, Difference.shown, ← List.map_take]
      simp only [List.append_assoc]
      rfl

theorem addChunk_of_le (s : DiffState) (hlast : asI32 c ≤ s.lastProcessedDiffIdx) :
    addChunk diffs s c = s :=
  if_pos hlast

theorem mem_context_hunkAt {s : DiffState} {line : LineDiff}
    (h : line ∈ (hunkAt diffs s n).context diffs) :
    (∃ j, line.origin = some (n - 1, j) ∧ startLine diffs s n ≤ j ∧
        j < (sameLines diffs (n - 1)).length) ∨
      ∃ j, line.origin = some (n + runLength diffs n, j) ∧
        j < min 2 (sameLines diffs (n + runLength diffs n)).length := by
  rcases List.mem_append.mp h with h | h
  · rcases List.mem_iff_getElem?.mp h with ⟨k, hk⟩
    rw [Hunk.leading, List.getElem?_drop] at hk
    have hlt := (List.getElem?_eq_some_iff.mp hk).1
    exact .inl ⟨_, (sameLines_getElem? hk).1, Nat.le_add_right _ _, hlt⟩
  · rcases List.mem_iff_getElem?.mp h with ⟨k, hk⟩
    have hlt := (List.getElem?_eq_some_iff.mp hk).1
    rw [Hunk.trailing, List.length_take] at hlt
    rw [Hunk.trailing, List.getElem?_take_of_lt (by omega)] at hk
    exact .inr ⟨k, (sameLines_getElem? hk).1, hlt⟩

theorem nodup_sameLines (diffs : List Difference) (i : ℕ) : (sameLines diffs i).Nodup :=
  nodup_of_origin fun _ _ hline => (sameLines_getElem? hline).1

theorem nodup_context_hunkAt (s : DiffState) (hn : IsChange diffs n) :
    ((hunkAt diffs s n).context diffs).Nodup := by
  have hleading : ((hunkAt diffs s n).leading diffs).Nodup :=
    (nodup_sameLines diffs (n - 1)).sublist (List.drop_sublist _ _)
  have htrailing : ((hunkAt diffs s n).trailing diffs).Nodup :=
    (nodup_sameLines diffs _).sublist (List.take_sublist _ _)
  refine hleading.append htrailing fun line hbefore hafter => ?_
  rcases List.mem_iff_getElem?.mp (List.mem_of_mem_drop hbefore) with ⟨j, hj⟩
  rcases List.mem_iff_getElem?.mp (List.mem_of_mem_take hafter) with ⟨k, hk⟩
  have horigin := (sameLines_getElem? hj).1.symm.trans (sameLines_getElem? hk).1
  have hblock : n - 1 = n + runLength diffs n := congrArg Prod.fst (Option.some.inj horigin)
  have hpos := runLength_pos hn
  omega

theorem wellFormed_hunkAt (s : DiffState) (hn : IsChange diffs n) :
    (hunkAt diffs s n).WellFormed diffs where
  first_lt := Nat.lt_add_of_pos_right (runLength_pos hn)
  stop_le := stop_le (lt_length_of_isChange hn).le
  isChange _ hi hlt := isChange_of_lt_stop hi hlt
  leading_le := by
    have hle : (sameLines diffs (n - 1)).length - 3 ≤ startLine diffs s n := le_max_left _ _
    rw [Hunk.leading, List.length_drop]
    show (sameLines diffs (n - 1)).length - startLine diffs s n ≤ 3
    omega
  trailing_le := List.length_take_le _ _

/-! ## Changed lines -/

theorem filter_sameLines {l : List LineDiff} (h : ∀ line ∈ l, line ∈ sameLines diffs i) :
    l.filter (·.modification ≠ .unchanged) = [] := by
  rw [List.filter_eq_nil_iff]
  intro line hline
  rcases List.mem_iff_getElem?.mp (h line hline) with ⟨j, hj⟩
  simp [(sameLines_getElem? hj).2]

theorem filter_changeLines (l : List ℕ) :
    (l.flatMap (changeLines diffs)).filter (·.modification ≠ .unchanged) =
      l.flatMap (changeLines diffs) := by
  rw [List.filter_eq_self]
  intro line hline
  rcases List.mem_flatMap.mp hline with ⟨i, -, hline⟩
  rcases List.mem_iff_getElem?.mp hline with ⟨j, hj⟩
  exact decide_eq_true (changeLines_getElem? hj).2

theorem filter_lines (h : Hunk) :
    (h.lines diffs).filter (·.modification ≠ .unchanged) =
      (List.range' h.first (h.stop - h.first)).flatMap (changeLines diffs) := by
  have hleading : (h.leading diffs).filter (·.modification ≠ .unchanged) = [] :=
    filter_sameLines fun _ => List.mem_of_mem_drop
  have htrailing : (h.trailing diffs).filter (·.modification ≠ .unchanged) = [] :=
    filter_sameLines fun _ => List.mem_of_mem_take
  rw [Hunk.lines, List.filter_append, List.filter_append, filter_changeLines, hleading, htrailing,
    List.nil_append, List.append_nil]

/-- What a chunk adds to the changed lines. -/
theorem filter_addChunk (s : DiffState) (hn : IsChange diffs n)
    (hlast : s.lastProcessedDiffIdx < asI32 n) :
    (addChunk diffs s n).result.lines.filter (·.modification ≠ .unchanged) =
      s.result.lines.filter (·.modification ≠ .unchanged) ++
        (List.range' n (runLength diffs n)).flatMap (changeLines diffs) := by
  have hhunk := @filter_lines diffs (hunkAt diffs s n)
  have hlength : (hunkAt diffs s n).stop - (hunkAt diffs s n).first = runLength diffs n :=
    Nat.add_sub_cancel_left n _
  have hsep : (if s.isFirstChunk then [] else [separator]).filter
      (·.modification ≠ .unchanged) = [] := by
    split <;> rfl
  rw [addChunk_eq s hn hlast, List.filter_append, List.filter_append, hhunk, hlength, hsep,
    List.append_nil]
  rfl

theorem changedUpTo_add (a k : ℕ) : changedUpTo diffs (a + k) =
    changedUpTo diffs a ++ (List.range' a k).flatMap (changeLines diffs) := by
  rw [changedUpTo, List.range_eq_range', ← List.range'_append_1, List.flatMap_append,
    Nat.zero_add, ← List.range_eq_range']
  rfl

theorem changedUpTo_of_no_change {a b : ℕ} (hle : a ≤ b)
    (h : ∀ i, a ≤ i → i < b → ¬ IsChange diffs i) : changedUpTo diffs b = changedUpTo diffs a := by
  have hnil : (List.range' a (b - a)).flatMap (changeLines diffs) = [] := by
    rw [List.flatMap_eq_nil_iff]
    intro i hi
    rw [List.mem_range'_1] at hi
    exact changeLines_of_not_isChange (h i hi.1 (by omega))
  rw [← Nat.add_sub_of_le hle, changedUpTo_add, hnil, List.append_nil]

theorem origin_of_mem_changed {l : List ℕ} {line : LineDiff}
    (h : line ∈ l.flatMap (changeLines diffs)) : ∃ i ∈ l, ∃ j, line.origin = some (i, j) := by
  rcases List.mem_flatMap.mp h with ⟨i, hi, hline⟩
  rcases origin_of_mem_changeLines hline with ⟨j, hj⟩
  exact ⟨i, hi, j, hj⟩

/-- No changed line is there twice. -/
theorem nodup_changedUpTo (n : ℕ) : (changedUpTo diffs n).Nodup := by
  rw [changedUpTo, List.nodup_flatMap]
  constructor
  · exact fun i _ => nodup_of_origin fun _ _ hline => (changeLines_getElem? hline).1
  · refine List.nodup_range.imp fun {i k} hne line hi hk => ?_
    rcases origin_of_mem_changeLines hi with ⟨j, hj⟩
    rcases origin_of_mem_changeLines hk with ⟨j', hj'⟩
    exact hne (congrArg Prod.fst (Option.some.inj (hj.symm.trans hj')))

/-! ## All chunks -/

theorem intercalate_concat {α : Type*} (sep : List α) {ls : List (List α)} (hne : ls ≠ [])
    (l : List α) : sep.intercalate (ls ++ [l]) = sep.intercalate ls ++ sep ++ l := by
  induction ls with
  | nil => exact absurd rfl hne
  | cons first ls ih =>
      cases ls with
      | nil => simp
      | cons second ls =>
          rw [List.cons_append, List.intercalate_cons_of_ne_nil (by simp), ih (List.cons_ne_nil _ _),
            List.intercalate_cons_of_ne_nil (List.cons_ne_nil _ _)]
          simp only [List.append_assoc]

/-- The lines shown so far lie before the line `upTo.2` of the block `upTo.1`, where all
changes in blocks below `n` lie too. -/
structure Progress (diffs : List Difference) (n : ℕ) (hunks : List Hunk) (upTo : ℕ × ℕ)
    (s : DiffState) : Prop where
  lines_eq : s.result.lines = [separator].intercalate (hunks.map (Hunk.lines diffs))
  first_eq : s.isFirstChunk = hunks.isEmpty
  wellFormed : ∀ h ∈ hunks, h.WellFormed diffs
  nodup : (hunks.flatMap (Hunk.context diffs)).Nodup
  before : ∀ line ∈ hunks.flatMap (Hunk.context diffs),
    ∃ i j, line.origin = some (i, j) ∧ (i < upTo.1 ∨ i = upTo.1 ∧ j < upTo.2)
  changed_eq : s.result.lines.filter (·.modification ≠ .unchanged) = changedUpTo diffs upTo.1
  covered : ∀ i < n, IsChange diffs i → i < upTo.1
  post : s.postContextLinesFromPrevChunk = upTo.2
  last : (upTo = (0, 0) ∧ s.lastProcessedDiffIdx = -1) ∨
    ∃ p < n, IsChange diffs p ∧ upTo.1 = p + runLength diffs p ∧
      s.lastProcessedDiffIdx = asI32 (chunkEnd diffs p)

theorem progress_start (result : TextDiff) (hlines : result.lines = []) :
    Progress diffs 0 [] (0, 0) { result } where
  lines_eq := hlines
  first_eq := rfl
  wellFormed := by simp
  nodup := List.nodup_nil
  before := by simp
  changed_eq := by
    rw [hlines]
    rfl
  covered := by simp
  post := rfl
  last := .inl ⟨rfl, rfl⟩

variable {hunks : List Hunk} {upTo : ℕ × ℕ} {s : DiffState}

namespace Progress

theorem skip (h : Progress diffs n hunks upTo s) (hn : IsChange diffs n → n < upTo.1) :
    Progress diffs (n + 1) hunks upTo s where
  lines_eq := h.lines_eq
  first_eq := h.first_eq
  wellFormed := h.wellFormed
  nodup := h.nodup
  before := h.before
  changed_eq := h.changed_eq
  covered i hi hchange := by
    rcases Nat.lt_succ_iff_lt_or_eq.mp hi with hi | rfl
    · exact h.covered i hi hchange
    · exact hn hchange
  post := h.post
  last := h.last.imp_right fun ⟨p, hp, hlast⟩ => ⟨p, Nat.lt_succ_of_lt hp, hlast⟩

/-- A change within the last chunk is compared with the end of it. -/
theorem inner (h : Progress diffs n hunks upTo s) (hlt : n < upTo.1) :
    ∃ m, n = m + 1 ∧ IsChange diffs m ∧ s.lastProcessedDiffIdx = asI32 (chunkEnd diffs n) := by
  rcases h.last with ⟨hupTo, -⟩ | ⟨p, hp, hchange, hupTo, hlast⟩
  · rw [hupTo] at hlt
    exact absurd hlt (Nat.not_lt_zero n)
  · have hall : ∀ j, p ≤ j → j < p + (n - p) → IsChange diffs j :=
      fun j hj hlt' => isChange_of_lt_stop hj (by omega)
    have hstop := stop_eq (n - p) hall
    rw [Nat.add_sub_of_le hp.le] at hstop
    refine ⟨n - 1, by omega, hall (n - 1) (by omega) (by omega), ?_⟩
    rw [hlast, chunkEnd, chunkEnd, hstop]

/-- Any other change is compared with the block behind the changes before. -/
theorem outer (h : Progress diffs n hunks upTo s) (hn : IsChange diffs n) (hle : upTo.1 ≤ n) :
    (upTo = (0, 0) ∧ s.lastProcessedDiffIdx = -1 ∧ ∀ i < n, ¬ IsChange diffs i) ∨
      ∃ p, p + 1 < n ∧ IsChange diffs p ∧ upTo.1 = p + 1 ∧
        s.lastProcessedDiffIdx = asI32 (p + 1) ∧ ∀ i, p < i → i < n → ¬ IsChange diffs i := by
  rcases h.last with ⟨hupTo, hlast⟩ | ⟨p, hp, hchange, hupTo, hlast⟩
  · refine .inl ⟨hupTo, hlast, fun i hi hchange => ?_⟩
    have hlt := h.covered i hi hchange
    rw [hupTo] at hlt
    exact Nat.not_lt_zero i hlt
  · have hpos := runLength_pos hchange
    have hne : upTo.1 ≠ n := by
      rintro rfl
      rw [hupTo] at hn
      exact not_isChange_stop hn
    have hlength := lt_length_of_isChange hn
    have hend : chunkEnd diffs p = upTo.1 := by
      rw [chunkEnd, if_pos (by omega), hupTo]
    refine .inr ⟨upTo.1 - 1, by omega, isChange_of_lt_stop (i := p) (by omega) (by omega), by omega,
      ?_, fun i hi hlt hchange => ?_⟩
    · rw [hlast, hend, Nat.sub_add_cancel (by omega)]
    · have hcovered := h.covered i hlt hchange
      omega

/-- The leading lines of a chunk lie behind everything shown before it. -/
theorem le_of_mem_leading (h : Progress diffs n hunks upTo s) (hn : IsChange diffs n)
    (hle : upTo.1 ≤ n) {k : ℕ} (hstart : startLine diffs s n ≤ k) :
    upTo.1 < n - 1 ∨ upTo.1 = n - 1 ∧ upTo.2 ≤ k := by
  rcases h.outer hn hle with ⟨hupTo, -⟩ | ⟨p, hp, -, hupTo, hlast, -⟩
  · rw [hupTo]
    rcases Nat.eq_zero_or_pos (n - 1) with hzero | hpos
    · exact .inr ⟨hzero.symm, Nat.zero_le k⟩
    · exact .inl hpos
  · rcases Nat.lt_or_ge upTo.1 (n - 1) with hlt | hge
    · exact .inl hlt
    · have hprev : n - 1 = p + 1 := by omega
      have hskip : s.postContextLinesFromPrevChunk ≤ startLine diffs s n := by
        rw [startLine, if_pos (by rw [hprev, hlast])]
        exact le_max_right _ _
      rw [h.post] at hskip
      exact .inr ⟨by omega, by omega⟩

theorem chunk (h : Progress diffs n hunks upTo s) (hn : IsChange diffs n) (hle : upTo.1 ≤ n)
    (hlast : s.lastProcessedDiffIdx < asI32 n) :
    Progress diffs (n + 1) (hunks ++ [hunkAt diffs s n])
      (n + runLength diffs n, min 2 (sameLines diffs (n + runLength diffs n)).length)
      (addChunk diffs s n) := by
  have hpos := runLength_pos hn
  have hcontext : (hunks ++ [hunkAt diffs s n]).flatMap (Hunk.context diffs) =
      hunks.flatMap (Hunk.context diffs) ++ (hunkAt diffs s n).context diffs := by
    rw [List.flatMap_append, List.flatMap_singleton]
  have hfilter := filter_addChunk s hn hlast
  rw [addChunk_eq s hn hlast] at hfilter ⊢
  constructor
  case lines_eq =>
    rw [List.map_append, List.map_singleton, h.first_eq, h.lines_eq]
    cases hunks with
    | nil => simp
    | cons first hunks =>
        rw [intercalate_concat _ (by simp)]
        simp
  case first_eq => simp
  case wellFormed =>
    intro hunk hhunk
    rcases List.mem_append.mp hhunk with hhunk | hhunk
    · exact h.wellFormed hunk hhunk
    · rw [List.mem_singleton.mp hhunk]
      exact wellFormed_hunkAt s hn
  case nodup =>
    rw [hcontext]
    apply h.nodup.append (nodup_context_hunkAt s hn)
    intro line hold hnew
    rcases h.before line hold with ⟨i, j, horigin, hbefore⟩
    rcases mem_context_hunkAt hnew with ⟨k, hk, hstart, -⟩ | ⟨k, hk, -⟩
    · obtain ⟨rfl, rfl⟩ := Prod.mk.inj (Option.some.inj (horigin.symm.trans hk))
      rcases h.le_of_mem_leading hn hle hstart with hupTo | hupTo <;> omega
    · obtain ⟨rfl, rfl⟩ := Prod.mk.inj (Option.some.inj (horigin.symm.trans hk))
      omega
  case before =>
    rw [hcontext]
    intro line hline
    rcases List.mem_append.mp hline with hline | hline
    · rcases h.before line hline with ⟨i, j, horigin, hbefore⟩
      exact ⟨i, j, horigin, .inl (by omega)⟩
    · rcases mem_context_hunkAt hline with ⟨k, hk, -⟩ | ⟨k, hk, hlt⟩
      · exact ⟨_, k, hk, .inl (by omega)⟩
      · exact ⟨_, k, hk, .inr ⟨rfl, hlt⟩⟩
  case changed_eq =>
    have hbetween : changedUpTo diffs n = changedUpTo diffs upTo.1 :=
      changedUpTo_of_no_change hle fun i hi hlt hchange => by
        have hcovered := h.covered i hlt hchange
        omega
    rw [hfilter, h.changed_eq, ← hbetween, changedUpTo_add]
  case covered =>
    intro i hi _
    exact Nat.lt_of_lt_of_le hi (Nat.add_le_add_left hpos n)
  case post => rfl
  case last =>
    refine .inr ⟨n, Nat.lt_succ_self n, hn, rfl, ?_⟩
    dsimp only

end Progress

/-! ## The whole diff -/

/-- What the loop does at a block. -/
def visit (diffs : List Difference) (s : DiffState) (i : ℕ) : DiffState :=
  if (diffs[i]?).any Difference.isChange then addChunk diffs s i else s

/-- The state of the loop once it has passed so many blocks. -/
def stateAt (diffs : List Difference) (result : TextDiff) (n : ℕ) : DiffState :=
  (List.range n).foldl (visit diffs) { result }

theorem any_isChange_iff : (diffs[i]?).any Difference.isChange = true ↔ IsChange diffs i := by
  cases hd : diffs[i]? with
  | none => simp [IsChange, hd]
  | some d => simp [IsChange, hd]

theorem filter_zipIdx (l : List Difference) (k : ℕ) :
    ((l.zipIdx k).filter fun (d, _) => d.isChange).map (fun (_, i) => i) =
      (List.range' k l.length).filter fun i => (l[i - k]?).any Difference.isChange := by
  induction l generalizing k with
  | nil => rfl
  | cons d l ih =>
      have hrest : (List.range' (k + 1) l.length).filter
            (fun i => ((d :: l)[i - k]?).any Difference.isChange) =
          (List.range' (k + 1) l.length).filter
            (fun i => (l[i - (k + 1)]?).any Difference.isChange) := by
        refine List.filter_congr fun i hi => ?_
        rw [List.mem_range'_1] at hi
        have hsub : i - k = i - (k + 1) + 1 := by omega
        rw [hsub, List.getElem?_cons_succ]
      rw [List.zipIdx_cons, List.length_cons, List.range'_succ, List.filter_cons, List.filter_cons,
        hrest, ← ih, Nat.sub_self, List.getElem?_cons_zero, Option.any_some]
      cases hd : d.isChange <;> simp [hd]

theorem changeIndices_eq : changeIndices diffs =
    (List.range diffs.length).filter fun i => (diffs[i]?).any Difference.isChange := by
  rw [changeIndices, filter_zipIdx, List.range_eq_range']
  rfl

theorem foldl_changeIndices (result : TextDiff) :
    (changeIndices diffs).foldl (addChunk diffs) { result } = stateAt diffs result diffs.length := by
  rw [changeIndices_eq, List.foldl_filter]
  rfl

variable {result : TextDiff}

theorem stateAt_succ : stateAt diffs result (n + 1) = visit diffs (stateAt diffs result n) n := by
  rw [stateAt, List.range_succ, List.foldl_append]
  rfl

theorem visit_of_isChange (hn : IsChange diffs n) : visit diffs s n = addChunk diffs s n :=
  if_pos (any_isChange_iff.mpr hn)

theorem visit_of_not_isChange (hn : ¬ IsChange diffs n) : visit diffs s n = s :=
  if_neg fun hchange => hn (any_isChange_iff.mp hchange)

/-- The test at a change finds out whether the last chunk has it. -/
def Tested (n : ℕ) (upTo : ℕ × ℕ) (s : DiffState) : Prop :=
  (n < upTo.1 ∧ asI32 n ≤ s.lastProcessedDiffIdx) ∨
    (upTo.1 ≤ n ∧ s.lastProcessedDiffIdx < asI32 n)

theorem Progress.visit (h : Progress diffs n hunks upTo s)
    (htested : IsChange diffs n → Tested n upTo s) :
    ∃ hunks upTo, Progress diffs (n + 1) hunks upTo (visit diffs s n) := by
  by_cases hn : IsChange diffs n
  · rw [visit_of_isChange hn]
    rcases htested hn with ⟨hlt, hle⟩ | ⟨hle, hlt⟩
    · rw [addChunk_of_le s hle]
      exact ⟨hunks, upTo, h.skip fun _ => hlt⟩
    · exact ⟨_, _, h.chunk hn hle hlt⟩
  · rw [visit_of_not_isChange hn]
    exact ⟨hunks, upTo, h.skip fun hchange => absurd hchange hn⟩

theorem Progress.tested (h : Progress diffs n hunks upTo s) (horder : InOrder diffs)
    (hn : IsChange diffs n) : Tested n upTo s := by
  rcases Nat.lt_or_ge n upTo.1 with hlt | hle
  · rcases h.inner hlt with ⟨m, rfl, hm, hlast⟩
    refine .inl ⟨hlt, ?_⟩
    rw [hlast]
    exact horder.inner m hm hn
  · refine .inr ⟨hle, ?_⟩
    rcases h.outer hn hle with ⟨-, hlast, hnone⟩ | ⟨p, hp, hchange, -, hlast, hnone⟩
    · rw [hlast]
      exact horder.first n hn hnone
    · rw [hlast]
      exact horder.next p n hchange hp hn hnone

/-- In order every test is right. -/
theorem exists_progress (horder : InOrder diffs) (hlines : result.lines = []) (n : ℕ) :
    ∃ hunks upTo, Progress diffs n hunks upTo (stateAt diffs result n) := by
  induction n with
  | zero => exact ⟨[], (0, 0), progress_start result hlines⟩
  | succ n ih =>
      rcases ih with ⟨hunks, upTo, h⟩
      rw [stateAt_succ]
      exact h.visit fun hn => h.tested horder hn

/-- What is shown later are lines of later blocks. -/
theorem filter_stateAt_add (m k : ℕ) : ∃ extra : List LineDiff,
    (stateAt diffs result (m + k)).result.lines.filter (·.modification ≠ .unchanged) =
        (stateAt diffs result m).result.lines.filter (·.modification ≠ .unchanged) ++ extra ∧
      ∀ line ∈ extra, ∃ i j, line.origin = some (i, j) ∧ m ≤ i := by
  induction k with
  | zero => exact ⟨[], by simp, by simp⟩
  | succ k ih =>
      rcases ih with ⟨extra, heq, hextra⟩
      rw [← Nat.add_assoc, stateAt_succ]
      by_cases hn : IsChange diffs (m + k)
      · rw [visit_of_isChange hn]
        rcases lt_or_ge (stateAt diffs result (m + k)).lastProcessedDiffIdx (asI32 (m + k))
          with hlt | hle
        · refine ⟨extra ++ (List.range' (m + k) (runLength diffs (m + k))).flatMap
            (changeLines diffs), ?_, fun line hline => ?_⟩
          · rw [filter_addChunk _ hn hlt, heq, List.append_assoc]
          · rcases List.mem_append.mp hline with hline | hline
            · exact hextra line hline
            · rcases origin_of_mem_changed hline with ⟨i, hi, j, hj⟩
              rw [List.mem_range'_1] at hi
              exact ⟨i, j, hj, by omega⟩
        · rw [addChunk_of_le _ hle]
          exact ⟨extra, heq, hextra⟩
      · rw [visit_of_not_isChange hn]
        exact ⟨extra, heq, hextra⟩

/-- A wrong test leaves a change out or shows it twice. -/
theorem Progress.tested_of_shows (h : Progress diffs n hunks upTo (stateAt diffs result n))
    (hn : IsChange diffs n)
    (hshows : (stateAt diffs result diffs.length).result.lines.filter
      (·.modification ≠ .unchanged) = changedUpTo diffs diffs.length) :
    Tested n upTo (stateAt diffs result n) := by
  have hlength := lt_length_of_isChange hn
  have hstep : stateAt diffs result (n + 1) = addChunk diffs (stateAt diffs result n) n := by
    rw [stateAt_succ, visit_of_isChange hn]
  rcases @filter_stateAt_add diffs result (n + 1) (diffs.length - (n + 1)) with ⟨extra, heq, hextra⟩
  rw [Nat.add_sub_of_le hlength, hshows, hstep] at heq
  rcases exists_mem_changeLines hn with ⟨line, hline⟩
  rcases origin_of_mem_changeLines hline with ⟨j, hj⟩
  rcases Nat.lt_or_ge n upTo.1 with hlt | hle
  · refine .inl ⟨hlt, Int.not_lt.mp fun hlast => ?_⟩
    -- The change is shown once more.
    rw [filter_addChunk _ hn hlast, h.changed_eq] at heq
    have hnodup := @nodup_changedUpTo diffs diffs.length
    rw [heq, List.append_assoc] at hnodup
    have hfirst : line ∈ changedUpTo diffs upTo.1 :=
      List.mem_flatMap.mpr ⟨n, List.mem_range.mpr hlt, hline⟩
    have hrun : n ∈ List.range' n (runLength diffs n) :=
      List.mem_range'_1.mpr ⟨Nat.le_refl n, Nat.lt_add_of_pos_right (runLength_pos hn)⟩
    have hagain : line ∈ (List.range' n (runLength diffs n)).flatMap (changeLines diffs) ++ extra :=
      List.mem_append_left _ (List.mem_flatMap.mpr ⟨n, hrun, hline⟩)
    exact List.disjoint_of_nodup_append hnodup hfirst hagain
  · refine .inr ⟨hle, Int.not_le.mp fun hlast => ?_⟩
    -- The change is never shown.
    rw [addChunk_of_le _ hlast, h.changed_eq] at heq
    have hmem : line ∈ changedUpTo diffs diffs.length :=
      List.mem_flatMap.mpr ⟨n, List.mem_range.mpr hlength, hline⟩
    rw [heq] at hmem
    rcases List.mem_append.mp hmem with hmem | hmem
    · rcases origin_of_mem_changed hmem with ⟨i, hi, j', hj'⟩
      obtain ⟨rfl, -⟩ := Prod.mk.inj (Option.some.inj (hj.symm.trans hj'))
      rw [List.mem_range] at hi
      omega
    · rcases hextra line hmem with ⟨i, j', hj', hlater⟩
      obtain ⟨rfl, -⟩ := Prod.mk.inj (Option.some.inj (hj.symm.trans hj'))
      omega

theorem exists_progress_of_shows (hlines : result.lines = [])
    (hshows : (stateAt diffs result diffs.length).result.lines.filter
      (·.modification ≠ .unchanged) = changedUpTo diffs diffs.length) (n : ℕ) :
    ∃ hunks upTo, Progress diffs n hunks upTo (stateAt diffs result n) := by
  induction n with
  | zero => exact ⟨[], (0, 0), progress_start result hlines⟩
  | succ n ih =>
      rcases ih with ⟨hunks, upTo, h⟩
      rw [stateAt_succ]
      exact h.visit fun hn => h.tested_of_shows hn hshows

/-- If every change is shown once, indices keep their order. -/
theorem inOrder_of_shows (hlines : result.lines = [])
    (hshows : (stateAt diffs result diffs.length).result.lines.filter
      (·.modification ≠ .unchanged) = changedUpTo diffs diffs.length) : InOrder diffs := by
  have hprogress := exists_progress_of_shows hlines hshows
  constructor
  case first =>
    intro c hc hnone
    rcases hprogress c with ⟨hunks, upTo, h⟩
    have htested := h.tested_of_shows hc hshows
    have hle : upTo.1 ≤ c := by
      by_contra hlt
      rcases h.inner (Nat.not_le.mp hlt) with ⟨m, rfl, hm, -⟩
      exact hnone m (Nat.lt_succ_self m) hm
    rcases h.outer hc hle with ⟨-, hlast, -⟩ | ⟨p, hp, hchange, -⟩
    · rcases htested with ⟨hlt, -⟩ | ⟨-, hlt⟩
      · omega
      · rwa [hlast] at hlt
    · exact absurd hchange (hnone p (by omega))
  case next =>
    intro p c hp hpc hc hnone
    rcases hprogress c with ⟨hunks, upTo, h⟩
    have htested := h.tested_of_shows hc hshows
    have hle : upTo.1 ≤ c := by
      by_contra hlt
      rcases h.inner (Nat.not_le.mp hlt) with ⟨m, rfl, hm, -⟩
      exact hnone m (by omega) (Nat.lt_succ_self m) hm
    rcases h.outer hc hle with ⟨-, -, hno⟩ | ⟨q, hq, hchange, -, hlast, hno⟩
    · exact absurd hp (hno p (by omega))
    · have hsame : q = p := by
        rcases Nat.lt_trichotomy q p with hlt | heq | hlt
        · exact absurd hp (hno p hlt (by omega))
        · exact heq
        · exact absurd hchange (hnone q hlt (by omega))
      rcases htested with ⟨hlt, -⟩ | ⟨-, hlt⟩
      · omega
      · rwa [hlast, hsame] at hlt
  case inner =>
    intro c hc hnext
    rcases hprogress (c + 1) with ⟨hunks, upTo, h⟩
    have htested := h.tested_of_shows hnext hshows
    have hlt : c + 1 < upTo.1 := by
      by_contra hge
      rcases h.outer hnext (Nat.not_lt.mp hge) with ⟨-, -, hno⟩ | ⟨p, hp, -, -, -, hno⟩
      · exact hno c (Nat.lt_succ_self c) hc
      · exact hno c (by omega) (Nat.lt_succ_self c) hc
    rcases h.inner hlt with ⟨m, -, -, hlast⟩
    rcases htested with ⟨-, hle⟩ | ⟨hge, -⟩
    · rwa [hlast] at hle
    · omega

theorem changeIndices_eq_nil_iff : changeIndices diffs = [] ↔ ∀ d ∈ diffs, d.isChange = false := by
  rw [changeIndices_eq, List.filter_eq_nil_iff]
  constructor
  · intro h d hd
    rcases List.mem_iff_getElem?.mp hd with ⟨i, hi⟩
    have hlt := (List.getElem?_eq_some_iff.mp hi).1
    have hnot := h i (List.mem_range.mpr hlt)
    rw [hi] at hnot
    simpa using hnot
  · intro h i _ hchange
    rcases any_isChange_iff.mp hchange with ⟨d, hd, hchange⟩
    rw [h d (List.mem_of_getElem? hd)] at hchange
    cases hchange

theorem changedUpTo_eq_nil_iff :
    changedUpTo diffs diffs.length = [] ↔ ∀ d ∈ diffs, d.isChange = false := by
  rw [changedUpTo, List.flatMap_eq_nil_iff]
  constructor
  · intro h d hd
    rcases List.mem_iff_getElem?.mp hd with ⟨i, hi⟩
    rw [← Bool.not_eq_true]
    intro hchange
    rcases exists_mem_changeLines ⟨d, hi, hchange⟩ with ⟨line, hline⟩
    rw [h i (List.mem_range.mpr (List.getElem?_eq_some_iff.mp hi).1)] at hline
    cases hline
  · intro h i _
    apply changeLines_of_not_isChange
    rintro ⟨d, hd, hchange⟩
    rw [h d (List.mem_of_getElem? hd)] at hchange
    cases hchange

/-- The changes that are shown are all of them, each once. -/
theorem shows_stateAt (horder : InOrder diffs) (hlines : result.lines = []) :
    ∃ hunks, Shows diffs hunks (stateAt diffs result diffs.length).result.lines := by
  rcases exists_progress horder hlines diffs.length with ⟨hunks, upTo, h⟩
  refine ⟨hunks, h.lines_eq, h.wellFormed, h.nodup, ?_⟩
  have hle : upTo.1 ≤ diffs.length := by
    rcases h.last with ⟨hupTo, -⟩ | ⟨p, hp, -, hupTo, -⟩
    · rw [hupTo]
      exact Nat.zero_le _
    · rw [hupTo]
      exact stop_le hp.le
  rw [h.changed_eq]
  refine (changedUpTo_of_no_change hle fun i hi hlt hchange => ?_).symm
  have hcovered := h.covered i hlt hchange
  omega

theorem asI32_of_lt {i : ℕ} (h : i < 2 ^ 31) : asI32 i = i := by
  have hmod : Int.bmod i 4294967296 = i := Int.bmod_eq_of_le (by omega) (by omega)
  exact hmod

/-- A changeset of at most that many blocks is in order. -/
theorem inOrder_of_length_le (h : diffs.length ≤ 2 ^ 31) : InOrder diffs := by
  have hcast : ∀ i < diffs.length, asI32 i = i := fun i hi => asI32_of_lt (hi.trans_le h)
  constructor
  case first =>
    intro c hc _
    rw [hcast c (lt_length_of_isChange hc)]
    omega
  case next =>
    intro p c hp hpc hc _
    have hlt := lt_length_of_isChange hc
    rw [hcast c hlt, hcast (p + 1) (by omega)]
    omega
  case inner =>
    intro c _ hnext
    have hlt := lt_length_of_isChange hnext
    have hpos := runLength_pos hnext
    have hstop := stop_le hlt.le
    have hend : c + 1 ≤ chunkEnd diffs (c + 1) ∧ chunkEnd diffs (c + 1) < diffs.length := by
      rw [chunkEnd]
      split <;> omega
    rw [hcast _ hlt, hcast _ hend.2]
    omega

section

variable {changeset : String → String → String → List Difference}
  {originalData versionFile1 compareData versionFile2 : Option String}

theorem lines_diff (h : changeIndices
      (changeset (originalData.getD "") (compareData.getD "") "\n") ≠ []) :
    (diff changeset originalData versionFile1 compareData versionFile2).lines =
      (stateAt (changeset (originalData.getD "") (compareData.getD "") "\n")
        { filename1 := versionFile1, filename2 := versionFile2 }
        (changeset (originalData.getD "") (compareData.getD "") "\n").length).result.lines := by
  rw [diff, ← foldl_changeIndices]
  simp only [h, if_false]

theorem inOrder_of_no_change (h : changeIndices diffs = []) : InOrder diffs := by
  have hno : ∀ i, ¬ IsChange diffs i := by
    rintro i ⟨d, hd, hchange⟩
    rw [changeIndices_eq_nil_iff.mp h d (List.mem_of_getElem? hd)] at hchange
    cases hchange
  exact ⟨fun c hc => absurd hc (hno c), fun p _ hp => absurd hp (hno p),
    fun c hc => absurd hc (hno c)⟩

theorem inOrder_of_showsChanges
    (h : ShowsChanges (changeset (originalData.getD "") (compareData.getD "") "\n")
      (diff changeset originalData versionFile1 compareData versionFile2).lines) :
    InOrder (changeset (originalData.getD "") (compareData.getD "") "\n") := by
  by_cases hnone : changeIndices
      (changeset (originalData.getD "") (compareData.getD "") "\n") = []
  · exact inOrder_of_no_change hnone
  · rcases h.shows with ⟨hunks, hshows⟩
    rw [lines_diff hnone] at hshows
    exact inOrder_of_shows rfl hshows.changed_eq

end

/-- The lines of the diff of two texts are chunks of the changeset, which show every changed
line once and in order, with at most three unchanged lines before and two after them, and no
unchanged line twice, exactly if the indices of its blocks keep their order when they are cast. -/
theorem diff_shows_iff (changeset : String → String → String → List Difference)
    (originalData versionFile1 compareData versionFile2 : Option String) :
    ShowsChanges (changeset (originalData.getD "") (compareData.getD "") "\n")
        (diff changeset originalData versionFile1 compareData versionFile2).lines ↔
      InOrder (changeset (originalData.getD "") (compareData.getD "") "\n") := by
  refine ⟨inOrder_of_showsChanges, fun horder => ?_⟩
  have hlinesOf : ∀ d ∈ changeset (originalData.getD "") (compareData.getD "") "\n",
      LinesOf d.text d.lines := fun d _ => linesOf_splitLines d.text
  by_cases hnone : changeIndices
      (changeset (originalData.getD "") (compareData.getD "") "\n") = []
  · have hsame := changeIndices_eq_nil_iff.mp hnone
    rw [diff]
    simp only [hnone, if_true]
    refine ⟨hlinesOf, ⟨[], rfl, by simp, List.nodup_nil, ?_⟩, fun _ => hsame, fun _ => rfl⟩
    exact (changedUpTo_eq_nil_iff.mpr hsame).symm
  · rw [lines_diff hnone]
    rcases @shows_stateAt _ { filename1 := versionFile1, filename2 := versionFile2 } horder rfl with
      ⟨hunks, hshows⟩
    refine ⟨hlinesOf, ⟨hunks, hshows⟩, fun hnil => ?_,
      fun h => absurd (changeIndices_eq_nil_iff.mpr h) hnone⟩
    rw [← changedUpTo_eq_nil_iff, ← hshows.changed_eq, hnil]
    rfl

namespace HunksExample

/-- Lines `b` are removed between lines `a`, and a line is added in the end. -/
def blocks (k : ℕ) : List Difference :=
  (List.replicate k [.rem "b", .same "a"]).flatten ++ [.rem "b", .same "a", .add "x"]

def original (k : ℕ) : String :=
  "\n".intercalate (List.replicate (k + 1) ["b", "a"]).flatten

def compared (k : ℕ) : String :=
  "\n".intercalate (List.replicate (k + 1) "a" ++ ["x"])

theorem getElem?_blocks (k j : ℕ) :
    (blocks k)[2 * k + j]? = [Difference.rem "b", .same "a", .add "x"][j]? := by
  have hlength : (List.replicate k [Difference.rem "b", .same "a"]).flatten.length = 2 * k := by
    simp [Nat.mul_comm]
  rw [blocks, List.getElem?_append_right (by omega), hlength, Nat.add_sub_cancel_left]

end HunksExample

open HunksExample in
/-- The index of the block after `2 ^ 31` others is a negative number when it is cast. -/
theorem not_showsChanges :
    ¬ ShowsChanges (blocks (2 ^ 30 - 1))
      (diff (fun _ _ _ => blocks (2 ^ 30 - 1)) (some (original (2 ^ 30 - 1))) none
        (some (compared (2 ^ 30 - 1))) none).lines := by
  intro h
  have horder : InOrder (blocks (2 ^ 30 - 1)) :=
    @inOrder_of_showsChanges (fun _ _ _ => blocks (2 ^ 30 - 1)) (some (original (2 ^ 30 - 1))) none
      (some (compared (2 ^ 30 - 1))) none h
  have hrem : IsChange (blocks (2 ^ 30 - 1)) (2 * (2 ^ 30 - 1) + 0) :=
    ⟨_, getElem?_blocks _ 0, rfl⟩
  have hadd : IsChange (blocks (2 ^ 30 - 1)) (2 * (2 ^ 30 - 1) + 2) :=
    ⟨_, getElem?_blocks _ 2, rfl⟩
  have hlt := horder.next _ _ hrem (by omega) hadd fun i hfirst hlast hchange => by
    obtain rfl : i = 2 * (2 ^ 30 - 1) + 1 := by omega
    rcases hchange with ⟨d, hd, hchange⟩
    rw [getElem?_blocks _ 1] at hd
    cases hd
    cases hchange
  exact absurd hlt (by decide)

end Utf8Diff

end Oxen
