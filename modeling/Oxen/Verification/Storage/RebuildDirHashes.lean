import Oxen.Lib.Runs
import Oxen.Model.RebuildDirHashes
import Oxen.Verification.Tree.HasPath

/-! Rebuilds of the index of a commit, stopped anywhere and beside readers. -/

namespace Oxen

namespace Fsck

open MerkleTreeNode Runs

/-! ## The collected directories -/

def directory? : PathBuf × EMerkleTreeNode → Option (PathBuf × MerkleHash)
  | (path, .directory dir) => some (path, dir.hash)
  | _ => none

/-- The directories at and below a node. -/
def directories (path : PathBuf) (t : MerkleTreeNode) : List (PathBuf × MerkleHash) :=
  (t.entries path).filterMap directory?

/-- The directories that a node on the stack leads to, its own path given. -/
def offer : MerkleTreeNode × PathBuf → List (PathBuf × MerkleHash)
  | (.mk node children, path) =>
      ( directory? (path, node)).toList ++ children.flatMap (directories path)

theorem directories_mk (path : PathBuf) (n : EMerkleTreeNode) (cs : List MerkleTreeNode) :
    directories path (.mk n cs) =
      ( directory? (n.ownPath path, n)).toList ++ cs.flatMap (directories (n.ownPath path)) := by
  rw [directories, entries_mk, List.filterMap_append, List.filterMap_flatMap]
  apply congrArg₂
  · cases n with
    | file f => rfl
    | directory d => rfl
    | vnode v => rfl
    | commit c => rfl
  · rfl

/-- A child is pushed with the path that its own directories hang from. -/
theorem offer_child {c : MerkleTreeNode} (h : c.Leafy) (path : PathBuf) :
    offer (c, nextPath path c) = directories path c := by
  obtain ⟨n, cs⟩ := c
  rw [directories_mk]
  cases n with
  | file f =>
      rw [leafy_file h]
      rfl
  | directory d => rfl
  | vnode v => rfl
  | commit c => rfl

theorem flatMap_offer_children {cs : List MerkleTreeNode} (h : ∀ c ∈ cs, c.Leafy)
    (path : PathBuf) :
    (cs.map fun c => (c, nextPath path c)).flatMap offer = cs.flatMap (directories path) := by
  induction cs with
  | nil => rfl
  | cons c cs ih =>
      rw [List.map_cons, List.flatMap_cons, List.flatMap_cons, offer_child (h c List.mem_cons_self),
        ih fun c hc => h c (List.mem_cons_of_mem _ hc)]

theorem pushDirectory_eq (out : List (PathBuf × MerkleHash)) (path : PathBuf)
    (n : EMerkleTreeNode) :
    pushDirectory out path n = out ++ ( directory? (path, n)).toList := by
  cases n with
  | directory d => rfl
  | file f => exact (List.append_nil out).symm
  | vnode v => exact (List.append_nil out).symm
  | commit c => exact (List.append_nil out).symm

theorem perm_collectDirHashesLoop {fuel : ℕ} {stack : List (MerkleTreeNode × PathBuf)}
    {out : List (PathBuf × MerkleHash)} (hleafy : ∀ item ∈ stack, item.1.Leafy)
    (hfuel : (stack.map fun item => item.1.size).sum ≤ fuel) :
    (collectDirHashesLoop fuel stack out).Perm (out ++ stack.flatMap offer) := by
  induction fuel generalizing stack out with
  | zero =>
      cases stack with
      | nil => simp [collectDirHashesLoop]
      | cons item stack =>
          have := item.1.size_pos
          simp only [List.map_cons, List.sum_cons] at hfuel
          omega
  | succ fuel ih =>
      cases stack with
      | nil => simp [collectDirHashesLoop]
      | cons item stack =>
          obtain ⟨⟨n, cs⟩, path⟩ := item
          have hcs : ∀ c ∈ cs, c.Leafy := (hleafy _ List.mem_cons_self).child
          rw [collectDirHashesLoop, pushDirectory_eq]
          refine (ih ?_ ?_).trans ?_
          · intro item hitem
            rcases List.mem_append.mp hitem with hitem | hitem
            · rcases List.mem_map.mp (List.mem_reverse.mp hitem) with ⟨c, hc, rfl⟩
              exact hcs c hc
            · exact hleafy item (List.mem_cons_of_mem _ hitem)
          · have hsize : (mk n cs).size = 1 + (cs.map fun c => c.size).sum := size_mk n cs
            simp only [List.map_cons, List.sum_cons, List.map_append, List.map_reverse,
              List.map_map, List.sum_append, List.sum_reverse, Function.comp_def] at hfuel ⊢
            omega
          · rw [List.flatMap_append, List.flatMap_cons, offer, ← flatMap_offer_children hcs,
              List.append_assoc, List.append_assoc]
            exact (((List.reverse_perm _).flatMap_right offer).append_right _).append_left _
              |>.append_left _

/-- The walk of a commit's tree finds every directory once. -/
theorem perm_collectDirHashes {c : CommitNode} {cs : List MerkleTreeNode}
    (h : (mk (.commit c) cs).Leafy) :
    (collectDirHashes (.mk (.commit c) cs)).Perm (directories [] (.mk (.commit c) cs)) := by
  refine (perm_collectDirHashesLoop ?_ ?_).trans ?_
  · intro item hitem
    obtain rfl := List.mem_singleton.mp hitem
    exact h
  · simp
  · rw [List.nil_append, List.flatMap_singleton, directories_mk]
    rfl

theorem getRootWithChildren_of_stored {db : NodeStore} (t : CommitTree db) {fuel : ℕ}
    (hfuel : t.tree.size ≤ fuel) : getRootWithChildren db fuel t.commit = some t.tree :=
  getNodeByIdWithChildren_of_stored t.stored_tree rfl hfuel

/-! ## Old or new -/

section Runs

variable {db : NodeStore} {fuel : ℕ} (t : CommitTree db)

/-- One key for each directory of the tree. -/
def IndexOf (index : DirHashes) : Prop :=
  ∀ path hash, index.lookup path = some hash ↔ (path, hash) ∈ directories [] t.tree

/-- What a rebuild leaves that returned. -/
structure Rebuilt (found : Option DirHashes) (stats : RebuildDirHashesStats) : Prop where
  index : ∃ index, found = some index ∧ IndexOf t index
  commitId : stats.commitId = t.commit.hash
  dirsWritten : stats.dirsWritten = (directories [] t.tree).length

/-- The complete index from before the last rebuild, or the complete index of the tree. -/
def OldOrNew (before found : Option DirHashes) : Prop :=
  found = before ∨ ∃ index, found = some index ∧ IndexOf t index

structure Intact (s : State) : Prop where
  returned : ∀ stats, s.phase = .returned stats → Rebuilt t s.disk.dbPath stats
  kept : s.phase.isBetween = false → OldOrNew t s.before s.disk.dbPath
  reads : ∀ found, .opened found ∈ s.readers → OldOrNew t s.before found

/-- No rebuild ends between its two renames once it has taken an index away. -/
def Spares (action : Action) (s : State) : Prop :=
  action = .fail ∨ action = .stop → s.phase.tookIndex = false

/-- The index that a rebuild writes. -/
def fresh : DirHashes :=
  KeyedMap.insertAll ∅ (collectDirHashes t.tree)

/-- What a rebuild has done when it gets to a phase. -/
def Going (s : State) : Phase → Prop
  | .idle => True
  | .removeNew pairs => pairs = collectDirHashes t.tree ∧ s.disk.dbPath = s.before
  | .removeOld pairs | .openNew pairs =>
      pairs = collectDirHashes t.tree ∧ s.disk.dbPath = s.before ∧ s.disk.newPath = none
  | .write pairs successfulWrites =>
      s.disk.dbPath = s.before ∧ ∃ written, written ++ pairs = collectDirHashes t.tree ∧
        s.disk.newPath = some (KeyedMap.insertAll ∅ written) ∧ successfulWrites = written.length
  | .lock successfulWrites | .evict successfulWrites =>
      s.disk.dbPath = s.before ∧ s.disk.newPath = some (fresh t) ∧
        successfulWrites = (collectDirHashes t.tree).length
  | .renameOld successfulWrites =>
      s.disk.dbPath = s.before ∧ s.disk.newPath = some (fresh t) ∧
        successfulWrites = (collectDirHashes t.tree).length ∧ s.handle = none
  | .renameNew hadExisting successfulWrites =>
      s.disk.dbPath = none ∧ hadExisting = s.before.isSome ∧ s.disk.newPath = some (fresh t) ∧
        successfulWrites = (collectDirHashes t.tree).length ∧ s.handle = none
  | .removeReplaced _ successfulWrites =>
      s.disk.dbPath = some (fresh t) ∧
        successfulWrites = (collectDirHashes t.tree).length ∧ s.handle = none
  | .returned stats =>
      s.disk.dbPath = some (fresh t) ∧
        stats = { commitId := t.commit.hash, dirsWritten := (collectDirHashes t.tree).length }

/-- Handles and readers have the index that is on disk. -/
structure Sound (s : State) : Prop where
  going : Going t s s.phase
  handle : ∀ index, s.handle = some index → s.disk.dbPath = some index
  readers : ∀ found, .opened found ∈ s.readers → found = s.disk.dbPath
  alone : s.phase.holdsBarrier = true → s.readers = []

variable {t} {s s' : State} {action : Action}

theorem rename_eq_some {src dst : Option DirHashes} {index : DirHashes} :
    rename src dst = some index ↔ dst = none ∧ src = some index := by
  cases dst with
  | none => simp [rename]
  | some other => simp [rename]

/-- A phase without the barrier. -/
theorem free {readers : List Reader} (hfalse : false = true) : readers = [] :=
  absurd hfalse Bool.false_ne_true

theorem Sound.rebuild (hroot : getRootWithChildren db fuel t.commit = some t.tree)
    (h : Sound t s) (hstep : rebuild db fuel t.commit s = some s') : Sound t s' := by
  have hgoing := h.going
  have halone := h.alone
  cases hphase : s.phase with
  | idle =>
      simp only [Fsck.rebuild, hphase, hroot, Option.map_some, Option.some.injEq] at hstep
      subst hstep
      exact ⟨⟨rfl, rfl⟩, h.handle, h.readers, free⟩
  | returned stats =>
      simp only [Fsck.rebuild, hphase, hroot, Option.map_some, Option.some.injEq] at hstep
      subst hstep
      exact ⟨⟨rfl, rfl⟩, h.handle, h.readers, free⟩
  | removeNew pairs =>
      simp only [Fsck.rebuild, hphase, Option.some.injEq] at hstep
      rw [hphase] at hgoing
      subst hstep
      exact ⟨⟨hgoing.1, hgoing.2, rfl⟩, h.handle, h.readers, free⟩
  | removeOld pairs =>
      simp only [Fsck.rebuild, hphase, Option.some.injEq] at hstep
      rw [hphase] at hgoing
      subst hstep
      exact ⟨hgoing, h.handle, h.readers, free⟩
  | openNew pairs =>
      simp only [Fsck.rebuild, hphase, Option.some.injEq] at hstep
      rw [hphase] at hgoing
      rcases hgoing with ⟨hpairs, hbefore, hnew⟩
      subst hstep
      refine ⟨⟨hbefore, [], hpairs, ?_, rfl⟩, h.handle, h.readers, free⟩
      rw [hnew]
      rfl
  | write pairs successfulWrites =>
      rw [hphase] at hgoing
      rcases hgoing with ⟨hbefore, written, hpairs, hnew, hcount⟩
      cases pairs with
      | nil =>
          simp only [Fsck.rebuild, hphase, Option.some.injEq] at hstep
          subst hstep
          rw [List.append_nil] at hpairs
          rw [hpairs] at hnew hcount
          exact ⟨⟨hbefore, hnew, hcount⟩, h.handle, h.readers, free⟩
      | cons pair pairs =>
          simp only [Fsck.rebuild, hphase, Option.some.injEq] at hstep
          subst hstep
          refine ⟨⟨hbefore, written ++ [pair], ?_, ?_, ?_⟩, h.handle, h.readers, free⟩
          · rw [List.append_assoc]
            exact hpairs
          · rw [hnew, KeyedMap.insertAll_append]
            rfl
          · rw [hcount, List.length_append]
            rfl
  | lock successfulWrites =>
      rw [hphase] at hgoing
      simp only [Fsck.rebuild, hphase] at hstep
      split at hstep
      · next hempty =>
        rw [Option.some.injEq] at hstep
        subst hstep
        exact ⟨hgoing, h.handle, h.readers, fun _ => List.isEmpty_iff.mp hempty⟩
      · cases hstep
  | evict successfulWrites =>
      rw [hphase] at hgoing halone
      simp only [Fsck.rebuild, hphase, Option.some.injEq] at hstep
      subst hstep
      refine ⟨⟨hgoing.1, hgoing.2.1, hgoing.2.2, rfl⟩, ?_, h.readers, fun _ => halone rfl⟩
      intro index hindex
      cases hindex
  | renameOld successfulWrites =>
      rw [hphase] at hgoing halone
      rcases hgoing with ⟨hbefore, hnew, hcount, hclosed⟩
      simp only [Fsck.rebuild, hphase] at hstep
      split at hstep
      · next hsome =>
        rcases Option.map_eq_some_iff.mp hstep with ⟨index, hrename, heq⟩
        subst heq
        refine ⟨⟨rfl, ?_, hnew, hcount, hclosed⟩, ?_, ?_, fun _ => halone rfl⟩
        · rw [← hbefore, hsome]
        · intro index hindex
          rw [hclosed] at hindex
          cases hindex
        · intro found hfound
          rw [halone rfl] at hfound
          cases hfound
      · next hnone =>
        rw [Option.some.injEq] at hstep
        subst hstep
        have hdb : s.disk.dbPath = none := Option.not_isSome_iff_eq_none.mp hnone
        refine ⟨⟨hdb, ?_, hnew, hcount, hclosed⟩, h.handle, h.readers, fun _ => halone rfl⟩
        rw [← hbefore, hdb]
        rfl
  | renameNew hadExisting successfulWrites =>
      rw [hphase] at hgoing halone
      rcases hgoing with ⟨hdb, hhad, hnew, hcount, hclosed⟩
      simp only [Fsck.rebuild, hphase] at hstep
      rcases Option.map_eq_some_iff.mp hstep with ⟨index, hrename, heq⟩
      subst heq
      have hindex := (rename_eq_some.mp hrename).2
      rw [hnew] at hindex
      refine ⟨⟨hindex.symm, hcount, hclosed⟩, ?_, ?_, fun _ => halone rfl⟩
      · intro index hindex
        rw [hclosed] at hindex
        cases hindex
      · intro found hfound
        rw [halone rfl] at hfound
        cases hfound
  | removeReplaced hadExisting successfulWrites =>
      rw [hphase] at hgoing
      rcases hgoing with ⟨hdb, hcount, hclosed⟩
      simp only [Fsck.rebuild, hphase, Option.some.injEq] at hstep
      subst hstep
      exact ⟨⟨hdb, by rw [hcount]⟩, h.handle, h.readers, free⟩

/-- What steps of others may change while the rebuild stays where it is. -/
theorem Going.of_same {phase : Phase} (h : Going t s phase) (hdb : s'.disk.dbPath = s.disk.dbPath)
    (hnew : s'.disk.newPath = s.disk.newPath) (hbefore : s'.before = s.before)
    (hhandle : phase.holdsBarrier = true → s.handle = none → s'.handle = none) :
    Going t s' phase := by
  cases phase with
  | idle => trivial
  | removeNew pairs => rwa [Going, hdb, hbefore]
  | removeOld pairs => rwa [Going, hdb, hnew, hbefore]
  | openNew pairs => rwa [Going, hdb, hnew, hbefore]
  | write pairs successfulWrites => rwa [Going, hdb, hnew, hbefore]
  | lock successfulWrites => rwa [Going, hdb, hnew, hbefore]
  | evict successfulWrites => rwa [Going, hdb, hnew, hbefore]
  | renameOld successfulWrites =>
      rw [Going, hdb, hnew, hbefore]
      exact ⟨h.1, h.2.1, h.2.2.1, hhandle rfl h.2.2.2⟩
  | renameNew hadExisting successfulWrites =>
      rw [Going, hdb, hnew, hbefore]
      exact ⟨h.1, h.2.1, h.2.2.1, h.2.2.2.1, hhandle rfl h.2.2.2.2⟩
  | removeReplaced hadExisting successfulWrites =>
      rw [Going, hdb]
      exact ⟨h.1, h.2.1, hhandle rfl h.2.2⟩
  | returned stats => rwa [Going, hdb]

theorem Sound.step (hroot : getRootWithChildren db fuel t.commit = some t.tree)
    (h : Sound t s) (hstep : Step db fuel t.commit action s s') : Sound t s' := by
  have hgoing := h.going
  cases action with
  | rebuild => exact h.rebuild hroot hstep
  | shrinkNew left =>
      simp only [Step, Fsck.step] at hstep
      split at hstep
      · next pairs other hphase hnew =>
        rw [Option.some.injEq] at hstep
        subst hstep
        rw [hphase] at hgoing
        refine ⟨?_, h.handle, h.readers, h.alone⟩
        rw [show Going t _ _ ↔ Going t _ (.removeNew pairs) by rw [← hphase]]
        exact hgoing
      · cases hstep
  | shrinkOld left =>
      simp only [Step, Fsck.step] at hstep
      split at hstep
      · rw [Option.some.injEq] at hstep
        subst hstep
        exact ⟨hgoing.of_same rfl rfl rfl fun _ => id, h.handle, h.readers, h.alone⟩
      · rw [Option.some.injEq] at hstep
        subst hstep
        exact ⟨hgoing.of_same rfl rfl rfl fun _ => id, h.handle, h.readers, h.alone⟩
      · cases hstep
  | keepReplaced =>
      simp only [Step, Fsck.step] at hstep
      split at hstep
      · next successfulWrites hphase =>
        rw [Option.some.injEq] at hstep
        subst hstep
        rw [hphase] at hgoing
        exact ⟨⟨hgoing.1, by rw [hgoing.2.1]⟩, h.handle, h.readers, free⟩
      · cases hstep
  | fail =>
      simp only [Step, Fsck.step] at hstep
      split at hstep
      · cases hstep
      · rw [Option.some.injEq] at hstep
        subst hstep
        exact ⟨trivial, h.handle, h.readers, free⟩
  | stop =>
      simp only [Step, Fsck.step, Option.some.injEq] at hstep
      subst hstep
      refine ⟨trivial, ?_, ?_, free⟩
      · intro index hindex
        cases hindex
      · intro found hfound
        cases hfound
  | enter =>
      simp only [Step, Fsck.step] at hstep
      split at hstep
      · cases hstep
      · next hfree =>
        rw [Option.some.injEq] at hstep
        subst hstep
        refine ⟨hgoing.of_same rfl rfl rfl fun _ => id, h.handle, ?_,
          fun hholds => absurd hholds hfree⟩
        intro found hfound
        rcases List.mem_append.mp hfound with hfound | hfound
        · exact h.readers found hfound
        · cases List.mem_singleton.mp hfound
  | fetch reader =>
      simp only [Step, Fsck.step] at hstep
      split at hstep
      · next hentered =>
        rw [Option.some.injEq] at hstep
        subst hstep
        have hfound : s.handle.or s.disk.dbPath = s.disk.dbPath := by
          cases hhandle : s.handle with
          | none => rfl
          | some index => exact (h.handle index hhandle).symm
        have hfree : s.phase.holdsBarrier ≠ true := by
          intro hholds
          rw [h.alone hholds] at hentered
          cases hentered
        rw [hfound]
        refine ⟨hgoing.of_same rfl rfl rfl fun hholds => absurd hholds hfree, fun _ => id, ?_,
          fun hholds => absurd hholds hfree⟩
        intro found hmem
        rcases List.mem_or_eq_of_mem_set hmem with hmem | heq
        · exact h.readers found hmem
        · exact (Reader.opened.inj heq)
      · cases hstep
  | leave reader =>
      simp only [Step, Fsck.step, Option.some.injEq] at hstep
      subst hstep
      refine ⟨hgoing.of_same rfl rfl rfl fun _ => id, h.handle, ?_, ?_⟩
      · intro found hfound
        exact h.readers found (List.mem_of_mem_eraseIdx hfound)
      · intro hholds
        have hnone : s.readers = [] := h.alone hholds
        change s.readers.eraseIdx reader = []
        rw [hnone]
        rfl
  | drop =>
      simp only [Step, Fsck.step, Option.some.injEq] at hstep
      subst hstep
      refine ⟨hgoing.of_same rfl rfl rfl fun _ _ => rfl, ?_, h.readers, h.alone⟩
      intro index hindex
      cases hindex

theorem nodup_directories (huniq : UniquePaths [] t.tree) :
    ((directories [] t.tree).map Prod.fst).Nodup := by
  refine huniq.sublist ?_
  rw [directories, List.map_filterMap]
  induction t.tree.entries [] with
  | nil => exact .slnil
  | cons entry entries ih =>
      obtain ⟨path, n⟩ := entry
      cases n with
      | directory d => exact ih.cons_cons _
      | file f => exact ih.cons _
      | vnode v => exact ih.cons _
      | commit c => exact ih.cons _

theorem perm_directories : (collectDirHashes t.tree).Perm (directories [] t.tree) :=
  perm_collectDirHashes (Stored.held t.stored_tree).leafy

theorem indexOf_fresh (huniq : UniquePaths [] t.tree) : IndexOf t (fresh t) := by
  intro path hash
  rw [fresh, KeyedMap.lookup_insertAll_empty_iff, perm_directories.mem_iff]
  exact (perm_directories.map Prod.fst).nodup_iff.mpr (nodup_directories huniq)

theorem Sound.rebuilt (h : Sound t s) (huniq : UniquePaths [] t.tree)
    {stats : RebuildDirHashesStats} (hphase : s.phase = .returned stats) :
    Rebuilt t s.disk.dbPath stats := by
  have hgoing := h.going
  rw [hphase] at hgoing
  rcases hgoing with ⟨hdb, rfl⟩
  exact ⟨⟨fresh t, hdb, indexOf_fresh huniq⟩, rfl, perm_directories.length_eq⟩

/-- As long as a rebuild is going on, only its first rename takes the index away. -/
theorem Sound.oldOrNew (h : Sound t s) (huniq : UniquePaths [] t.tree) (hne : s.phase ≠ .idle)
    (htook : s.phase.tookIndex = false) : OldOrNew t s.before s.disk.dbPath := by
  have hgoing := h.going
  cases hphase : s.phase with
  | idle => exact absurd hphase hne
  | removeNew pairs =>
      rw [hphase] at hgoing
      exact .inl hgoing.2
  | removeOld pairs =>
      rw [hphase] at hgoing
      exact .inl hgoing.2.1
  | openNew pairs =>
      rw [hphase] at hgoing
      exact .inl hgoing.2.1
  | write pairs successfulWrites =>
      rw [hphase] at hgoing
      exact .inl hgoing.1
  | lock successfulWrites =>
      rw [hphase] at hgoing
      exact .inl hgoing.1
  | evict successfulWrites =>
      rw [hphase] at hgoing
      exact .inl hgoing.1
  | renameOld successfulWrites =>
      rw [hphase] at hgoing
      exact .inl hgoing.1
  | renameNew hadExisting successfulWrites =>
      rw [hphase] at hgoing htook
      rcases hgoing with ⟨hdb, hhad, -⟩
      have hnone : s.before.isSome = false := hhad.symm.trans htook
      left
      rw [hdb, Option.isSome_eq_false_iff, Option.isNone_iff_eq_none] at *
      exact hnone.symm
  | removeReplaced hadExisting successfulWrites =>
      rw [hphase] at hgoing
      exact .inr ⟨fresh t, hgoing.1, indexOf_fresh huniq⟩
  | returned stats =>
      rw [hphase] at hgoing
      exact .inr ⟨fresh t, hgoing.1, indexOf_fresh huniq⟩

theorem tookIndex_of_not_between {phase : Phase} (h : phase.isBetween = false) :
    phase.tookIndex = false := by
  cases phase with
  | renameNew hadExisting successfulWrites => cases h
  | _ => rfl

/-- It is enough that the index is there when no rebuild is going on. -/
theorem Sound.intact_iff (h : Sound t s) (huniq : UniquePaths [] t.tree) :
    Intact t s ↔ (s.phase = .idle → OldOrNew t s.before s.disk.dbPath) := by
  constructor
  · intro hintact hidle
    apply hintact.kept
    rw [hidle]
    rfl
  · intro hidle
    have hkept : s.phase.isBetween = false → OldOrNew t s.before s.disk.dbPath := by
      intro hbetween
      by_cases hphase : s.phase = .idle
      · exact hidle hphase
      · exact h.oldOrNew huniq hphase (tookIndex_of_not_between hbetween)
    refine ⟨fun stats hphase => h.rebuilt huniq hphase, hkept, fun found hfound => ?_⟩
    rw [h.readers found hfound]
    apply hkept
    cases hphase : s.phase with
    | renameNew hadExisting successfulWrites =>
        rw [h.alone (by rw [hphase]; rfl)] at hfound
        cases hfound
    | _ => rfl

theorem rebuild_not_idle {commit : CommitNode} (h : rebuild db fuel commit s = some s') :
    s'.phase ≠ .idle := by
  intro hidle
  cases hphase : s.phase with
  | idle | returned stats =>
      simp only [rebuild, hphase, Option.map_eq_some_iff] at h
      rcases h with ⟨root, -, rfl⟩
      cases hidle
  | write pairs successfulWrites =>
      cases pairs with
      | nil =>
          simp only [rebuild, hphase] at h
          cases h
          cases hidle
      | cons pair pairs =>
          simp only [rebuild, hphase] at h
          cases h
          cases hidle
  | lock successfulWrites =>
      simp only [rebuild, hphase] at h
      split at h
      · cases h
        cases hidle
      · cases h
  | renameOld successfulWrites =>
      simp only [rebuild, hphase] at h
      split at h
      · rcases Option.map_eq_some_iff.mp h with ⟨index, -, rfl⟩
        cases hidle
      · cases h
        cases hidle
  | renameNew hadExisting successfulWrites =>
      simp only [rebuild, hphase, Option.map_eq_some_iff] at h
      rcases h with ⟨index, -, rfl⟩
      cases hidle
  | removeNew pairs | removeOld pairs | openNew pairs | evict successfulWrites
  | removeReplaced hadExisting successfulWrites =>
      simp only [rebuild, hphase] at h
      cases h
      cases hidle

/-- The steps that end a rebuild leave the disk as it is. -/
theorem ends_of_step {commit : CommitNode} (hends : action = .fail ∨ action = .stop)
    (h : Step db fuel commit action s s') :
    s'.phase = .idle ∧ s'.disk = s.disk ∧ s'.before = s.before := by
  rcases hends with rfl | rfl
  · simp only [Step, step] at h
    split at h
    · cases h
    · rw [Option.some.injEq] at h
      subst h
      exact ⟨rfl, rfl, rfl⟩
  · simp only [Step, step, Option.some.injEq] at h
    subst h
    exact ⟨rfl, rfl, rfl⟩

/-- Other steps get to a state without a rebuild only from such a state. -/
theorem idle_of_step {commit : CommitNode} (h : Step db fuel commit action s s')
    (hends : ¬ (action = .fail ∨ action = .stop)) (hidle : s'.phase = .idle) :
    s.phase = .idle ∧ s'.disk = s.disk ∧ s'.before = s.before := by
  cases action with
  | rebuild => exact absurd hidle (rebuild_not_idle h)
  | shrinkNew left =>
      simp only [Step, step] at h
      split at h
      · next pairs other hphase hnew =>
        cases h
        cases hphase.symm.trans hidle
      · cases h
  | shrinkOld left =>
      simp only [Step, step] at h
      split at h
      · next pairs other hphase hold =>
        cases h
        cases hphase.symm.trans hidle
      · next successfulWrites other hphase hold =>
        cases h
        cases hphase.symm.trans hidle
      · cases h
  | keepReplaced =>
      simp only [Step, step] at h
      split at h
      · cases h
        cases hidle
      · cases h
  | fail => exact absurd (.inl rfl) hends
  | stop => exact absurd (.inr rfl) hends
  | enter =>
      simp only [Step, step] at h
      split at h
      · cases h
      · cases h
        exact ⟨hidle, rfl, rfl⟩
  | fetch reader =>
      simp only [Step, step] at h
      split at h
      · cases h
        exact ⟨hidle, rfl, rfl⟩
      · cases h
  | leave reader =>
      cases h
      exact ⟨hidle, rfl, rfl⟩
  | drop =>
      cases h
      exact ⟨hidle, rfl, rfl⟩

theorem Sound.intact_step (h : Sound t s) (huniq : UniquePaths [] t.tree)
    (hroot : getRootWithChildren db fuel t.commit = some t.tree) (hintact : Intact t s)
    (hstep : Step db fuel t.commit action s s') : Intact t s' ↔ Spares action s := by
  rw [(h.step hroot hstep).intact_iff huniq]
  by_cases hends : action = .fail ∨ action = .stop
  · rcases ends_of_step hends hstep with ⟨hidle, hdisk, hbefore⟩
    rw [hdisk, hbefore, Spares]
    constructor
    · intro hkept _
      cases hphase : s.phase with
      | renameNew hadExisting successfulWrites =>
          have hgoing := h.going
          rw [hphase] at hgoing
          rcases hgoing with ⟨hdb, rfl, -⟩
          -- The index is gone: it is the old one only if there was none.
          rcases hkept hidle with hsame | ⟨index, hfound, -⟩
          · rw [Phase.tookIndex, ← hsame, hdb]
            rfl
          · rw [hdb] at hfound
            cases hfound
      | _ => rfl
    · intro hspares _
      by_cases hphase : s.phase = .idle
      · apply hintact.kept
        rw [hphase]
        rfl
      · exact h.oldOrNew huniq hphase (hspares hends)
  · constructor
    · intro _ hends'
      exact absurd hends' hends
    · intro _ hidle
      rcases idle_of_step hstep hends hidle with ⟨hphase, hdisk, hbefore⟩
      rw [hdisk, hbefore]
      exact (h.intact_iff huniq).mp hintact hphase

theorem sound_start (disk : IndexDisk) : Sound t { disk } where
  going := trivial
  handle index hindex := by cases hindex
  readers found hfound := by cases hfound
  alone := free

theorem intact_start (huniq : UniquePaths [] t.tree) (disk : IndexDisk) : Intact t { disk } :=
  ((sound_start disk).intact_iff huniq).mpr fun _ => .inl rfl

theorem sound_run {actions : List Action} {disk : IndexDisk} (hfuel : t.tree.size ≤ fuel)
    (h : Run (Step db fuel t.commit) actions { disk } s) : Sound t s :=
  h.keeps (fun _ _ _ hstep hs => hs.step (getRootWithChildren_of_stored t hfuel) hstep)
    (sound_start disk)

/-- A step that does not end a rebuild between its two renames with the index taken away. -/
structure SparingStep (db : NodeStore) (fuel : ℕ) (commit : CommitNode) (action : Action)
    (s s' : State) : Prop where
  step : Step db fuel commit action s s'
  spares : Spares action s

theorem intact_run {actions : List Action} {disk : IndexDisk} (huniq : UniquePaths [] t.tree)
    (hfuel : t.tree.size ≤ fuel)
    (h : Run (SparingStep db fuel t.commit) actions { disk } s) : Sound t s ∧ Intact t s := by
  have hroot := getRootWithChildren_of_stored t hfuel
  have hkeep : ∀ action s s', SparingStep db fuel t.commit action s s' →
      Sound t s ∧ Intact t s → Sound t s' ∧ Intact t s' := by
    intro action s s' hstep hs
    refine ⟨hs.1.step hroot hstep.step, ?_⟩
    exact (hs.1.intact_step huniq hroot hs.2 hstep.step).mpr hstep.spares
  have hkept := h.keeps hkeep ⟨sound_start disk, intact_start huniq disk⟩
  exact hkept

/-! ## A rebuild that nothing disturbs -/

theorem run_rebuild {commit : CommitNode} {middle : State} {actions : List Action}
    (h : rebuild db fuel commit s = some middle)
    (hrest : Run (Step db fuel commit) actions middle s') :
    Run (Step db fuel commit) (.rebuild :: actions) s s' :=
  .cons h hrest

theorem run_write {commit : CommitNode} {index : DirHashes} {successfulWrites : ℕ}
    (pairs : List (PathBuf × MerkleHash)) (hphase : s.phase = .write pairs successfulWrites)
    (hnew : s.disk.newPath = some index) :
    Run (Step db fuel commit) (List.replicate pairs.length .rebuild) s
      { s with
        disk := { s.disk with newPath := some (KeyedMap.insertAll index pairs) }
        phase := .write [] (successfulWrites + pairs.length) } := by
  induction pairs generalizing s index successfulWrites with
  | nil =>
      have hsame : s = { s with
          disk := { s.disk with newPath := some (KeyedMap.insertAll index []) }
          phase := .write [] (successfulWrites + 0) } := by
        rw [KeyedMap.insertAll, Nat.add_zero, ← hnew, ← hphase]
      exact hsame ▸ .nil s
  | cons pair pairs ih =>
      have hput : rebuild db fuel commit s = some { s with
          disk := { s.disk with newPath := some (index.insert pair.1 pair.2) }
          phase := .write pairs (successfulWrites + 1) } := by
        simp only [rebuild, hphase, hnew, Option.map_some]
      have hrest := @ih { s with
        disk := { s.disk with newPath := some (index.insert pair.1 pair.2) }
        phase := .write pairs (successfulWrites + 1) } _ _ rfl rfl
      rw [Nat.add_assoc, Nat.add_comm 1] at hrest
      exact run_rebuild hput hrest

/-- It gets to its second rename, with the index that it found renamed. -/
theorem run_renameNew (hroot : getRootWithChildren db fuel t.commit = some t.tree)
    (hover : s.phase.isOver = true) (hreaders : s.readers = []) :
    ∃ actions, Run (Step db fuel t.commit) actions s
      { disk := { newPath := some (fresh t), oldPath := s.disk.dbPath }
        phase := .renameNew s.disk.dbPath.isSome (collectDirHashes t.tree).length
        before := s.disk.dbPath } := by
  have hbegin : rebuild db fuel t.commit s = some { s with
      phase := .removeNew (collectDirHashes t.tree), before := s.disk.dbPath } := by
    cases hphase : s.phase with
    | idle | returned stats => simp only [rebuild, hphase, hroot, Option.map_some]
    | _ =>
        rw [hphase] at hover
        cases hover
  have hwrite := @run_write db fuel { s with
      disk := { s.disk with newPath := some ∅, oldPath := none }
      phase := .write (collectDirHashes t.tree) 0
      before := s.disk.dbPath } t.commit ∅ 0 (collectDirHashes t.tree) rfl rfl
  have hlock : rebuild db fuel t.commit { s with
      disk := { s.disk with newPath := some (fresh t), oldPath := none }
      phase := .lock (0 + (collectDirHashes t.tree).length)
      before := s.disk.dbPath } = some { s with
      disk := { s.disk with newPath := some (fresh t), oldPath := none }
      phase := .evict (0 + (collectDirHashes t.tree).length)
      before := s.disk.dbPath } := by
    simp only [rebuild, hreaders, List.isEmpty_nil, if_true]
  have hrename : rebuild db fuel t.commit { s with
      disk := { s.disk with newPath := some (fresh t), oldPath := none }
      phase := .renameOld (0 + (collectDirHashes t.tree).length)
      handle := none
      before := s.disk.dbPath } = some {
      disk := { newPath := some (fresh t), oldPath := s.disk.dbPath }
      phase := .renameNew s.disk.dbPath.isSome (collectDirHashes t.tree).length
      before := s.disk.dbPath } := by
    rw [Nat.zero_add, ← hreaders]
    cases hdb : s.disk.dbPath with
    | none => simp only [rebuild, hdb, Option.isSome_none, Bool.false_eq_true, if_false]
    | some index =>
        simp only [rebuild, hdb, rename, Option.isSome_none, Option.isSome_some,
          Bool.false_eq_true, if_false, if_true, Option.map_some]
  refine ⟨_, run_rebuild hbegin (run_rebuild rfl (run_rebuild rfl (run_rebuild rfl
    (hwrite.append (run_rebuild rfl (run_rebuild hlock (run_rebuild rfl
      (run_rebuild hrename (.nil _)))))))))⟩

theorem run_returned (hroot : getRootWithChildren db fuel t.commit = some t.tree)
    (hover : s.phase.isOver = true) (hreaders : s.readers = []) :
    ∃ actions s' stats,
      Run (Step db fuel t.commit) actions s s' ∧ s'.phase = .returned stats := by
  rcases run_renameNew hroot hover hreaders with ⟨actions, hrun⟩
  exact ⟨_, _, _, hrun.append (run_rebuild rfl (run_rebuild rfl (.nil _))), rfl⟩

/-- Every rebuild that returns leaves the index of the tree, whatever happened before. Readers
and stopped rebuilds find the old or the new index exactly as long as no rebuild ends between
its two renames with the old index taken away. -/
theorem rebuild_intact_iff (t : CommitTree db) (huniq : UniquePaths [] t.tree)
    (hfuel : t.tree.size ≤ fuel) (disk : IndexDisk) :
    (∀ actions s, Run (Step db fuel t.commit) actions { disk } s →
      ∀ stats, s.phase = .returned stats → Rebuilt t s.disk.dbPath stats) ∧
    ∀ actions s, Run (SparingStep db fuel t.commit) actions { disk } s →
      Intact t s ∧ ∀ action s', Step db fuel t.commit action s s' →
        (Intact t s' ↔ Spares action s) := by
  constructor
  · intro actions s hrun stats hphase
    exact (sound_run hfuel hrun).rebuilt huniq hphase
  · intro actions s hrun
    rcases intact_run huniq hfuel hrun with ⟨hsound, hintact⟩
    refine ⟨hintact, fun action s' hstep => ?_⟩
    exact hsound.intact_step huniq (getRootWithChildren_of_stored t hfuel) hintact hstep

end Runs

open CommitMerkleTree.DataExample in
theorem root_data : getRootWithChildren nodes 10 commitTree.commit = some commitTree.tree :=
  getRootWithChildren_of_stored commitTree (by decide)

open CommitMerkleTree.DataExample in
/-- The commit has no index at first, and a rebuild makes it. -/
theorem rebuild_data : ∃ actions s stats,
    Run (Step nodes 10 commitTree.commit) actions { disk := {} } s ∧ s.phase = .returned stats ∧
      Rebuilt commitTree s.disk.dbPath stats := by
  rcases @run_returned nodes 10 commitTree { disk := {} } root_data rfl rfl with
    ⟨actions, s, stats, hrun, hphase⟩
  exact ⟨actions, s, stats, hrun, hphase,
    (rebuild_intact_iff commitTree (by decide) (by decide) {}).1 actions s hrun
      stats hphase⟩

open CommitMerkleTree.DataExample in
/-- The process ends between the two renames of a rebuild of a complete index. -/
theorem not_intact : ¬ ∀ actions s, Run (Step nodes 10 commitTree.commit) actions
    { disk := { dbPath := some dirIndex.dirHashes } } s → Intact commitTree s := by
  intro h
  rcases @run_renameNew nodes 10 commitTree { disk := { dbPath := some dirIndex.dirHashes } }
    root_data rfl rfl with ⟨actions, hrun⟩
  have hstop : Run (Step nodes 10 commitTree.commit) (actions ++ [.stop])
      { disk := { dbPath := some dirIndex.dirHashes } }
      { disk := { newPath := some (fresh commitTree), oldPath := some dirIndex.dirHashes }
        phase := .idle
        before := some dirIndex.dirHashes } := hrun.append (.cons rfl (.nil _))
  rcases (h _ _ hstop).kept rfl with hsame | ⟨index, hfound, -⟩
  · cases hsame
  · cases hfound

end Fsck

end Oxen
