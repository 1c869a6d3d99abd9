import Oxen.Model.MoveFile
import Oxen.Verification.Staging.Unstage

/-! Moving a file moves exactly that file when it is only staged and nothing is staged where it
goes. -/

namespace Oxen

namespace MoveFile

open Unstage

/-! ## Effective trees -/

variable (getFileByPath : PathBuf → Option FileNode)

def rename (path : PathBuf) (node : FileNode) : FileNode :=
  { node with name := path }

/-- The commit's file at a path, under its full path. -/
def committed (path : PathBuf) : Option FileNode :=
  (getFileByPath path).map (rename path)

/-- The commit's files with the staged ones applied. Directory entries change no file. -/
def effective (db : StagedDb) (path : PathBuf) : Option FileNode :=
  match db.lookup path with
  | some { status, node := .file node } =>
      if status = .removed then none else some (rename path node)
  | _ => committed getFileByPath path

/-- The tree with one file moved. -/
def moved (tree : PathBuf → Option FileNode) (path newPath : PathBuf) : PathBuf → Option FileNode :=
  fun k => if k = newPath then (tree path).map (rename newPath)
    else if k = path then none
    else tree k

/-- A directory above a path. -/
def Above (dir path : PathBuf) : Prop :=
  dir <+: path ∧ dir ≠ path

instance (dir path : PathBuf) : Decidable (Above dir path) :=
  inferInstanceAs (Decidable (_ ∧ _))

variable {getFileByPath} {db : StagedDb} {path newPath dir k : PathBuf}

@[simp] theorem rename_rename (node : FileNode) : rename k (rename path node) = rename k node := rfl

theorem map_rename_effective :
    (effective getFileByPath db k).map (rename k) = effective getFileByPath db k := by
  unfold effective committed
  split
  · split_ifs <;> rfl
  · rw [Option.map_map]
    rfl

/-- Moving a file and moving it back leaves the tree as it was. -/
theorem moved_moved (hnew : effective getFileByPath db newPath = none) (hne : path ≠ newPath) :
    moved (moved (effective getFileByPath db) path newPath) newPath path =
      effective getFileByPath db := by
  funext k
  unfold moved
  rcases eq_or_ne k path with rfl | hk
  · rw [if_pos rfl, if_pos rfl, Option.map_map]
    exact map_rename_effective
  · rw [if_neg hk]
    rcases eq_or_ne k newPath with rfl | hk'
    · rw [if_pos rfl, hnew]
    · rw [if_neg hk', if_neg hk', if_neg hk]

theorem effective_of_none (h : db.lookup path = none) :
    effective getFileByPath db path = committed getFileByPath path := by
  rw [effective, h]

theorem effective_of_dir {entry : StagedMerkleTreeNode} (h : db.lookup path = some entry)
    (hnode : entry.node = defaultDirFromPath k) :
    effective getFileByPath db path = committed getFileByPath path := by
  cases entry
  cases hnode
  rw [effective, h]

theorem effective_of_file {status : StagedEntryStatus} {node : FileNode}
    (h : db.lookup path = some { status, node := .file node }) :
    effective getFileByPath db path =
      if status = .removed then none else some (rename path node) := by
  rw [effective, h]

/-! ## One move -/

/-- What a move needs, and the file it finds. -/
structure Starts (getFileByPath : PathBuf → Option FileNode) (db : StagedDb)
    (path newPath : PathBuf) (node : FileNode) : Prop where
  ne : path ≠ newPath
  source : sourceNode getFileByPath db path = .ok node
  free : db.lookup newPath = none

theorem mv_error (h : ∀ node, ¬ Starts getFileByPath db path newPath node) :
    ∃ e, mv getFileByPath db path newPath = (.error e, db) := by
  by_cases hne : path = newPath
  · exact ⟨_, if_pos hne⟩
  rw [mv, if_neg hne]
  cases hsource : sourceNode getFileByPath db path with
  | error e => exact ⟨e, rfl⟩
  | ok node =>
      have hstaged : (db.lookup newPath).isSome := by
        rw [← Option.ne_none_iff_isSome]
        exact fun hfree => h node ⟨hne, hsource, hfree⟩
      exact ⟨_, if_pos hstaged⟩

/-- A move that starts succeeds, with the directories above what it stages. -/
theorem mv_of_starts {node : FileNode} (h : Starts getFileByPath db path newPath node) :
    (mv getFileByPath db path newPath).1 = .ok () ∧
      ∀ k, (mv getFileByPath db path newPath).2.lookup k =
        if Above k newPath ∨ ((getFileByPath path).isSome ∧ Above k path) then
          some { status := .added, node := defaultDirFromPath k }
        else if k = path then
          if (getFileByPath path).isSome then
            some { status := .removed, node := .file (rename path node) }
          else none
        else if k = newPath then
          some { status := if (getFileByPath newPath).isSome then .modified else .added
                 node := .file (rename newPath node) }
        else db.lookup k := by
  have hfree : ¬ (db.lookup newPath).isSome = true := by simp [h.free]
  unfold mv
  simp only [if_neg h.ne, h.source, if_neg hfree, true_and]
  intro k
  cases hcommitted : (getFileByPath path).isSome with
  | false =>
      simp only [Bool.false_eq_true, if_false, false_and, or_false]
      rw [(lookup_addParents _ _).1]
      simp only [List.not_mem_nil, not_false_eq_true, and_true, ← Above.eq_def]
      by_cases hnew : Above k newPath
      · rw [if_pos hnew, if_pos hnew]
      · rw [if_neg hnew, if_neg hnew]
        rcases eq_or_ne k path with rfl | hk
        · rw [AList.lookup_erase, if_pos rfl]
        · rw [AList.lookup_erase_ne hk, if_neg hk]
          rcases eq_or_ne k newPath with rfl | hk'
          · rw [if_pos rfl]
            exact AList.lookup_insert _
          · rw [if_neg hk']
            exact AList.lookup_insert_ne hk'
  | true =>
      simp only [if_true, true_and]
      simp only [(lookup_addParents _ _).1, (lookup_addParents _ _).2, List.not_mem_nil,
        not_false_eq_true, and_true, or_false, ← Above.eq_def]
      by_cases hold : Above k path
      · simp only [hold, not_true_eq_false, and_false, if_false, if_true, or_true]
      · simp only [hold, not_false_eq_true, and_true, if_false, or_false]
        by_cases hnew : Above k newPath
        · rw [if_pos hnew, if_pos hnew]
        · rw [if_neg hnew, if_neg hnew]
          rcases eq_or_ne k path with rfl | hk
          · rw [if_pos rfl]
            exact AList.lookup_insert _
          · rw [if_neg hk, upsertFileNode, AList.lookup_insert_ne hk]
            rcases eq_or_ne k newPath with rfl | hk'
            · rw [if_pos rfl]
              exact AList.lookup_insert _
            · rw [if_neg hk']
              exact AList.lookup_insert_ne hk'

theorem effective_of_source {node : FileNode} (h : sourceNode getFileByPath db path = .ok node)
    (heffective : effective getFileByPath db path ≠ none) :
    effective getFileByPath db path = some (rename path node) := by
  unfold sourceNode at h
  cases hlookup : db.lookup path with
  | none =>
      rw [effective_of_none hlookup, committed]
      rw [hlookup] at h
      cases hget : getFileByPath path with
      | none =>
          rw [hget] at h
          cases h
      | some committedNode =>
          rw [hget] at h
          cases h
          rfl
  | some entry =>
      rcases entry with ⟨status, node⟩
      rw [hlookup] at h
      cases node with
      | file staged =>
          cases h
          rw [effective_of_file hlookup] at heffective ⊢
          split_ifs at heffective ⊢
          · exact absurd rfl heffective
          · rfl
      | directory _ => cases h
      | vnode _ => cases h
      | commit _ => cases h

/-- A file that is only staged goes where it should, except that nothing is left of what is staged
at the directories above. -/
theorem effective_mv {node : FileNode} (h : Starts getFileByPath db path newPath node)
    (heffective : effective getFileByPath db path ≠ none) (hcommitted : getFileByPath path = none) :
    effective getFileByPath (mv getFileByPath db path newPath).2 k =
      if Above k newPath then committed getFileByPath k
      else moved (effective getFileByPath db) path newPath k := by
  have hlookup := (mv_of_starts h).2 k
  simp only [hcommitted, Option.isSome_none, Bool.false_eq_true, false_and, or_false,
    if_false] at hlookup
  by_cases habove : Above k newPath
  · rw [if_pos habove] at hlookup ⊢
    exact effective_of_dir hlookup rfl
  · rw [if_neg habove] at hlookup ⊢
    unfold moved
    rcases eq_or_ne k path with rfl | hk
    · rw [if_pos rfl] at hlookup
      rw [effective_of_none hlookup, if_neg h.ne, if_pos rfl, committed, hcommitted]
      rfl
    · rw [if_neg hk] at hlookup
      rcases eq_or_ne k newPath with rfl | hk'
      · rw [if_pos rfl] at hlookup
        have hstatus : (if (getFileByPath k).isSome then StagedEntryStatus.modified else .added) ≠
            .removed := by
          split_ifs
          · exact StagedEntryStatus.noConfusion
          · exact StagedEntryStatus.noConfusion
        rw [effective_of_file hlookup, if_neg hstatus, if_pos rfl,
          effective_of_source h.source heffective]
        rfl
      · rw [if_neg hk'] at hlookup
        rw [if_neg hk', if_neg hk]
        unfold effective
        rw [hlookup]

/-! ## Moving a file and moving it back -/

/-- A move of a file moves exactly that file, and moving it back restores the tree. -/
structure Moves (getFileByPath : PathBuf → Option FileNode) (db : StagedDb)
    (path newPath : PathBuf) : Prop where
  succeeds : (mv getFileByPath db path newPath).1 = .ok ()
  exact : effective getFileByPath (mv getFileByPath db path newPath).2 =
    moved (effective getFileByPath db) path newPath
  returns : (mv getFileByPath (mv getFileByPath db path newPath).2 newPath path).1 = .ok ()
  restores : effective getFileByPath
      (mv getFileByPath (mv getFileByPath db path newPath).2 newPath path).2 =
    effective getFileByPath db

/-- When a file is moved exactly: it is only staged, nothing is staged at its new path, and what
is staged at the directories above the two is what the commit has there. -/
structure Movable (getFileByPath : PathBuf → Option FileNode) (db : StagedDb)
    (path newPath : PathBuf) : Prop where
  only_staged : getFileByPath path = none
  free : db.lookup newPath = none
  dirs : ∀ dir, Above dir path ∨ Above dir newPath →
    effective getFileByPath db dir = committed getFileByPath dir

section Back

variable (heffective : effective getFileByPath db path ≠ none)
  (hnew : effective getFileByPath db newPath = none)
  (habove : ∀ dir, Above dir newPath → effective getFileByPath db dir = none)

include heffective hnew in
theorem path_ne_newPath : path ≠ newPath := by
  rintro rfl
  exact heffective hnew

include heffective habove in
theorem not_above_newPath : ¬ Above path newPath :=
  fun h => heffective (habove path h)

include heffective hnew habove in
/-- What is moved can be moved back if the commit does not have it. -/
theorem starts_back {node : FileNode} (h : Starts getFileByPath db path newPath node)
    (hcommitted : getFileByPath path = none) :
    Starts getFileByPath (mv getFileByPath db path newPath).2 newPath path (rename newPath node) ∧
      getFileByPath newPath = none := by
  have hlookup := (mv_of_starts h).2
  simp only [hcommitted, Option.isSome_none, Bool.false_eq_true, false_and, or_false,
    if_false] at hlookup
  refine ⟨⟨h.ne.symm, ?_, ?_⟩, ?_⟩
  · unfold sourceNode
    rw [hlookup, if_neg fun h => h.2 rfl, if_neg h.ne.symm, if_pos rfl]
  · rw [hlookup, if_neg (not_above_newPath heffective habove), if_pos rfl]
  · rw [effective_of_none h.free, committed, Option.map_eq_none_iff] at hnew
    exact hnew

include heffective habove in
theorem not_moves_of_committed (hcommitted : getFileByPath path ≠ none) :
    ¬ Moves getFileByPath db path newPath := by
  intro hmoves
  by_cases hstarts : ∃ node, Starts getFileByPath db path newPath node
  · rcases hstarts with ⟨node, hstarts⟩
    have hlookup := (mv_of_starts hstarts).2 path
    have hself : ¬ Above path path := fun h => h.2 rfl
    have hnotAbove := not_above_newPath heffective habove
    rw [if_neg (by tauto), if_pos rfl, if_pos (Option.ne_none_iff_isSome.mp hcommitted)] at hlookup
    -- The old path is staged as removed, which keeps anything from going there.
    rcases @mv_error getFileByPath _ newPath path fun back hback =>
        (by cases hlookup.symm.trans hback.free) with ⟨e, he⟩
    have hreturns := hmoves.returns
    rw [he] at hreturns
    cases hreturns
  · rcases mv_error (not_exists.mp hstarts) with ⟨e, he⟩
    have hsucceeds := hmoves.succeeds
    rw [he] at hsucceeds
    cases hsucceeds

include heffective hnew in
/-- What is only staged can be moved where nothing is staged. -/
theorem starts_of_staged (hcommitted : getFileByPath path = none)
    (hfree : db.lookup newPath = none) : ∃ node, Starts getFileByPath db path newPath node := by
  have hne := path_ne_newPath heffective hnew
  cases hlookup : db.lookup path with
  | none =>
      rw [effective_of_none hlookup, committed, hcommitted] at heffective
      exact absurd rfl heffective
  | some entry =>
      rcases entry with ⟨status, node⟩
      cases node with
      | file node => exact ⟨node, hne, by rw [sourceNode, hlookup], hfree⟩
      | directory node | vnode node | commit node =>
          unfold effective committed at heffective
          simp only [hlookup, hcommitted] at heffective
          exact absurd rfl heffective

include heffective hnew habove in
theorem moves_iff :
    Moves getFileByPath db path newPath ↔ Movable getFileByPath db path newPath := by
  by_cases hcommitted : getFileByPath path = none
  case neg =>
    exact iff_of_false (not_moves_of_committed heffective habove hcommitted)
      fun hmovable => hcommitted hmovable.only_staged
  by_cases hfree : db.lookup newPath = none
  case neg =>
    refine iff_of_false (fun hmoves => ?_) fun hmovable => hfree hmovable.free
    rcases @mv_error getFileByPath db path newPath fun node hstarts => hfree hstarts.free with
      ⟨e, he⟩
    have hsucceeds := hmoves.succeeds
    rw [he] at hsucceeds
    cases hsucceeds
  rcases starts_of_staged heffective hnew hcommitted hfree with ⟨node, hstarts⟩
  rcases starts_back heffective hnew habove hstarts hcommitted with ⟨hback, hnewCommitted⟩
  have hmoved (k : PathBuf) := effective_mv (k := k) hstarts heffective hcommitted
  have hne := path_ne_newPath heffective hnew
  have hthere : moved (effective getFileByPath db) path newPath newPath ≠ none := by
    rw [moved, if_pos rfl, Ne, Option.map_eq_none_iff]
    exact heffective
  have hbackMoved (k : PathBuf) := effective_mv (k := k) hback (by
    rwa [hmoved, if_neg fun h => h.2 rfl]) hnewCommitted
  constructor
  · intro hmoves
    refine ⟨hcommitted, hfree, fun dir hdir => ?_⟩
    rcases hdir with hdir | hdir
    · have hrestores := congrFun hmoves.restores dir
      rw [hbackMoved, if_pos hdir] at hrestores
      exact hrestores.symm
    · have hexact := congrFun hmoves.exact dir
      rw [hmoved, if_pos hdir, moved, if_neg hdir.2, if_neg] at hexact
      · exact hexact.symm
      · rintro rfl
        exact not_above_newPath heffective habove hdir
  · intro hmovable
    have hexact : effective getFileByPath (mv getFileByPath db path newPath).2 =
        moved (effective getFileByPath db) path newPath := by
      funext k
      rw [hmoved]
      split
      · next hdir =>
        rw [moved, if_neg hdir.2, if_neg, hmovable.dirs k (.inr hdir)]
        rintro rfl
        exact not_above_newPath heffective habove hdir
      · rfl
    refine ⟨(mv_of_starts hstarts).1, hexact, (mv_of_starts hback).1, ?_⟩
    funext k
    rw [hbackMoved, hexact, moved_moved hnew hne]
    split
    · next hdir => exact (hmovable.dirs k (.inl hdir)).symm
    · rfl

end Back

/-! ## Moving what is not there -/

/-- A file is staged at the path, removed or not. -/
def HasFileEntry (db : StagedDb) (path : PathBuf) : Prop :=
  ∃ status node, db.lookup path = some { status, node := .file node }

theorem refuses_iff (hnone : effective getFileByPath db path = none) :
    ((∃ e, (mv getFileByPath db path newPath).1 = .error e) ∧
        (mv getFileByPath db path newPath).2 = db) ↔
      (HasFileEntry db path → path = newPath ∨ db.lookup newPath ≠ none) := by
  constructor
  · rintro ⟨⟨e, he⟩, -⟩ ⟨status, node, hlookup⟩
    by_contra hnot
    have hstarts : Starts getFileByPath db path newPath node :=
      ⟨fun h => hnot (.inl h), by rw [sourceNode, hlookup], by_contra fun h => hnot (.inr h)⟩
    cases (mv_of_starts hstarts).1.symm.trans he
  · intro h
    have hnot : ∀ node, ¬ Starts getFileByPath db path newPath node := by
      intro node hstarts
      have hentry : HasFileEntry db path := by
        have hsource := hstarts.source
        unfold sourceNode at hsource
        cases hlookup : db.lookup path with
        | none =>
            rw [effective_of_none hlookup, committed, Option.map_eq_none_iff] at hnone
            rw [hlookup, hnone] at hsource
            cases hsource
        | some entry =>
            rcases entry with ⟨status, node⟩
            rw [hlookup] at hsource
            cases node with
            | file staged => exact ⟨status, staged, hlookup⟩
            | directory _ | vnode _ | commit _ => cases hsource
      rcases h hentry with heq | hstaged
      · exact hstarts.ne heq
      · exact hstaged hstarts.free
    rcases mv_error hnot with ⟨e, he⟩
    rw [he]
    exact ⟨⟨e, rfl⟩, rfl⟩

/-! ## All moves -/

/-- A file that is there is moved to a path that is free, and one that is not there is refused. -/
structure MovesExactly (getFileByPath : PathBuf → Option FileNode) (db : StagedDb)
    (path newPath : PathBuf) : Prop where
  moves : effective getFileByPath db path ≠ none → effective getFileByPath db newPath = none →
    (∀ dir, Above dir newPath → effective getFileByPath db dir = none) →
      Moves getFileByPath db path newPath
  refuses : effective getFileByPath db path = none →
    (∃ e, (mv getFileByPath db path newPath).1 = .error e) ∧
      (mv getFileByPath db path newPath).2 = db

/-- A move is exact if and only if a file that is there can be moved, and one that is not there is
not staged as removed. -/
theorem movesExactly_iff (getFileByPath : PathBuf → Option FileNode) (db : StagedDb)
    (path newPath : PathBuf) :
    MovesExactly getFileByPath db path newPath ↔
      (effective getFileByPath db path ≠ none → effective getFileByPath db newPath = none →
        (∀ dir, Above dir newPath → effective getFileByPath db dir = none) →
          Movable getFileByPath db path newPath) ∧
      (effective getFileByPath db path = none → HasFileEntry db path →
        path = newPath ∨ db.lookup newPath ≠ none) := by
  constructor
  · intro h
    exact ⟨fun heffective hnew habove =>
        (moves_iff heffective hnew habove).mp (h.moves heffective hnew habove),
      fun hnone => (refuses_iff hnone).mp (h.refuses hnone)⟩
  · rintro ⟨hmovable, hrefuses⟩
    exact ⟨fun heffective hnew habove =>
        (moves_iff heffective hnew habove).mpr (hmovable heffective hnew habove),
      fun hnone => (refuses_iff hnone).mpr (hrefuses hnone)⟩

/-! A workspace whose commit has two files. -/

private def inZoo (path : PathBuf) : Option FileNode :=
  if path = ["cat.png"] ∨ path = ["pets"] then some { name := path, hash := 1 } else none

private def moveIn (db : StagedDb) (path newPath : PathBuf) : StagedDb :=
  (mv inZoo db path newPath).2

private theorem forall_above {path : PathBuf} {tree : PathBuf → Option FileNode}
    (h : ∀ dir ∈ path.inits, dir ≠ path → tree dir = none) :
    ∀ dir, Above dir path → tree dir = none :=
  fun dir hdir => h dir ((List.mem_inits dir path).mpr hdir.1) hdir.2

/-- A file of the commit can not be moved back, a file that was moved away can be moved again, and
a move below a file that was moved away brings that file back. -/
theorem not_movesExactly :
    ¬ MovesExactly inZoo ∅ ["cat.png"] ["dog.png"] ∧
      ¬ MovesExactly inZoo (moveIn ∅ ["cat.png"] ["dog.png"]) ["cat.png"] ["fox.png"] ∧
      ¬ MovesExactly inZoo (moveIn ∅ ["pets"] ["fox.png"]) ["fox.png"] ["pets", "fox.png"] := by
  refine ⟨fun hexact => ?_, fun hexact => ?_, fun hexact => ?_⟩
  · have hmoves := hexact.moves (by decide) (by decide)
      (forall_above (by decide))
    exact absurd hmoves.returns (by decide)
  · rcases (hexact.refuses (by decide)).1 with ⟨e, he⟩
    have hok : (mv inZoo (moveIn ∅ ["cat.png"] ["dog.png"]) ["cat.png"] ["fox.png"]).1 =
        .ok () := by decide
    cases hok.symm.trans he
  · have hmoves := hexact.moves (by decide) (by decide)
      (forall_above (by decide))
    have hpets := congrFun hmoves.exact ["pets"]
    exact absurd hpets (by decide)

end MoveFile

end Oxen
