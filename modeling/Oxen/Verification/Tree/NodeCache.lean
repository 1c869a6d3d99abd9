import Oxen.Lib.Runs
import Oxen.Model.NodeCache

/-! When the caches of the node database cannot be told from reading its files. -/

namespace Oxen

namespace NodeCache

/-- Every read answers what the files answer. -/
structure Transparent (s : State) : Prop where
  fromHash : ∀ hash, (s.fromHash hash).1 = fromHashUncached s.files hash
  readChildrenFromHash : ∀ hash,
    (s.readChildrenFromHash hash).1 = readChildrenFromHashUncached s.files hash

/-- In every state on the way. -/
def Throughout (P : State → Prop) : State → List Call → Prop
  | s, [] => P s
  | s, call :: calls => P s ∧ Throughout P (call.next s) calls

namespace Change

/-- When a change leaves the cached answers for its node right: a rewritten node is cached as
it is written and without children, one that gets a child or is removed has no children
cached, and neither has one with children whose second file arrives. -/
def Meets (s : State) : Change → Prop
  | openReadWrite node parentId =>
      (∀ cached, s.nodeCache.lookup node.hash = some cached →
        cached = ⟨node.hash, node, some (parentId.getD 0)⟩) ∧
      ∀ cached, s.childrenCache.lookup node.hash = some cached → cached = []
  | addChild hash _ => (s.files hash).nodeFile.isSome → (s.files hash).childrenFile.isSome →
      s.childrenCache.lookup hash = none
  | unpackNode hash file => (s.files hash).nodeFile = none →
      (s.files hash).childrenFile.isSome → file.lookup ≠ [] → s.childrenCache.lookup hash = none
  | unpackChildren hash _ => (s.files hash).childrenFile = none →
      ∀ nodeFile ∈ (s.files hash).nodeFile, nodeFile.lookup ≠ [] →
        s.childrenCache.lookup hash = none
  | remove hash => s.nodeCache.lookup hash = none ∧
      ∀ cached, s.childrenCache.lookup hash = some cached → cached = []

end Change

def Call.Meets (s : State) : Call → Prop
  | .write change => change.Meets s
  | .fromHash _ => True
  | .readChildrenFromHash _ => True

/-- All calls of a run meet the condition, each in the state it finds. -/
def AllMeet : State → List Call → Prop
  | _, [] => True
  | s, call :: calls => call.Meets s ∧ AllMeet (call.next s) calls

/-! ## Fresh caches -/

structure Fresh (s : State) : Prop where
  node : LruCache.Fresh (fromHashUncached s.files) s.nodeCache
  children : LruCache.Fresh (readChildrenFromHashUncached s.files) s.childrenCache

theorem transparent_iff_fresh {s : State} : Transparent s ↔ Fresh s := by
  constructor
  · rintro ⟨hnode, hchildren⟩
    exact ⟨LruCache.fresh_iff.mpr hnode, LruCache.fresh_iff.mpr hchildren⟩
  · rintro ⟨hnode, hchildren⟩
    exact ⟨LruCache.fresh_iff.mp hnode, LruCache.fresh_iff.mp hchildren⟩

theorem Fresh.fromHash {s : State} (h : Fresh s) (hash : MerkleHash) :
    Fresh (s.fromHash hash).2 :=
  ⟨h.node.readThrough hash, h.children⟩

theorem Fresh.readChildrenFromHash {s : State} (h : Fresh s) (hash : MerkleHash) :
    Fresh (s.readChildrenFromHash hash).2 :=
  ⟨h.node, h.children.readThrough hash⟩

/-! ## What the files answer after a change -/

section Answers

variable {files : NodeFiles} {hash : MerkleHash}

theorem fromHashUncached_apply_of_ne (change : Change) {other : MerkleHash}
    (hne : other ≠ change.hash) :
    fromHashUncached (change.apply files) other = fromHashUncached files other := by
  simp [fromHashUncached, Change.apply, Function.update_of_ne hne]

theorem readChildrenFromHashUncached_apply_of_ne (change : Change) {other : MerkleHash}
    (hne : other ≠ change.hash) :
    readChildrenFromHashUncached (change.apply files) other =
      readChildrenFromHashUncached files other := by
  simp [readChildrenFromHashUncached, Change.apply, Function.update_of_ne hne]

theorem mapM_length {α β ε : Type} {f : α → Except ε β} {xs : List α} {ys : List β}
    (h : xs.mapM f = .ok ys) : ys.length = xs.length := by
  induction xs generalizing ys with
  | nil =>
      cases h
      rfl
  | cons x xs ih =>
      rw [List.mapM_cons] at h
      obtain ⟨y, -, h⟩ := Runs.bind_eq_ok.mp h
      obtain ⟨rest, hrest, h⟩ := Runs.bind_eq_ok.mp h
      cases h
      rw [List.length_cons, List.length_cons, ih hrest]

theorem map_eq_nil {nodeFile : NodeFile} {data : List EMerkleTreeNode} :
    NodeDir.map nodeFile data = .ok [] ↔ nodeFile.lookup = [] := by
  constructor
  · intro h
    exact List.length_eq_zero_iff.mp (mapM_length h).symm
  · intro h
    rw [NodeDir.map, h]
    rfl

/-! The answers for one directory. -/

@[simp] theorem fromHashUncached_apply (change : Change) :
    fromHashUncached (change.apply files) change.hash =
      (change.applyDir (files change.hash)).fromHashUncached change.hash := by
  rw [fromHashUncached, Change.apply, Function.update_self]

@[simp] theorem readChildrenFromHashUncached_apply (change : Change) :
    readChildrenFromHashUncached (change.apply files) change.hash =
      (change.applyDir (files change.hash)).readChildrenFromHashUncached := by
  rw [readChildrenFromHashUncached, Change.apply, Function.update_self]

theorem fromHashUncached_files (nodeFile : NodeFile) (data : List EMerkleTreeNode) :
    (NodeDir.mk (some nodeFile) (some data)).fromHashUncached hash =
      .ok ⟨hash, nodeFile.node, some nodeFile.parentId⟩ := rfl

theorem readChildrenFromHashUncached_files (nodeFile : NodeFile) (data : List EMerkleTreeNode) :
    (NodeDir.mk (some nodeFile) (some data)).readChildrenFromHashUncached =
      NodeDir.map nodeFile data := rfl

theorem fromHashUncached_of_missing {dir : NodeDir}
    (h : dir.openReadOnly = .error .open) : dir.fromHashUncached hash = .error .open := by
  rw [NodeDir.fromHashUncached, h]

theorem readChildrenFromHashUncached_of_missing {dir : NodeDir}
    (h : dir.openReadOnly = .error .open) : dir.readChildrenFromHashUncached = .ok [] := by
  rw [NodeDir.readChildrenFromHashUncached, h]

theorem openReadOnly_none_node (data : Option (List EMerkleTreeNode)) :
    (NodeDir.mk none data).openReadOnly = .error .open := rfl

theorem openReadOnly_none_children (nodeFile : Option NodeFile) :
    (NodeDir.mk nodeFile none).openReadOnly = .error .open := by
  cases nodeFile <;> rfl

end Answers

/-! ## Steps -/

theorem fresh_write_iff {s : State} (h : Fresh s) (change : Change) :
    Fresh ((Call.write change).next s) ↔
      (∀ cached, s.nodeCache.lookup change.hash = some cached →
        fromHashUncached (change.apply s.files) change.hash = .ok cached) ∧
      ∀ cached, s.childrenCache.lookup change.hash = some cached →
        readChildrenFromHashUncached (change.apply s.files) change.hash = .ok cached := by
  have hnode := h.node.change (@fromHashUncached_apply_of_ne s.files change)
  have hchildren := h.children.change
    (@readChildrenFromHashUncached_apply_of_ne s.files change)
  rw [← hnode, ← hchildren]
  exact ⟨fun h => ⟨h.node, h.children⟩, fun h => ⟨h.1, h.2⟩⟩

theorem meets_openReadWrite {s : State} (node : EMerkleTreeNode) (parentId : Option MerkleHash)
    (h : Fresh s) :
    Fresh ((Call.write (.openReadWrite node parentId)).next s) ↔
      (Change.openReadWrite node parentId).Meets s := by
  rw [fresh_write_iff h, fromHashUncached_apply, readChildrenFromHashUncached_apply]
  have hnil : NodeDir.map ⟨node, parentId.getD 0, []⟩ [] = .ok [] := map_eq_nil.mpr rfl
  simp only [Change.hash, Change.applyDir, fromHashUncached_files,
    readChildrenFromHashUncached_files, hnil, Except.ok.injEq, Change.Meets, eq_comm]

/-- What a fresh cache holds for a directory that it was filled from. -/
theorem Fresh.dir {s : State} (h : Fresh s) {hash : MerkleHash} {dir : NodeDir}
    (hdir : s.files hash = dir) :
    (∀ cached, s.nodeCache.lookup hash = some cached → dir.fromHashUncached hash = .ok cached) ∧
      ∀ cached, s.childrenCache.lookup hash = some cached →
        dir.readChildrenFromHashUncached = .ok cached := by
  subst hdir
  exact ⟨h.node hash, h.children hash⟩

theorem meets_addChild {s : State} (hash : MerkleHash) (item : EMerkleTreeNode) (h : Fresh s) :
    Fresh ((Call.write (.addChild hash item)).next s) ↔ (Change.addChild hash item).Meets s := by
  rw [fresh_write_iff h, fromHashUncached_apply, readChildrenFromHashUncached_apply]
  simp only [Change.hash, Change.applyDir, Change.Meets]
  rcases hdir : s.files hash with ⟨_ | nodeFile, _ | data⟩
  · simpa using h.dir hdir
  · simpa using h.dir hdir
  · simpa using h.dir hdir
  · obtain ⟨hnode, hchildren⟩ := h.dir hdir
    rw [readChildrenFromHashUncached_files] at hchildren
    simp only [Option.isSome_some, forall_const, fromHashUncached_files,
      readChildrenFromHashUncached_files]
    constructor
    · rintro ⟨-, hnew⟩
      cases hcached : s.childrenCache.lookup hash with
      | none => rfl
      | some cached =>
          -- The new child makes the answer longer than the cached one.
          have hold := mapM_length (hchildren cached hcached)
          have hlonger := mapM_length (hnew cached hcached)
          simp only [List.length_append, List.length_singleton] at hlonger
          omega
    · intro hnone
      exact ⟨hnode, by simp [hnone]⟩

/-- The second of the two files arrives. -/
theorem complete_iff {s : State} (h : Fresh s) {hash : MerkleHash}
    (hopen : (s.files hash).openReadOnly = .error .open) (nodeFile : NodeFile)
    (data : List EMerkleTreeNode) :
    ((∀ cached, s.nodeCache.lookup hash = some cached →
        (NodeDir.mk (some nodeFile) (some data)).fromHashUncached hash = .ok cached) ∧
      ∀ cached, s.childrenCache.lookup hash = some cached →
        (NodeDir.mk (some nodeFile) (some data)).readChildrenFromHashUncached = .ok cached) ↔
      (nodeFile.lookup ≠ [] → s.childrenCache.lookup hash = none) := by
  obtain ⟨hnode, hchildren⟩ := h.dir rfl
  rw [fromHashUncached_of_missing hopen] at hnode
  rw [readChildrenFromHashUncached_of_missing hopen] at hchildren
  rw [readChildrenFromHashUncached_files]
  constructor
  · rintro ⟨-, hnew⟩ hlookup
    cases hcached : s.childrenCache.lookup hash with
    | none => rfl
    | some cached =>
        have hnil := Except.ok.inj (hchildren cached hcached)
        exact absurd (map_eq_nil.mp (hnil ▸ hnew cached hcached)) hlookup
  · intro hmeets
    refine ⟨?_, ?_⟩
    · intro cached hcached
      cases hnode cached hcached
    · intro cached hcached
      rw [← Except.ok.inj (hchildren cached hcached), map_eq_nil]
      by_contra hlookup
      simp [hmeets hlookup] at hcached

theorem meets_unpackNode {s : State} (hash : MerkleHash) (file : NodeFile) (h : Fresh s) :
    Fresh ((Call.write (.unpackNode hash file)).next s) ↔
      (Change.unpackNode hash file).Meets s := by
  rw [fresh_write_iff h, fromHashUncached_apply, readChildrenFromHashUncached_apply]
  simp only [Change.hash, Change.applyDir, Change.Meets]
  rcases hdir : s.files hash with ⟨_ | nodeFile, _ | data⟩
  · obtain ⟨hnode, hchildren⟩ := h.dir hdir
    rw [fromHashUncached_of_missing (openReadOnly_none_node _)] at hnode
    rw [readChildrenFromHashUncached_of_missing (openReadOnly_none_node _)] at hchildren
    rw [fromHashUncached_of_missing (openReadOnly_none_children _),
      readChildrenFromHashUncached_of_missing (openReadOnly_none_children _)]
    simpa using And.intro hnode hchildren
  · have hopen : (s.files hash).openReadOnly = .error .open := by
      rw [hdir, openReadOnly_none_node]
    simpa using complete_iff h hopen file data
  · simpa using h.dir hdir
  · simpa using h.dir hdir

theorem meets_unpackChildren {s : State} (hash : MerkleHash) (file : List EMerkleTreeNode)
    (h : Fresh s) :
    Fresh ((Call.write (.unpackChildren hash file)).next s) ↔
      (Change.unpackChildren hash file).Meets s := by
  rw [fresh_write_iff h, fromHashUncached_apply, readChildrenFromHashUncached_apply]
  simp only [Change.hash, Change.applyDir, Change.Meets]
  rcases hdir : s.files hash with ⟨_ | nodeFile, _ | data⟩
  · obtain ⟨hnode, hchildren⟩ := h.dir hdir
    rw [fromHashUncached_of_missing (openReadOnly_none_node _)] at hnode
    rw [readChildrenFromHashUncached_of_missing (openReadOnly_none_node _)] at hchildren
    rw [fromHashUncached_of_missing (openReadOnly_none_node _),
      readChildrenFromHashUncached_of_missing (openReadOnly_none_node _)]
    simpa using And.intro hnode hchildren
  · simpa using h.dir hdir
  · have hopen : (s.files hash).openReadOnly = .error .open := by
      rw [hdir, openReadOnly_none_children]
    simpa using complete_iff h hopen nodeFile file
  · simpa using h.dir hdir

theorem meets_remove {s : State} (hash : MerkleHash) (h : Fresh s) :
    Fresh ((Call.write (.remove hash)).next s) ↔ (Change.remove hash).Meets s := by
  rw [fresh_write_iff h, fromHashUncached_apply, readChildrenFromHashUncached_apply]
  simp only [Change.hash, Change.applyDir, Change.Meets,
    fromHashUncached_of_missing (openReadOnly_none_node _),
    readChildrenFromHashUncached_of_missing (openReadOnly_none_node _)]
  simp [Option.eq_none_iff_forall_ne_some, eq_comm]

theorem fresh_next_iff {s : State} (h : Fresh s) (call : Call) :
    Fresh (call.next s) ↔ call.Meets s := by
  cases call with
  | fromHash hash => exact ⟨fun _ => trivial, fun _ => h.fromHash hash⟩
  | readChildrenFromHash hash => exact ⟨fun _ => trivial, fun _ => h.readChildrenFromHash hash⟩
  | write change =>
      cases change with
      | openReadWrite node parentId => exact meets_openReadWrite node parentId h
      | addChild hash item => exact meets_addChild hash item h
      | unpackNode hash file => exact meets_unpackNode hash file h
      | unpackChildren hash file => exact meets_unpackChildren hash file h
      | remove hash => exact meets_remove hash h

/-! ## Runs -/

theorem throughout_iff_of_fresh {s : State} (h : Fresh s) (calls : List Call) :
    Throughout Transparent s calls ↔ AllMeet s calls := by
  induction calls generalizing s with
  | nil => exact iff_of_true (transparent_iff_fresh.mpr h) trivial
  | cons call calls ih =>
      rw [Throughout, AllMeet, ← fresh_next_iff h call]
      constructor
      · rintro ⟨-, hrest⟩
        have hfresh : Fresh (call.next s) := by
          apply transparent_iff_fresh.mp
          cases calls with
          | nil => exact hrest
          | cons _ _ => exact hrest.1
        exact ⟨hfresh, (ih hfresh).mp hrest⟩
      · rintro ⟨hfresh, hrest⟩
        exact ⟨transparent_iff_fresh.mpr h, (ih hfresh).mpr hrest⟩

def State.start (files : NodeFiles) (capacity : ℕ) : State where
  files := files
  nodeCache := ⟨capacity, []⟩
  childrenCache := ⟨capacity, []⟩

theorem throughout_transparent_iff (files : NodeFiles) (capacity : ℕ) (calls : List Call) :
    Throughout Transparent (State.start files capacity) calls ↔
      AllMeet (State.start files capacity) calls := by
  apply throughout_iff_of_fresh
  exact ⟨LruCache.fresh_of_entries_nil rfl, LruCache.fresh_of_entries_nil rfl⟩

namespace Example

def child : EMerkleTreeNode := .vnode ⟨2, 0⟩

/-- A directory is read before its two files arrive. -/
def readEarly : List Call :=
  [.readChildrenFromHash 1, .write (.unpackNode 1 ⟨.vnode ⟨1, 1⟩, 0, [(2, 0)]⟩),
    .write (.unpackChildren 1 [child])]

def noFiles : NodeFiles := fun _ => ⟨none, none⟩

end Example

theorem not_throughout_transparent : ¬ ∀ (files : NodeFiles) (capacity : ℕ) (calls : List Call),
    1 ≤ capacity → Throughout Transparent (State.start files capacity) calls := by
  intro h
  obtain ⟨-, -, -, hlast⟩ := h Example.noFiles 1 Example.readEarly le_rfl
  have hread := congrArg (fun result => result.toOption.map List.length)
    (hlast.readChildrenFromHash 1)
  revert hread
  decide

end NodeCache

end Oxen
