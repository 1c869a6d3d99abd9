import Mathlib.Data.Set.List
import Oxen.Lib.Changes
import Oxen.Verification.Diff.Listed

/-! The entries that are collected are the changes between the files of the two sides. -/

namespace Oxen

open Changes

/-- What a file is: its contents and its metadata. -/
abbrev Identity := MerkleHash × Option MerkleHash

def FileNode.identity (f : FileNode) : Identity :=
  (f.hash, f.metadataHash)

namespace Diff

variable {base head : Listing} {basePath d p q : PathBuf} {f b : FileNodeWithDir}
  {c : Change Identity}

/-- What the contents of two files say about a path. -/
def contentChange : Option FileNode → Option FileNode → Option (Change Identity)
  | none, none => none
  | none, some head => some (.added head.identity)
  | some _, none => some .removed
  | some base, some head =>
      if head.hash ≠ base.hash then some (.modified head.identity) else none

/-- The file that a side is listed with at a path of the repository. -/
def Listing.fileAt (l : Listing) (basePath p : PathBuf) : Option FileNode :=
  if basePath <+: p then (l.files.get (p.drop basePath.length)).map (·.fileNode) else none

@[simp] theorem Listing.fileAt_append (l : Listing) (basePath key : PathBuf) :
    l.fileAt basePath (basePath ++ key) = (l.files.get key).map (·.fileNode) := by
  rw [Listing.fileAt, if_pos (List.prefix_append _ _), List.drop_left]

/-- The change that an entry stands for. -/
def DiffFileNode.change (entry : DiffFileNode) : Option (PathBuf × Change Identity) :=
  match entry.status, entry.headEntry with
  | .added, some head => some (entry.path, .added head.identity)
  | .removed, none => some (entry.path, .removed)
  | .modified, some head => some (entry.path, .modified head.identity)
  | _, _ => none

/-! ## The three kinds of changes -/

section

variable (base head basePath)

def addedChanges : List (PathBuf × Change Identity) :=
  head.files.elems.filterMap fun f =>
    if base.files.contains f then none else some (basePath ++ f.path, .added f.fileNode.identity)

def removedChanges : List (PathBuf × Change Identity) :=
  base.files.elems.filterMap fun f =>
    if head.files.contains f then none else some (basePath ++ f.path, .removed)

def modifiedChanges : List (PathBuf × Change Identity) :=
  head.files.elems.filterMap fun f =>
    match base.files.get f.path with
    | none => none
    | some b =>
        if f.fileNode.hash ≠ b.fileNode.hash then
          some (basePath ++ f.path, .modified f.fileNode.identity)
        else none

def listedChanges : List (PathBuf × Change Identity) :=
  addedChanges base head basePath ++ removedChanges base head basePath
    ++ modifiedChanges base head basePath

end

theorem map_change_filterMap {α : Type} {l : List α} {g : α → Option DiffFileNode}
    {g' : α → Option (PathBuf × Change Identity)}
    (h : ∀ a ∈ l, (g a).map DiffFileNode.change = (g' a).map some) :
    (l.filterMap g).map DiffFileNode.change = (l.filterMap g').map some := by
  induction l with
  | nil => rfl
  | cons a l ih =>
      have hhead := h a List.mem_cons_self
      have htail := ih fun b hb => h b (List.mem_cons_of_mem a hb)
      rw [List.filterMap_cons, List.filterMap_cons]
      cases hg : g a with
      | none =>
          rw [hg] at hhead
          rw [Option.map_eq_none_iff.mp hhead.symm]
          exact htail
      | some e =>
          rw [hg] at hhead
          rcases Option.map_eq_some_iff.mp hhead.symm with ⟨x, hx, hchange⟩
          rw [hx, List.map_cons, List.map_cons, htail, hchange]

theorem map_change_collectAddedEntries (base head : Listing) (basePath : PathBuf) :
    (collectAddedEntries basePath base.files head.files).map DiffFileNode.change =
      (addedChanges base head basePath).map some := by
  refine map_change_filterMap fun f _ => ?_
  split
  · rfl
  · rfl

theorem map_change_collectRemovedEntries (base head : Listing) (basePath : PathBuf) :
    (collectRemovedEntries basePath base.files head.files).map DiffFileNode.change =
      (removedChanges base head basePath).map some := by
  refine map_change_filterMap fun f _ => ?_
  split
  · rfl
  · rfl

theorem map_change_collectModifiedEntries (base head : Listing) (basePath : PathBuf) :
    (collectModifiedEntries basePath base.files head.files).map DiffFileNode.change =
      (modifiedChanges base head basePath).map some := by
  refine map_change_filterMap fun f _ => ?_
  cases hb : base.files.get f.path with
  | none => rfl
  | some b =>
      dsimp only
      have hpath : b.dir ++ b.fileNode.name = f.path := (KeySet.get_eq_some_iff.mp hb).2
      rw [hpath]
      split
      · rfl
      · rfl

theorem exists_of_perm_map_some {α : Type} {l : List (Option α)} {xs : List α}
    (h : l.Perm (xs.map some)) : ∃ ys : List α, l = ys.map some ∧ ys.Perm xs := by
  have hrange : l ∈ Set.range (List.map (some : α → Option α)) := by
    rw [Set.range_list_map]
    intro x hx
    rcases List.mem_map.mp (h.mem_iff.mp hx) with ⟨y, -, hy⟩
    exact ⟨y, hy⟩
  rcases hrange with ⟨ys, rfl⟩
  exact ⟨ys, rfl, (List.map_perm_map_iff (Option.some_injective _)).mp h⟩

/-- The sorted entries stand for the changes. -/
theorem exists_changes_sortedFiles (base head : Listing) (basePath : PathBuf) :
    ∃ changes : List (PathBuf × Change Identity),
      (sortedFiles base head basePath).map DiffFileNode.change = changes.map some ∧
        changes.Perm (listedChanges base head basePath) := by
  have hperm := (List.perm_insertionSort (fun a b : DiffFileNode => a.path ≤ b.path)
    (collectAddedEntries basePath base.files head.files
      ++ collectRemovedEntries basePath base.files head.files
      ++ collectModifiedEntries basePath base.files head.files)).map DiffFileNode.change
  rw [List.map_append, List.map_append, map_change_collectAddedEntries,
    map_change_collectRemovedEntries, map_change_collectModifiedEntries, ← List.map_append,
    ← List.map_append] at hperm
  exact exists_of_perm_map_some hperm

theorem contentChange_of_mem_addedChanges (h : (p, c) ∈ addedChanges base head basePath) :
    contentChange (base.fileAt basePath p) (head.fileAt basePath p) = some c ∧
      ∃ v, c = .added v := by
  rcases List.mem_filterMap.mp h with ⟨f, hf, hfp⟩
  split at hfp
  · cases hfp
  · next hnot =>
      obtain ⟨rfl, rfl⟩ := Prod.mk.inj (Option.some.inj hfp)
      have hbase : base.files.get f.path = none := by
        simpa [KeySet.contains] using hnot
      have hhead : head.files.get f.path = some f := KeySet.get_eq_some_iff.mpr ⟨hf, rfl⟩
      rw [Listing.fileAt_append, Listing.fileAt_append, hbase, hhead]
      exact ⟨rfl, _, rfl⟩

theorem contentChange_of_mem_removedChanges (h : (p, c) ∈ removedChanges base head basePath) :
    contentChange (base.fileAt basePath p) (head.fileAt basePath p) = some c ∧ c = .removed := by
  rcases List.mem_filterMap.mp h with ⟨f, hf, hfp⟩
  split at hfp
  · cases hfp
  · next hnot =>
      obtain ⟨rfl, rfl⟩ := Prod.mk.inj (Option.some.inj hfp)
      have hhead : head.files.get f.path = none := by
        simpa [KeySet.contains] using hnot
      have hbase : base.files.get f.path = some f := KeySet.get_eq_some_iff.mpr ⟨hf, rfl⟩
      rw [Listing.fileAt_append, Listing.fileAt_append, hbase, hhead]
      exact ⟨rfl, rfl⟩

theorem contentChange_of_mem_modifiedChanges (h : (p, c) ∈ modifiedChanges base head basePath) :
    contentChange (base.fileAt basePath p) (head.fileAt basePath p) = some c ∧
      ∃ v, c = .modified v := by
  rcases List.mem_filterMap.mp h with ⟨f, hf, hfp⟩
  cases hbase : base.files.get f.path with
  | none =>
      rw [hbase] at hfp
      cases hfp
  | some b =>
      rw [hbase] at hfp
      dsimp only at hfp
      split at hfp
      · next hne =>
          obtain ⟨rfl, rfl⟩ := Prod.mk.inj (Option.some.inj hfp)
          have hhead : head.files.get f.path = some f := KeySet.get_eq_some_iff.mpr ⟨hf, rfl⟩
          rw [Listing.fileAt_append, Listing.fileAt_append, hbase, hhead]
          exact ⟨if_pos hne, _, rfl⟩
      · cases hfp

/-- The listed changes are those of the contents at the paths. -/
theorem mem_listedChanges : (p, c) ∈ listedChanges base head basePath ↔
    contentChange (base.fileAt basePath p) (head.fileAt basePath p) = some c := by
  rw [listedChanges, List.mem_append, List.mem_append]
  constructor
  · rintro ((h | h) | h)
    · exact (contentChange_of_mem_addedChanges h).1
    · exact (contentChange_of_mem_removedChanges h).1
    · exact (contentChange_of_mem_modifiedChanges h).1
  · intro h
    by_cases hp : basePath <+: p
    · rcases hp with ⟨key, rfl⟩
      rw [Listing.fileAt_append, Listing.fileAt_append] at h
      cases hbase : base.files.get key with
      | none =>
          cases hhead : head.files.get key with
          | none =>
              rw [hbase, hhead] at h
              cases h
          | some f =>
              rw [hbase, hhead] at h
              obtain rfl := Option.some.inj h
              rcases KeySet.get_eq_some_iff.mp hhead with ⟨hf, rfl⟩
              refine .inl (.inl (List.mem_filterMap.mpr ⟨f, hf, ?_⟩))
              rw [if_neg (by simp [KeySet.contains, hbase])]
      | some b =>
          rcases KeySet.get_eq_some_iff.mp hbase with ⟨hb, hkey⟩
          cases hhead : head.files.get key with
          | none =>
              rw [hbase, hhead] at h
              obtain rfl := Option.some.inj h
              refine .inl (.inr (List.mem_filterMap.mpr ⟨b, hb, ?_⟩))
              rw [hkey, if_neg (by simp [KeySet.contains, hkey, hhead])]
          | some f =>
              rw [hbase, hhead] at h
              rcases KeySet.get_eq_some_iff.mp hhead with ⟨hf, hfkey⟩
              refine .inr (List.mem_filterMap.mpr ⟨f, hf, ?_⟩)
              rw [hfkey, hbase]
              simp only [contentChange, Option.map_some] at h ⊢
              split at h
              · next hne =>
                  obtain rfl := Option.some.inj h
                  rw [if_pos hne]
              · cases h
    · rw [Listing.fileAt, Listing.fileAt, if_neg hp, if_neg hp] at h
      cases h

theorem nodup_listedChanges (base head : Listing) (basePath : PathBuf) :
    ((listedChanges base head basePath).map Prod.fst).Nodup := by
  have hinj : ∀ k k' : PathBuf, basePath ++ k = basePath ++ k' → k = k' :=
    fun k k' => List.append_cancel_left
  have hadded : ((addedChanges base head basePath).map Prod.fst).Nodup := by
    refine head.files.nodup_map_filterMap hinj fun f x hx => ?_
    split at hx
    · cases hx
    · rw [← Option.some.inj hx]
  have hremoved : ((removedChanges base head basePath).map Prod.fst).Nodup := by
    refine base.files.nodup_map_filterMap hinj fun f x hx => ?_
    split at hx
    · cases hx
    · rw [← Option.some.inj hx]
  have hmodified : ((modifiedChanges base head basePath).map Prod.fst).Nodup := by
    refine head.files.nodup_map_filterMap hinj fun f x hx => ?_
    split at hx
    · cases hx
    · split at hx
      · rw [← Option.some.inj hx]
      · cases hx
  rw [listedChanges, List.map_append, List.map_append, List.nodup_append, List.nodup_append]
  refine ⟨⟨hadded, hremoved, ?_⟩, hmodified, ?_⟩
  · intro p hp q hq
    rcases List.mem_map.mp hp with ⟨⟨p, c⟩, hpc, rfl⟩
    rcases List.mem_map.mp hq with ⟨⟨q, c'⟩, hqc, rfl⟩
    rintro rfl
    rcases contentChange_of_mem_addedChanges hpc with ⟨hc, v, rfl⟩
    rcases contentChange_of_mem_removedChanges hqc with ⟨hc', rfl⟩
    cases hc.symm.trans hc'
  · intro p hp q hq
    rcases List.mem_map.mp hq with ⟨⟨q, c'⟩, hqc, rfl⟩
    rcases contentChange_of_mem_modifiedChanges hqc with ⟨hc', v', rfl⟩
    rintro rfl
    rcases List.mem_append.mp hp with hp | hp
    · rcases List.mem_map.mp hp with ⟨⟨p, c⟩, hpc, rfl⟩
      rcases contentChange_of_mem_addedChanges hpc with ⟨hc, v, rfl⟩
      cases hc.symm.trans hc'
    · rcases List.mem_map.mp hp with ⟨⟨p, c⟩, hpc, rfl⟩
      rcases contentChange_of_mem_removedChanges hpc with ⟨hc, rfl⟩
      cases hc.symm.trans hc'

/-! ## Counting -/

def countChanges (changes : List (PathBuf × Change Identity)) : AddRemoveModifyCounts where
  added := changes.countP (·.2.isAdded)
  removed := changes.countP (·.2.isRemoved)
  modified := changes.countP (·.2.isModified)

theorem countChanges_perm {changes changes' : List (PathBuf × Change Identity)}
    (h : changes.Perm changes') : countChanges changes = countChanges changes' := by
  rw [countChanges, countChanges, h.countP_eq, h.countP_eq, h.countP_eq]

theorem countChanges_filter_listedChanges (at' : PathBuf → Bool) :
    countChanges ((listedChanges base head basePath).filter fun x => at' x.1) =
      { added := (addedChanges base head basePath).countP fun x => at' x.1
        removed := (removedChanges base head basePath).countP fun x => at' x.1
        modified := (modifiedChanges base head basePath).countP fun x => at' x.1 } := by
  have hadded : ∀ x ∈ addedChanges base head basePath, x.2.isAdded = true ∧
      x.2.isRemoved = false ∧ x.2.isModified = false := by
    intro x hx
    rcases (contentChange_of_mem_addedChanges hx).2 with ⟨v, hv⟩
    rw [hv]
    exact ⟨rfl, rfl, rfl⟩
  have hremoved : ∀ x ∈ removedChanges base head basePath, x.2.isAdded = false ∧
      x.2.isRemoved = true ∧ x.2.isModified = false := by
    intro x hx
    rw [(contentChange_of_mem_removedChanges hx).2]
    exact ⟨rfl, rfl, rfl⟩
  have hmodified : ∀ x ∈ modifiedChanges base head basePath, x.2.isAdded = false ∧
      x.2.isRemoved = false ∧ x.2.isModified = true := by
    intro x hx
    rcases (contentChange_of_mem_modifiedChanges hx).2 with ⟨v, hv⟩
    rw [hv]
    exact ⟨rfl, rfl, rfl⟩
  have hyes : ∀ (l : List (PathBuf × Change Identity)) (kind : Change Identity → Bool),
      (∀ x ∈ l, kind x.2 = true) → (l.filter fun x => at' x.1).countP (fun x => kind x.2) =
        l.countP fun x => at' x.1 := by
    intro l kind h
    rw [List.countP_filter]
    exact List.countP_congr fun x hx => by simp [h x hx]
  have hno : ∀ (l : List (PathBuf × Change Identity)) (kind : Change Identity → Bool),
      (∀ x ∈ l, kind x.2 = false) → (l.filter fun x => at' x.1).countP (fun x => kind x.2) = 0 := by
    intro l kind h
    rw [List.countP_filter, List.countP_eq_zero]
    intro x hx
    simp [h x hx]
  simp only [countChanges, listedChanges, List.filter_append, List.countP_append,
    AddRemoveModifyCounts.mk.injEq]
  refine ⟨?_, ?_, ?_⟩
  · rw [hyes _ _ fun x hx => (hadded x hx).1, hno _ _ fun x hx => (hremoved x hx).1,
      hno _ _ fun x hx => (hmodified x hx).1, Nat.add_zero]
  · rw [hno _ _ fun x hx => (hadded x hx).2.1, hyes _ _ fun x hx => (hremoved x hx).2.1,
      hno _ _ fun x hx => (hmodified x hx).2.1, Nat.zero_add, Nat.add_zero]
  · rw [hno _ _ fun x hx => (hadded x hx).2.2, hno _ _ fun x hx => (hremoved x hx).2.2,
      hyes _ _ fun x hx => (hmodified x hx).2.2, Nat.zero_add]

/-- The counts of the whole listing. -/
theorem counts_eq (base head : Listing) (basePath : PathBuf) :
    ({ added := (collectAddedEntries basePath base.files head.files).length
       removed := (collectRemovedEntries basePath base.files head.files).length
       modified := (collectModifiedEntries basePath base.files head.files).length } :
        AddRemoveModifyCounts) = countChanges (listedChanges base head basePath) := by
  have hadded := congrArg List.length (map_change_collectAddedEntries base head basePath)
  have hremoved := congrArg List.length (map_change_collectRemovedEntries base head basePath)
  have hmodified := congrArg List.length (map_change_collectModifiedEntries base head basePath)
  have hall := @countChanges_filter_listedChanges base head basePath fun _ => true
  have hfilter : ((listedChanges base head basePath).filter fun _ => true) =
      listedChanges base head basePath := List.filter_eq_self.mpr fun _ _ => rfl
  rw [List.length_map, List.length_map] at hadded hremoved hmodified
  rw [hfilter] at hall
  simp only [List.countP_true] at hall
  rw [hall, hadded, hremoved, hmodified]

/-! ## Counting in a directory -/

/-- The path is strictly below the directory. -/
def isBelow (dir path : PathBuf) : Bool :=
  dir <+: path && dir ≠ path

/-- A file is below the directories that its own directory starts with. -/
theorem isBelow_path (hname : f.fileNode.name.length = 1) :
    isBelow (basePath ++ d) (basePath ++ f.path) = decide (d <+: f.dir) := by
  rcases List.length_eq_one_iff.mp hname with ⟨name, hname⟩
  rw [Bool.eq_iff_iff, decide_eq_true_iff, isBelow, Bool.and_eq_true, decide_eq_true_iff,
    decide_eq_true_iff, List.prefix_append_right_inj, ne_eq, List.append_cancel_left_eq,
    FileNodeWithDir.path, hname]
  constructor
  · rintro ⟨hbelow, hne⟩
    rcases List.prefix_concat_iff.mp hbelow with heq | hbelow
    · exact absurd heq hne
    · exact hbelow
  · intro hbelow
    refine ⟨hbelow.trans (List.prefix_append _ _), fun heq => ?_⟩
    have hle := hbelow.length_le
    rw [heq, List.length_append, List.length_singleton] at hle
    omega

theorem dir_eq_of_path_eq (hf : f.fileNode.name.length = 1) (hb : b.fileNode.name.length = 1)
    (h : b.path = f.path) : b.dir = f.dir :=
  (List.append_inj' h (hb.trans hf.symm)).1

/-- Sets of files with leaf names can be compared directory by directory. -/
theorem get_filter_dir {s : FileSet} (hs : ∀ b ∈ s.elems, b.fileNode.name.length = 1)
    (hf : f.fileNode.name.length = 1) (hd : d <+: f.dir) :
    (s.filter fun b => d <+: b.dir).get f.path = s.get f.path := by
  apply Option.ext
  intro b
  rw [KeySet.get_eq_some_iff, KeySet.get_eq_some_iff]
  constructor
  · rintro ⟨hb, hpath⟩
    exact ⟨(List.mem_filter.mp hb).1, hpath⟩
  · rintro ⟨hb, hpath⟩
    refine ⟨List.mem_filter.mpr ⟨hb, decide_eq_true ?_⟩, hpath⟩
    rwa [dir_eq_of_path_eq hf (hs b hb) hpath]

theorem contains_filter_dir {s : FileSet} (hs : ∀ b ∈ s.elems, b.fileNode.name.length = 1)
    (hf : f.fileNode.name.length = 1) (hd : d <+: f.dir) :
    (s.filter fun b => d <+: b.dir).contains f = s.contains f :=
  congrArg Option.isSome (get_filter_dir hs hf hd)

theorem getD_map_ite {α : Type} (b : Bool) (x : α) (g : α → Bool) :
    ((if b = true then none else some x).map g).getD false = (!b && g x) := by
  cases b
  · rfl
  · rfl

/-- The counts of a directory that both sides have are those of the changes below it. -/
theorem fileCounts_eq (hbase : base.LeafNamed) (hhead : head.LeafNamed) (basePath d : PathBuf) :
    fileCounts base.files head.files d =
      countChanges ((listedChanges base head basePath).filter
        fun x => isBelow (basePath ++ d) x.1) := by
  rw [countChanges_filter_listedChanges, fileCounts]
  simp only [AddRemoveModifyCounts.mk.injEq, addedChanges, removedChanges, modifiedChanges,
    List.countP_filterMap, KeySet.elems_filter, List.countP_filter, getD_map_ite]
  refine ⟨List.countP_congr fun f hf => ?_, List.countP_congr fun f hf => ?_,
    List.countP_congr fun f hf => ?_⟩
  · rw [isBelow_path (hhead f hf)]
    by_cases hd : d <+: f.dir
    · rw [contains_filter_dir hbase (hhead f hf) hd]
    · simp [hd]
  · rw [isBelow_path (hbase f hf)]
    by_cases hd : d <+: f.dir
    · rw [contains_filter_dir hhead (hbase f hf) hd]
    · simp [hd]
  · by_cases hd : d <+: f.dir
    · rw [get_filter_dir hbase (hhead f hf) hd]
      cases base.files.get f.path with
      | none => simp
      | some b =>
          by_cases hne : f.fileNode.hash = b.fileNode.hash
          · simp [hne]
          · simp [hne, Ne.symm hne, isBelow_path (hhead f hf), hd]
    · cases base.files.get f.path with
      | none => simp [hd]
      | some b =>
          by_cases hne : f.fileNode.hash = b.fileNode.hash
          · simp [hne, hd]
          · simp [hne, isBelow_path (hhead f hf), hd]

theorem elems_filter_eq_nil {s : FileSet} (h : ∀ f ∈ s.elems, ¬ d <+: f.dir) :
    (s.filter fun f => d <+: f.dir).elems = [] :=
  List.filter_eq_nil_iff.mpr fun f hf hd => h f hf (of_decide_eq_true hd)

theorem get_of_elems_eq_nil {s : FileSet} (h : s.elems = []) (key : PathBuf) : s.get key = none := by
  rw [KeySet.get_eq_none_iff, h]
  intro f hf
  cases hf

theorem fileCounts_of_base {baseFiles : FileSet} (headFiles : FileSet)
    (h : ∀ f ∈ baseFiles.elems, ¬ d <+: f.dir) :
    fileCounts baseFiles headFiles d =
      { added := headFiles.elems.countP fun f => d <+: f.dir, removed := 0, modified := 0 } := by
  have hnil := elems_filter_eq_nil h
  rw [fileCounts]
  simp only [AddRemoveModifyCounts.mk.injEq, KeySet.contains, get_of_elems_eq_nil hnil, hnil]
  simp [List.countP_eq_length_filter]

theorem fileCounts_of_head (baseFiles : FileSet) {headFiles : FileSet}
    (h : ∀ f ∈ headFiles.elems, ¬ d <+: f.dir) :
    fileCounts baseFiles headFiles d =
      { added := 0, removed := baseFiles.elems.countP fun f => d <+: f.dir, modified := 0 } := by
  have hnil := elems_filter_eq_nil h
  rw [fileCounts]
  simp only [AddRemoveModifyCounts.mk.injEq, KeySet.contains, get_of_elems_eq_nil hnil, hnil]
  simp [List.countP_eq_length_filter]

/-- The counters of the directories that only one side has are the numbers of its files below
them. -/
structure CountersRight (base head : Listing) : Prop where
  added : ∀ d ∈ head.dirs.elems, base.dirs.contains d = false →
    d.dirNode.numFiles = head.files.elems.countP fun f => d.path <+: f.dir
  removed : ∀ d ∈ base.dirs.elems, head.dirs.contains d = false →
    d.dirNode.numFiles = base.files.elems.countP fun f => d.path <+: f.dir

theorem Listing.Covers.not_below {l : Listing} {dir : DirNodeWithPath} (h : l.Covers dir.path)
    (hnot : l.dirs.contains dir = false) : ∀ f ∈ l.files.elems, ¬ dir.path <+: f.dir := by
  intro f hf hdir
  have hmem := KeySet.contains_iff.mpr (h f hf hdir)
  rw [hnot] at hmem
  cases hmem

/-- The summaries of the directories are right exactly when the counters are. -/
theorem summaries_iff (h : WellListed base head) (baseCommit headCommit : CommitNode)
    (basePath : PathBuf) :
    (∀ e ∈ sortedDirs base head baseCommit headCommit basePath,
        e.diffSummary = some (.dir (countChanges
          ((listedChanges base head basePath).filter fun x => isBelow e.filename x.1)))) ↔
      CountersRight base head := by
  have hadded : ∀ d ∈ head.dirs.elems, base.dirs.contains d = false →
      countChanges ((listedChanges base head basePath).filter
        fun x => isBelow (basePath ++ d.path) x.1) =
      { added := head.files.elems.countP fun f => d.path <+: f.dir, removed := 0, modified := 0 } := by
    intro d hd hnot
    rw [← fileCounts_eq h.baseNames h.headNames, fileCounts_of_base _
      ((h.baseCovers d hd).not_below hnot)]
  have hremoved : ∀ d ∈ base.dirs.elems, head.dirs.contains d = false →
      countChanges ((listedChanges base head basePath).filter
        fun x => isBelow (basePath ++ d.path) x.1) =
      { added := 0, removed := base.files.elems.countP fun f => d.path <+: f.dir, modified := 0 } := by
    intro d hd hnot
    rw [← fileCounts_eq h.baseNames h.headNames, fileCounts_of_head _
      ((h.headCovers d hd).not_below hnot)]
  simp only [sortedDirs, List.mem_insertionSort, List.mem_append]
  constructor
  · intro hall
    constructor
    · intro d hd hnot
      have hsummary := hall _ (.inl (.inl (List.mem_filterMap.mpr ⟨d, hd, if_neg (by simp [hnot])⟩)))
      rw [DiffEntry.fromDirNodes] at hsummary
      dsimp only at hsummary
      rw [hadded d hd hnot] at hsummary
      simpa [DirDiffSummary.fromDirNodes] using hsummary
    · intro d hd hnot
      have hsummary := hall _ (.inl (.inr (List.mem_filterMap.mpr ⟨d, hd, if_neg (by simp [hnot])⟩)))
      rw [DiffEntry.fromDirNodes] at hsummary
      dsimp only at hsummary
      rw [hremoved d hd hnot] at hsummary
      simpa [DirDiffSummary.fromDirNodes] using hsummary
  · rintro hright e ((he | he) | he)
    · rcases List.mem_filterMap.mp he with ⟨d, hd, hed⟩
      split at hed
      · cases hed
      · next hnot =>
          rw [Bool.not_eq_true] at hnot
          obtain rfl := Option.some.inj hed
          rw [DiffEntry.fromDirNodes]
          dsimp only
          rw [hadded d hd hnot, DirDiffSummary.fromDirNodes, hright.added d hd hnot]
    · rcases List.mem_filterMap.mp he with ⟨d, hd, hed⟩
      split at hed
      · cases hed
      · next hnot =>
          rw [Bool.not_eq_true] at hnot
          obtain rfl := Option.some.inj hed
          rw [DiffEntry.fromDirNodes]
          dsimp only
          rw [hremoved d hd hnot, DirDiffSummary.fromDirNodes, hright.removed d hd hnot]
    · rcases List.mem_filterMap.mp he with ⟨d, hd, hed⟩
      split at hed
      · cases hed
      · dsimp only at hed
        split at hed
        · obtain rfl := Option.some.inj hed
          rw [DiffEntry.fromDirNodes]
          dsimp only
          rw [fileCounts_eq h.baseNames h.headNames]
        · cases hed

theorem isDir_of_mem_sortedDirs {baseCommit headCommit : CommitNode} {e : DiffEntry}
    (he : e ∈ sortedDirs base head baseCommit headCommit basePath) :
    e.isDir = true ∧ basePath <+: e.filename := by
  rw [sortedDirs, List.mem_insertionSort, List.mem_append, List.mem_append] at he
  rcases he with (he | he) | he
  · rcases List.mem_filterMap.mp he with ⟨d, -, hed⟩
    split at hed
    · cases hed
    · obtain rfl := Option.some.inj hed
      exact ⟨rfl, List.prefix_append _ _⟩
  · rcases List.mem_filterMap.mp he with ⟨d, -, hed⟩
    split at hed
    · cases hed
    · obtain rfl := Option.some.inj hed
      exact ⟨rfl, List.prefix_append _ _⟩
  · rcases List.mem_filterMap.mp he with ⟨d, -, hed⟩
    split at hed
    · cases hed
    · dsimp only at hed
      split at hed
      · obtain rfl := Option.some.inj hed
        exact ⟨rfl, List.prefix_append _ _⟩
      · cases hed

/-! ## The files of the entries -/

/-- An entry has the files that the two sides are listed with at its path, and they differ. -/
theorem files_of_mem_sortedFiles {entry : DiffFileNode}
    (he : entry ∈ sortedFiles base head basePath) :
    entry.baseEntry = base.fileAt basePath entry.path ∧
      entry.headEntry = head.fileAt basePath entry.path ∧
      contentChange entry.baseEntry entry.headEntry ≠ none := by
  rw [sortedFiles, List.mem_insertionSort, List.mem_append, List.mem_append] at he
  rcases he with (he | he) | he
  · rcases List.mem_filterMap.mp he with ⟨f, hf, hfe⟩
    split at hfe
    · cases hfe
    · next hnot =>
        obtain rfl := Option.some.inj hfe
        have hbase : base.files.get f.path = none := by
          simpa [KeySet.contains] using hnot
        have hhead : head.files.get f.path = some f := KeySet.get_eq_some_iff.mpr ⟨hf, rfl⟩
        rw [← FileNodeWithDir.path]
        dsimp only
        rw [Listing.fileAt_append, Listing.fileAt_append, hbase, hhead]
        exact ⟨rfl, rfl, Option.some_ne_none _⟩
  · rcases List.mem_filterMap.mp he with ⟨f, hf, hfe⟩
    split at hfe
    · cases hfe
    · next hnot =>
        obtain rfl := Option.some.inj hfe
        have hhead : head.files.get f.path = none := by
          simpa [KeySet.contains] using hnot
        have hbase : base.files.get f.path = some f := KeySet.get_eq_some_iff.mpr ⟨hf, rfl⟩
        rw [← FileNodeWithDir.path]
        dsimp only
        rw [Listing.fileAt_append, Listing.fileAt_append, hbase, hhead]
        exact ⟨rfl, rfl, Option.some_ne_none _⟩
  · rcases List.mem_filterMap.mp he with ⟨f, hf, hfe⟩
    cases hbase : base.files.get f.path with
    | none =>
        rw [hbase] at hfe
        cases hfe
    | some b =>
        rw [hbase] at hfe
        dsimp only at hfe
        split at hfe
        · next hne =>
            obtain rfl := Option.some.inj hfe
            have hhead : head.files.get f.path = some f := KeySet.get_eq_some_iff.mpr ⟨hf, rfl⟩
            have hpath : b.path = f.path := (KeySet.get_eq_some_iff.mp hbase).2
            rw [← FileNodeWithDir.path, hpath]
            dsimp only
            rw [Listing.fileAt_append, Listing.fileAt_append, hbase, hhead]
            refine ⟨rfl, rfl, ?_⟩
            rw [contentChange, if_pos hne]
            exact Option.some_ne_none _
        · cases hfe

theorem exists_mem_sortedFiles
    (h : contentChange (base.fileAt basePath p) (head.fileAt basePath p) ≠ none) :
    ∃ entry ∈ sortedFiles base head basePath, entry.path = p := by
  rcases Option.ne_none_iff_exists'.mp h with ⟨c, hc⟩
  rcases exists_changes_sortedFiles base head basePath with ⟨changes, hmap, hperm⟩
  have hmem : some (p, c) ∈ (sortedFiles base head basePath).map DiffFileNode.change := by
    rw [hmap]
    exact List.mem_map_of_mem (hperm.mem_iff.mpr (mem_listedChanges.mpr hc))
  rcases List.mem_map.mp hmem with ⟨entry, hentry, hchange⟩
  refine ⟨entry, hentry, ?_⟩
  unfold DiffFileNode.change at hchange
  split at hchange
  · exact (Prod.mk.inj (Option.some.inj hchange)).1
  · exact (Prod.mk.inj (Option.some.inj hchange)).1
  · exact (Prod.mk.inj (Option.some.inj hchange)).1
  · cases hchange

/-! ## How much is listed -/

theorem length_filterMap_add_le {α β γ : Type} {l : List α} {g : α → Option β} {g' : α → Option γ}
    (h : ∀ a ∈ l, g a = none ∨ g' a = none) :
    (l.filterMap g).length + (l.filterMap g').length ≤ l.length := by
  induction l with
  | nil => exact le_rfl
  | cons a l ih =>
      have hrest := ih fun b hb => h b (List.mem_cons_of_mem a hb)
      rcases h a List.mem_cons_self with hg | hg
      · rw [List.filterMap_cons_none hg]
        cases hg' : g' a with
        | none =>
            rw [List.filterMap_cons_none hg']
            exact hrest.trans (Nat.le_succ _)
        | some c =>
            rw [List.filterMap_cons_some hg', List.length_cons, List.length_cons]
            omega
      · rw [List.filterMap_cons_none hg]
        cases hg' : g a with
        | none =>
            rw [List.filterMap_cons_none hg']
            exact hrest.trans (Nat.le_succ _)
        | some c =>
            rw [List.filterMap_cons_some hg', List.length_cons, List.length_cons]
            omega

theorem length_sortedFiles_le (base head : Listing) (basePath : PathBuf) :
    (sortedFiles base head basePath).length ≤ base.length + head.length := by
  have hremoved : (collectRemovedEntries basePath base.files head.files).length ≤
      base.files.elems.length := List.length_filterMap_le _ _
  have hhead : (collectAddedEntries basePath base.files head.files).length +
      (collectModifiedEntries basePath base.files head.files).length ≤
        head.files.elems.length := by
    refine length_filterMap_add_le fun f _ => ?_
    cases hget : base.files.get f.path with
    | none => exact .inr rfl
    | some b => exact .inl (if_pos (by rw [KeySet.contains, hget]; rfl))
  rw [sortedFiles, List.length_insertionSort, List.length_append, List.length_append,
    Listing.length, Listing.length]
  omega

theorem length_sortedDirs_le (base head : Listing) (baseCommit headCommit : CommitNode)
    (basePath : PathBuf) :
    (sortedDirs base head baseCommit headCommit basePath).length ≤ base.length + head.length := by
  have hremoved : (collectRemovedDirectories base.dirs head.dirs baseCommit headCommit
      basePath).length ≤ base.dirs.elems.length := List.length_filterMap_le _ _
  have hhead : (collectAddedDirectories base.dirs head.dirs baseCommit headCommit
      basePath).length + (collectModifiedDirectories base.dirs head.dirs baseCommit headCommit
        basePath base.files head.files).length ≤ head.dirs.elems.length := by
    refine length_filterMap_add_le fun d _ => ?_
    cases hget : base.dirs.get d.path with
    | none => exact .inr rfl
    | some b => exact .inl (if_pos (by rw [KeySet.contains, hget]; rfl))
  rw [sortedDirs, List.length_insertionSort, List.length_append, List.length_append,
    Listing.length, Listing.length]
  omega

end Diff

end Oxen
