import Oxen.Model.CommitWriter

/-! The children that a directory gets from its staged entries. -/

namespace Oxen

namespace CommitWriter

variable {directory : PathBuf} {newChildren : List StagedMerkleTreeNode} {path : PathBuf}
  {dir dir' : DirChildren}

/-- The stored children of a directory. -/
def storedChildren (db : NodeStore) (dirHashes : DirHashes) (directory : PathBuf) :
    KeyedMap.Map PathBuf StagedMerkleTreeNode :=
  ((existingNode db dirHashes directory).map (getNodeDirChildren db directory)).getD ∅

/-- The full path of a staged entry. -/
def fullPath (directory : PathBuf) (child : StagedMerkleTreeNode) : PathBuf :=
  if directory ≠ [] ∧ ¬ directory <+: child.path then directory ++ child.path else child.path

/-- Whether a path is staged in a directory. -/
def StagedIn (directory : PathBuf) (newChildren : List StagedMerkleTreeNode) (path : PathBuf) :
    Prop :=
  ∃ child ∈ newChildren, child.path ≠ [] ∧ fullPath directory child = path

/-- The staged entry under its full path. -/
def completed (directory : PathBuf) (child : StagedMerkleTreeNode) : StagedMerkleTreeNode :=
  if directory ≠ [] ∧ ¬ directory <+: child.path then child.setName (directory ++ child.path)
  else child

theorem path_completed {directory : PathBuf} {child : StagedMerkleTreeNode} (h : child.path ≠ []) :
    (completed directory child).path = fullPath directory child := by
  rw [completed, fullPath]
  split
  · obtain ⟨status, node⟩ := child
    cases node with
    | file f => rfl
    | directory d => rfl
    | vnode v => exact absurd rfl h
    | commit c => exact absurd rfl h
  · rfl

theorem updateChildren_of_ne (dir : DirChildren) {directory : PathBuf}
    {child : StagedMerkleTreeNode} (h : child.path ≠ []) :
    updateChildren directory dir child =
      match (completed directory child).status with
      | .removed =>
          { children := dir.children.erase (completed directory child).path
            removed := KeyedMap.insertNew dir.removed (completed directory child).path
              (completed directory child) }
      | _ => { dir with
          children := dir.children.insert (completed directory child).path
            (completed directory child) } := by
  rw [updateChildren, if_neg h]
  rfl

theorem updateChildren_eq (dir : DirChildren) {directory : PathBuf} {child : StagedMerkleTreeNode}
    (h : child.path ≠ []) :
    updateChildren directory dir child =
      if (completed directory child).status = .removed then
        { children := dir.children.erase (fullPath directory child)
          removed := KeyedMap.insertNew dir.removed (fullPath directory child)
            (completed directory child) }
      else { dir with
        children := dir.children.insert (fullPath directory child) (completed directory child) } := by
  rw [updateChildren_of_ne dir h, path_completed h]
  cases (completed directory child).status with
  | removed => rfl
  | _ => rfl

/-- One staged entry decides its own path and leaves the others. -/
theorem lookup_updateChildren (dir : DirChildren) {directory : PathBuf}
    {child : StagedMerkleTreeNode} (h : child.path ≠ []) (path : PathBuf) :
    (updateChildren directory dir child).children.lookup path =
      if path = fullPath directory child then
        if (completed directory child).status = .removed then none
        else some (completed directory child)
      else dir.children.lookup path := by
  rw [updateChildren_eq dir h]
  by_cases hpath : path = fullPath directory child
  · rw [if_pos hpath, hpath]
    split
    · rw [AList.lookup_erase]
    · rw [AList.lookup_insert]
  · rw [if_neg hpath]
    split
    · rw [AList.lookup_erase_ne hpath]
    · rw [AList.lookup_insert_ne hpath]

/-- What is not staged stays. -/
theorem lookup_foldl_of_not_stagedIn (h : ¬ StagedIn directory newChildren path) :
    (newChildren.foldl (updateChildren directory) dir).children.lookup path =
      dir.children.lookup path := by
  induction newChildren generalizing dir with
  | nil => rfl
  | cons child newChildren ih =>
      rw [List.foldl_cons, ih fun ⟨c, hc, hstaged⟩ => h ⟨c, List.mem_cons_of_mem _ hc, hstaged⟩]
      by_cases hchild : child.path = []
      · rw [updateChildren, if_pos hchild]
      · rw [lookup_updateChildren dir hchild, if_neg]
        exact fun heq => h ⟨child, List.mem_cons_self, hchild, heq.symm⟩

/-- What is staged does not depend on what was there. -/
theorem lookup_foldl_congr
    (h : StagedIn directory newChildren path ∨ dir'.children.lookup path = dir.children.lookup path) :
    (newChildren.foldl (updateChildren directory) dir').children.lookup path =
      (newChildren.foldl (updateChildren directory) dir).children.lookup path := by
  induction newChildren generalizing dir dir' with
  | nil =>
      rcases h with ⟨child, hchild, -⟩ | h
      · cases hchild
      · exact h
  | cons child newChildren ih =>
      rw [List.foldl_cons, List.foldl_cons]
      apply ih
      by_cases hchild : child.path = []
      · rw [updateChildren, if_pos hchild, updateChildren, if_pos hchild]
        rcases h with ⟨c, hc, hne, hpath⟩ | h
        · rcases List.mem_cons.mp hc with rfl | hc
          · exact absurd hchild hne
          · exact .inl ⟨c, hc, hne, hpath⟩
        · exact .inr h
      · rw [lookup_updateChildren dir hchild, lookup_updateChildren dir' hchild]
        by_cases hpath : path = fullPath directory child
        · simp [hpath]
        · rw [if_neg hpath, if_neg hpath]
          rcases h with ⟨c, hc, hne, hpath'⟩ | h
          · rcases List.mem_cons.mp hc with rfl | hc
            · exact absurd hpath'.symm hpath
            · exact .inl ⟨c, hc, hne, hpath'⟩
          · exact .inr h

theorem removed_foldl_congr (h : dir'.removed = dir.removed) :
    (newChildren.foldl (updateChildren directory) dir').removed =
      (newChildren.foldl (updateChildren directory) dir).removed := by
  induction newChildren generalizing dir dir' with
  | nil => exact h
  | cons child newChildren ih =>
      rw [List.foldl_cons, List.foldl_cons]
      apply ih
      by_cases hchild : child.path = []
      · rw [updateChildren, if_pos hchild, updateChildren, if_pos hchild, h]
      · rw [updateChildren_eq dir hchild, updateChildren_eq dir' hchild]
        split
        · rw [h]
        · exact h

end CommitWriter

end Oxen
