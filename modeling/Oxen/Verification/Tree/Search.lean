import Oxen.Model.TreeSearch
import Oxen.Verification.Tree.Occurs
import Oxen.Verification.Tree.Shape

/-! A search finds something exactly at the paths of the entries below the node,
counted from that node. -/

namespace Oxen

namespace MerkleTreeNode

variable {traversed path : PathBuf}

/-- Entries lie below the path of the node. -/
theorem prefix_of_mem_entries {t : MerkleTreeNode} {p : PathBuf} {e : EMerkleTreeNode}
    (h : (p, e) ∈ t.entries traversed) : traversed <+: p := by
  induction t generalizing traversed with
  | mk n cs ih =>
      rw [entries_mk, List.mem_append, List.mem_flatMap] at h
      rcases h with h | ⟨c, hc, h⟩
      · cases n with
        | file f =>
            obtain ⟨rfl, -⟩ : p = traversed ++ f.name ∧ _ := by simpa [ entry?] using h
            exact List.prefix_append traversed f.name
        | directory d =>
            obtain ⟨rfl, -⟩ : p = traversed ++ d.name ∧ _ := by simpa [ entry?] using h
            exact List.prefix_append traversed d.name
        | vnode v => simp [ entry?] at h
        | commit c => simp [ entry?] at h
      · have hbelow := ih c hc h
        cases n with
        | file f => exact (List.prefix_append traversed f.name).trans hbelow
        | directory d => exact (List.prefix_append traversed d.name).trans hbelow
        | vnode v => exact hbelow
        | commit c => exact hbelow

theorem getByPathChild_isSome {children : List MerkleTreeNode} {index : ℕ}
    (h : (getByPathChild traversed path index children).isSome) :
    ∃ c ∈ children, (getByPathHelper (traversedTo traversed c) path c).isSome := by
  induction children generalizing index with
  | nil =>
      rw [getByPathChild] at h
      cases h
  | cons c children ih =>
      cases index with
      | zero => exact ⟨c, List.mem_cons_self, by rwa [getByPathChild] at h⟩
      | succ index =>
          rw [getByPathChild] at h
          rcases ih h with ⟨c', hc', hsome⟩
          exact ⟨c', List.mem_cons_of_mem c hc', hsome⟩

theorem getByPathChildren_isSome {children : List MerkleTreeNode} :
    (getByPathChildren traversed path children).isSome ↔
      ∃ c ∈ children, (getByPathHelper (traversedTo traversed c) path c).isSome := by
  induction children with
  | nil => simp [getByPathChildren]
  | cons c children ih =>
      rw [getByPathChildren, Option.isSome_or, Bool.or_eq_true, ih]
      simp

/-- The binary search only finds what the search of all children finds. -/
theorem getByPathHelper_isSome (n : EMerkleTreeNode) (children : List MerkleTreeNode) :
    (getByPathHelper traversed path (.mk n children)).isSome ↔
      traversed.length ≤ path.length ∧ (isAtPath traversed path n = true ∨
        ∃ c ∈ children, (getByPathHelper (traversedTo traversed c) path c).isSome) := by
  rw [getByPathHelper]
  by_cases hlen : path.length < traversed.length
  · rw [if_pos hlen]
    simp [hlen]
  · rw [if_neg hlen, and_iff_right (not_lt.mp hlen)]
    by_cases hat : isAtPath traversed path n = true
    · rw [if_pos hat]
      simp [hat]
    · rw [if_neg hat, or_iff_right hat]
      cases searchedChild path children n with
      | none => exact getByPathChildren_isSome
      | some index =>
          simp only [Option.isSome_or, Bool.or_eq_true, getByPathChildren_isSome]
          constructor
          · rintro (h | h)
            · exact getByPathChild_isSome h
            · exact h
          · exact .inr

theorem exists_entry_iff (n : EMerkleTreeNode) (children : List MerkleTreeNode) :
    (∃ e, (path, e) ∈ (mk n children).entries traversed) ↔
      isAtPath (traversedTo traversed (.mk n children)) path n = true ∨
        ∃ c ∈ children, ∃ e, (path, e) ∈ c.entries (n.ownPath traversed) := by
  simp only [entries_mk, List.mem_append, List.mem_flatMap]
  constructor
  · rintro ⟨e, h | ⟨c, hc, h⟩⟩
    · apply Or.inl
      cases n with
      | file f => simp_all [ entry?, isAtPath, traversedTo]
      | directory d => simp_all [ entry?, isAtPath, traversedTo]
      | vnode v => simp [ entry?] at h
      | commit c => simp [ entry?] at h
    · exact .inr ⟨c, hc, e, h⟩
  · rintro (h | ⟨c, hc, e, h⟩)
    · cases n with
      | file f => exact ⟨.file f, .inl (by simpa [ entry?, isAtPath, traversedTo, eq_comm] using h)⟩
      | directory d =>
        exact ⟨.directory d, .inl (by simpa [ entry?, isAtPath, traversedTo, eq_comm] using h)⟩
      | vnode v => cases h
      | commit c => cases h
    · exact ⟨e, .inr ⟨c, hc, h⟩⟩

theorem length_le_of_isAtPath {n : EMerkleTreeNode} (h : isAtPath traversed path n = true) :
    traversed.length ≤ path.length := by
  cases n with
  | file f =>
      obtain rfl : traversed ++ f.name = path := by simpa [isAtPath] using h
      rw [List.length_append]
      exact Nat.le_add_right _ _
  | directory d =>
      obtain rfl : traversed = path := by simpa [isAtPath] using h
      exact le_rfl
  | vnode v => cases h
  | commit c => cases h

/-- What a search in a node finds, when it finds at the right paths in the children. -/
theorem getByPathHelper_isSome_of_children {n : EMerkleTreeNode} {children : List MerkleTreeNode}
    (h : ∀ c ∈ children, (getByPathHelper (traversedTo traversed c) path c).isSome ↔
      ∃ e, (path, e) ∈ c.entries traversed) :
    (getByPathHelper traversed path (.mk n children)).isSome ↔
      isAtPath traversed path n = true ∨ ∃ c ∈ children, ∃ e, (path, e) ∈ c.entries traversed := by
  have hchildren : (∃ c ∈ children, (getByPathHelper (traversedTo traversed c) path c).isSome) ↔
      ∃ c ∈ children, ∃ e, (path, e) ∈ c.entries traversed :=
    exists_congr fun c => and_congr_right fun hc => h c hc
  rw [MerkleTreeNode.getByPathHelper_isSome, hchildren]
  refine ⟨And.right, fun hfound => ⟨?_, hfound⟩⟩
  rcases hfound with hat | ⟨c, -, e, he⟩
  · exact length_le_of_isAtPath hat
  · exact (prefix_of_mem_entries he).length_le

/-- The search below a node finds something at the paths of its entries. -/
theorem Leafy.getByPathHelper_isSome {t : MerkleTreeNode} (h : t.Leafy)
    (traversed path : PathBuf) :
    (getByPathHelper (traversedTo traversed t) path t).isSome ↔
      ∃ e, (path, e) ∈ t.entries traversed := by
  induction t generalizing traversed with
  | mk n cs ih =>
      rw [getByPathHelper_isSome_of_children fun c hc => ih c hc (h.child c hc) _, exists_entry_iff]
      cases n with
      | file f =>
          obtain rfl := leafy_file h
          simp
      | directory d => rfl
      | vnode v => rfl
      | commit c => rfl

/-- A search starts at the directory itself, whatever its name is. -/
theorem Leafy.getByPath_isSome {d : DirNode} {vnodes : List MerkleTreeNode}
    (h : (mk (.directory d) vnodes).Leafy) (path : PathBuf) :
    ((mk (.directory d) vnodes).getByPath path).isSome ↔
      path = [] ∨ ∃ c ∈ vnodes, ∃ e, (path, e) ∈ c.entries [] := by
  rw [getByPath, getByPathHelper_isSome_of_children fun c hc =>
    (h.child c hc).getByPathHelper_isSome [] path]
  simp [isAtPath, eq_comm]

/-! ## What is found -/

theorem getByPathChild_eq_some {u : MerkleTreeNode} {children : List MerkleTreeNode} {index : ℕ}
    (h : getByPathChild traversed path index children = some u) :
    ∃ c ∈ children, getByPathHelper (traversedTo traversed c) path c = some u := by
  induction children generalizing index with
  | nil => cases h
  | cons c children ih =>
      cases index with
      | zero => exact ⟨c, List.mem_cons_self, h⟩
      | succ index =>
          rcases ih h with ⟨c', hc', hu⟩
          exact ⟨c', List.mem_cons_of_mem c hc', hu⟩

theorem getByPathChildren_eq_some {u : MerkleTreeNode} {children : List MerkleTreeNode}
    (h : getByPathChildren traversed path children = some u) :
    ∃ c ∈ children, getByPathHelper (traversedTo traversed c) path c = some u := by
  induction children with
  | nil => cases h
  | cons c children ih =>
      rw [getByPathChildren, Option.or_eq_some_iff] at h
      rcases h with h | ⟨-, h⟩
      · exact ⟨c, List.mem_cons_self, h⟩
      · rcases ih h with ⟨c', hc', hu⟩
        exact ⟨c', List.mem_cons_of_mem c hc', hu⟩

/-- The search ends at the node or goes on in one of its children. -/
theorem getByPathHelper_eq_some {n : EMerkleTreeNode} {children : List MerkleTreeNode}
    {u : MerkleTreeNode} (h : getByPathHelper traversed path (.mk n children) = some u) :
    (isAtPath traversed path n = true ∧ u = .mk n children) ∨
      ∃ c ∈ children, getByPathHelper (traversedTo traversed c) path c = some u := by
  rw [getByPathHelper] at h
  split at h
  · cases h
  · split at h
    · rename_i hat
      exact .inl ⟨hat, (Option.some.inj h).symm⟩
    · right
      split at h
      · exact getByPathChildren_eq_some h
      · rcases Option.or_eq_some_iff.mp h with h | ⟨-, h⟩
        · exact getByPathChild_eq_some h
        · exact getByPathChildren_eq_some h

/-- The node that is found is the entry at the path. -/
theorem Leafy.mem_subtrees_of_getByPathHelper {t u : MerkleTreeNode} (h : t.Leafy)
    (hu : getByPathHelper (traversedTo traversed t) path t = some u) :
    ∃ q, (q, u) ∈ t.subtrees traversed ∧ entry? (q, u) = some (path, u.node) := by
  induction t generalizing traversed with
  | mk n cs ih =>
      rcases getByPathHelper_eq_some hu with ⟨hat, rfl⟩ | ⟨c, hc, hu⟩
      · refine ⟨traversed, self_mem_subtrees traversed _, ?_⟩
        cases n with
        | file f =>
            have hp : traversed ++ f.name = path := of_decide_eq_true hat
            rw [ entry?, hp, node_mk]
        | directory d =>
            have hp : traversed ++ d.name = path := of_decide_eq_true hat
            rw [ entry?, hp, node_mk]
        | vnode v => cases hat
        | commit c => cases hat
      · have hpath : traversedTo traversed (mk n cs) = n.ownPath traversed := by
          cases n with
          | file f =>
              obtain rfl := leafy_file h
              cases hc
          | directory d => rfl
          | vnode v => rfl
          | commit c => rfl
        rw [hpath] at hu
        rcases ih c hc (h.child c hc) hu with ⟨q, hq, he⟩
        refine ⟨q, ?_, he⟩
        rw [subtrees_mk, List.mem_cons, List.mem_flatMap]
        exact .inr ⟨c, hc, hq⟩

theorem eq_of_fileNode? {t : MerkleTreeNode} {f : FileNode} (h : t.fileNode? = some f) :
    ∃ cs, t = .mk (.file f) cs := by
  obtain ⟨n, cs⟩ := t
  cases n with
  | file g =>
      obtain rfl := Option.some.inj h
      exact ⟨cs, rfl⟩
  | directory d => cases h
  | vnode v => cases h
  | commit c => cases h

/-- A search in a tree without two entries at one path finds the file at the path. -/
theorem Leafy.getByPath_file_iff {t : MerkleTreeNode} (h : t.Leafy)
    (huniq : UniquePaths [] t) (hroot : traversedTo [] t = []) {f : FileNode} :
    (t.getByPath path).bind fileNode? = some f ↔ (path, f) ∈ t.files [] := by
  have hfound := h.getByPathHelper_isSome [] path
  have hsound := fun u (hu : getByPathHelper (traversedTo [] t) path t = some u) =>
    h.mem_subtrees_of_getByPathHelper hu
  rw [hroot] at hfound
  simp only [hroot] at hsound
  constructor
  · intro hget
    rcases Option.bind_eq_some_iff.mp hget with ⟨u, hu, hf⟩
    rcases eq_of_fileNode? hf with ⟨cs, rfl⟩
    rcases hsound _ hu with ⟨q, hq, he⟩
    exact mem_files_iff.mpr ⟨q, cs, hq, (Prod.mk.inj (Option.some.inj he)).1.symm⟩
  · intro hf
    rcases Option.isSome_iff_exists.mp (hfound.mpr ⟨_, mem_entries_of_file hf⟩) with ⟨u, hu⟩
    rcases hsound u hu with ⟨q, hq, he⟩
    have hnode := huniq.eq_of_mem (mem_entries_of_mem_subtrees hq he) (mem_entries_of_file hf)
    obtain ⟨n, ds⟩ := u
    obtain rfl : n = .file f := hnode
    exact Option.bind_eq_some_iff.mpr ⟨_, hu, rfl⟩

end MerkleTreeNode

end Oxen
