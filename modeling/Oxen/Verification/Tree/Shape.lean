import Oxen.Verification.Tree.Loading

/-! The nesting of commit trees: a commit has one root directory, a directory
has virtual nodes, and a virtual node has files and directories. -/

namespace Oxen

namespace MerkleTreeNode

def isVNode : MerkleTreeNode → Bool
  | .mk (.vnode _) _ => true
  | _ => false

/-- A file or directory under a leaf name. -/
def isEntry : MerkleTreeNode → Bool
  | .mk (.file f) _ => f.name.length = 1
  | .mk (.directory d) _ => d.name.length = 1
  | _ => false

/-- The children of a node are of the kind its own kind asks for. -/
def localShape : MerkleTreeNode → Bool
  | .mk (.commit _) [.mk (.directory d) _] => d.name = []
  | .mk (.commit _) _ => false
  | .mk (.directory _) vnodes => vnodes.all isVNode
  | .mk (.vnode _) cs => cs.all isEntry
  | .mk (.file _) _ => true

theorem self_mem_subtrees (path : PathBuf) (t : MerkleTreeNode) : (path, t) ∈ t.subtrees path := by
  cases t
  simp [subtrees_mk]

theorem mem_subtrees_trans {path p q : PathBuf} {s t u : MerkleTreeNode}
    (hs : (p, s) ∈ t.subtrees path) (hu : (q, u) ∈ s.subtrees p) : (q, u) ∈ t.subtrees path := by
  induction t generalizing path with
  | mk n cs ih =>
      rw [subtrees_mk, List.mem_cons, List.mem_flatMap] at hs
      rcases hs with hs | ⟨c, hc, hs⟩
      · obtain ⟨rfl, rfl⟩ := Prod.mk.inj hs
        exact hu
      · rw [subtrees_mk, List.mem_cons, List.mem_flatMap]
        exact .inr ⟨c, hc, ih c hc hs⟩

theorem child_mem_subtrees {path p : PathBuf} {t c : MerkleTreeNode} {n : EMerkleTreeNode}
    {cs : List MerkleTreeNode} (h : (p, mk n cs) ∈ t.subtrees path) (hc : c ∈ cs) :
    (n.ownPath p, c) ∈ t.subtrees path := by
  refine mem_subtrees_trans h ?_
  rw [subtrees_mk, List.mem_cons, List.mem_flatMap]
  exact .inr ⟨c, hc, self_mem_subtrees _ c⟩

theorem mem_subtrees_cases {path p : PathBuf} {s t : MerkleTreeNode}
    (h : (p, s) ∈ t.subtrees path) :
    (p, s) = (path, t) ∨
      ∃ q n cs, (q, mk n cs) ∈ t.subtrees path ∧ s ∈ cs ∧ p = n.ownPath q := by
  induction t generalizing path with
  | mk n cs ih =>
      rw [subtrees_mk, List.mem_cons, List.mem_flatMap] at h
      rcases h with h | ⟨c, hc, h⟩
      · exact .inl h
      · right
        rcases ih c hc h with h | ⟨q, m, ds, hm, hs, hp⟩
        · obtain ⟨rfl, rfl⟩ := Prod.mk.inj h
          exact ⟨path, n, cs, self_mem_subtrees path _, hc, rfl⟩
        · exact ⟨q, m, ds,
            mem_subtrees_trans (child_mem_subtrees (self_mem_subtrees path _) hc) hm, hs, hp⟩

theorem mem_containerHashes_iff (path : PathBuf) {t : MerkleTreeNode} {h : MerkleHash} :
    h ∈ t.containerHashes ↔
      ∃ p s, (p, s) ∈ t.subtrees path ∧ s.node.hasChildren = true ∧ s.hash = h := by
  rw [containerHashes, map_snd_subtrees [] path]
  simp only [List.mem_map, List.mem_filter]
  constructor
  · rintro ⟨s, ⟨⟨⟨p, s⟩, hm, rfl⟩, hc⟩, rfl⟩
    exact ⟨p, s, hm, hc, rfl⟩
  · rintro ⟨p, s, hm, hc, rfl⟩
    exact ⟨s, ⟨⟨(p, s), hm, rfl⟩, hc⟩, rfl⟩

theorem Stored.of_mem_subtrees {db : NodeStore} {path p : PathBuf} {s t : MerkleTreeNode}
    (h : t.Stored db) (hs : (p, s) ∈ t.subtrees path) : s.Stored db := by
  induction t generalizing path with
  | mk n cs ih =>
      rw [subtrees_mk, List.mem_cons, List.mem_flatMap] at hs
      rcases hs with hs | ⟨c, hc, hs⟩
      · obtain ⟨rfl, rfl⟩ := Prod.mk.inj hs
        exact h
      · exact ih c hc (h.child c hc) hs

theorem Held.of_mem_subtrees {db : NodeStore} {path p : PathBuf} {s t : MerkleTreeNode}
    (h : t.Held db) (hs : (p, s) ∈ t.subtrees path) : s.Held db := by
  induction t generalizing path with
  | mk n cs ih =>
      rw [subtrees_mk, List.mem_cons, List.mem_flatMap] at hs
      rcases hs with hs | ⟨c, hc, hs⟩
      · obtain ⟨rfl, rfl⟩ := Prod.mk.inj hs
        exact h
      · exact ih c hc (h.child c hc) hs

theorem Leafy.of_mem_subtrees {path p : PathBuf} {s t : MerkleTreeNode} (h : t.Leafy)
    (hs : (p, s) ∈ t.subtrees path) : s.Leafy := by
  induction t generalizing path with
  | mk n cs ih =>
      rw [subtrees_mk, List.mem_cons, List.mem_flatMap] at hs
      rcases hs with hs | ⟨c, hc, hs⟩
      · obtain ⟨rfl, rfl⟩ := Prod.mk.inj hs
        exact h
      · exact ih c hc (h.child c hc) hs

theorem sum_size_children_lt (t : MerkleTreeNode) : (t.children.map size).sum < t.size := by
  cases t
  rw [size_mk, children_mk]
  omega

/-- The grandchildren below some of the children are no larger than the children. -/
theorem sum_size_grandchildren_le (keep : MerkleTreeNode → Bool) (cs : List MerkleTreeNode) :
    (((cs.filter keep).flatMap children).map size).sum ≤ (cs.map size).sum := by
  induction cs with
  | nil => simp
  | cons c cs ih =>
      have hc := sum_size_children_lt c
      cases hk : keep c with
      | true =>
          rw [List.filter_cons_of_pos hk, List.flatMap_cons, List.map_append, List.sum_append,
            List.map_cons, List.sum_cons]
          omega
      | false =>
          rw [List.filter_cons_of_neg (by simp [hk]), List.map_cons, List.sum_cons]
          omega

end MerkleTreeNode

open MerkleTreeNode

/-- The tree of a commit as the node database holds it. -/
structure CommitTree (db : NodeStore) where
  commit : CommitNode
  children : List MerkleTreeNode
  stored : (mk (.commit commit) children).Stored db
  shape : ∀ s ∈ (mk (.commit commit) children).subtrees [], s.2.localShape

namespace CommitTree

variable {db : NodeStore} (t : CommitTree db)

def tree : MerkleTreeNode :=
  .mk (.commit t.commit) t.children

def id : MerkleHash :=
  t.commit.hash

theorem stored_tree : t.tree.Stored db :=
  t.stored

theorem localShape_of_mem {p : PathBuf} {s : MerkleTreeNode} (h : (p, s) ∈ t.tree.subtrees []) :
    s.localShape = true :=
  t.shape (p, s) h

/-- The root directory. -/
theorem exists_root : ∃ d vnodes, t.children = [.mk (.directory d) vnodes] ∧ d.name = [] := by
  have h := t.localShape_of_mem (self_mem_subtrees [] t.tree)
  match hc : t.children, h with
  | [.mk (.directory d) vnodes], h =>
      refine ⟨d, vnodes, rfl, ?_⟩
      simpa [tree, hc, localShape] using h
  | [], h => simp [tree, hc, localShape] at h
  | [.mk (.file _) _], h => simp [tree, hc, localShape] at h
  | [.mk (.vnode _) _], h => simp [tree, hc, localShape] at h
  | [.mk (.commit _) _], h => simp [tree, hc, localShape] at h
  | _ :: _ :: _, h => simp [tree, hc, localShape] at h

/-- Only nodes with a record of their own have children. -/
theorem hasChildren_of_mem {p : PathBuf} {u : MerkleTreeNode} (h : (p, u) ∈ t.tree.subtrees [])
    (hne : u.children ≠ []) : u.node.hasChildren = true := by
  obtain ⟨n, cs⟩ := u
  cases n with
  | file f => exact absurd ((stored_file db f cs).mp (t.stored_tree.of_mem_subtrees h)) hne
  | directory d => rfl
  | vnode v => rfl
  | commit c => rfl

theorem children_file {p : PathBuf} {f : FileNode} {cs : List MerkleTreeNode}
    (h : (p, MerkleTreeNode.mk (.file f) cs) ∈ t.tree.subtrees []) : cs = [] :=
  (stored_file db f cs).mp (t.stored_tree.of_mem_subtrees h)

theorem eq_vnode_of_mem {p : PathBuf} {d : DirNode} {vnodes : List MerkleTreeNode}
    (h : (p, MerkleTreeNode.mk (.directory d) vnodes) ∈ t.tree.subtrees []) {v : MerkleTreeNode}
    (hv : v ∈ vnodes) : ∃ n cs, v = .mk (.vnode n) cs := by
  have hs := List.all_eq_true.mp (t.localShape_of_mem h) v hv
  obtain ⟨n, cs⟩ := v
  cases n with
  | vnode n => exact ⟨n, cs, rfl⟩
  | file f => cases hs
  | directory d => cases hs
  | commit c => cases hs

theorem isEntry_of_mem {p : PathBuf} {n : VNode} {cs : List MerkleTreeNode}
    (h : (p, MerkleTreeNode.mk (.vnode n) cs) ∈ t.tree.subtrees []) {c : MerkleTreeNode} (hc : c ∈ cs) :
    c.isEntry = true :=
  List.all_eq_true.mp (t.localShape_of_mem h) c hc

/-- The commit is the only node of its kind. -/
theorem eq_root_of_commit_mem {p : PathBuf} {c : CommitNode} {cs : List MerkleTreeNode}
    (h : (p, MerkleTreeNode.mk (.commit c) cs) ∈ t.tree.subtrees []) :
    p = [] ∧ MerkleTreeNode.mk (.commit c) cs = t.tree := by
  rcases mem_subtrees_cases h with h | ⟨q, n, ds, hq, hs, -⟩
  · obtain ⟨rfl, heq⟩ := Prod.mk.inj h
    exact ⟨rfl, heq⟩
  · exfalso
    cases n with
    | file f =>
        have := t.stored_tree.of_mem_subtrees hq
        rw [stored_file] at this
        simp [this] at hs
    | directory d =>
        obtain ⟨n, ds, hv⟩ := t.eq_vnode_of_mem hq hs
        cases hv
    | vnode v => exact absurd (t.isEntry_of_mem hq hs) (by simp [isEntry])
    | commit c' =>
        have hshape := t.localShape_of_mem hq
        match ds with
        | [.mk (.directory d) vnodes] => cases List.mem_singleton.mp hs
        | [] => cases hs
        | [.mk (.file _) _] => cases List.mem_singleton.mp hs
        | [.mk (.vnode _) _] => cases List.mem_singleton.mp hs
        | [.mk (.commit _) _] => simp [localShape] at hshape
        | _ :: _ :: _ => simp [localShape] at hshape

/-- A file or a directory hangs below a virtual node under a leaf name, or it is
the root directory. -/
private theorem isEntry_or_root {p : PathBuf} {s : MerkleTreeNode}
    (h : (p, s) ∈ t.tree.subtrees []) :
    s.isEntry = true ∨ s.isVNode = true ∨ s = t.tree ∨ [s] = t.children := by
  rcases mem_subtrees_cases h with h | ⟨q, n, cs, hq, hs, -⟩
  · exact .inr (.inr (.inl (Prod.mk.inj h).2))
  · cases n with
    | file f =>
        have := (stored_file db f cs).mp (t.stored_tree.of_mem_subtrees hq)
        simp [this] at hs
    | directory d =>
        obtain ⟨n, ds, rfl⟩ := t.eq_vnode_of_mem hq hs
        exact .inr (.inl rfl)
    | vnode v => exact .inl (t.isEntry_of_mem hq hs)
    | commit c =>
        obtain ⟨-, htree⟩ := t.eq_root_of_commit_mem hq
        obtain ⟨d, vnodes, hroot, -⟩ := t.exists_root
        obtain rfl := (MerkleTreeNode.mk.inj htree).2
        rw [hroot] at hs ⊢
        rw [List.mem_singleton.mp hs]
        exact .inr (.inr (.inr rfl))

theorem length_file_name {p : PathBuf} {f : FileNode} {cs : List MerkleTreeNode}
    (h : (p, MerkleTreeNode.mk (.file f) cs) ∈ t.tree.subtrees []) : f.name.length = 1 := by
  rcases t.isEntry_or_root h with h | h | h | h
  · simpa [isEntry] using h
  · cases h
  · cases h
  · obtain ⟨d, vnodes, hroot, -⟩ := t.exists_root
    rw [hroot] at h
    cases h

theorem length_directory_name_le {p : PathBuf} {d : DirNode} {vnodes : List MerkleTreeNode}
    (h : (p, MerkleTreeNode.mk (.directory d) vnodes) ∈ t.tree.subtrees []) :
    d.name.length ≤ 1 := by
  rcases t.isEntry_or_root h with h | h | h | h
  · simp only [isEntry, decide_eq_true_eq] at h
    omega
  · cases h
  · cases h
  · obtain ⟨d', vnodes', hroot, hname⟩ := t.exists_root
    rw [hroot] at h
    cases h
    simp [hname]

theorem mem_containerHashes_commit {s t : CommitTree db}
    (h : s.id ∈ t.tree.containerHashes) : s.id = t.id := by
  obtain ⟨p, u, hu, hc, hh⟩ := (mem_containerHashes_iff []).mp h
  have heq : u = s.tree := (t.stored_tree.of_mem_subtrees hu).eq_of_hash s.stored_tree hc rfl hh
  subst heq
  obtain ⟨-, htree⟩ := t.eq_root_of_commit_mem hu
  exact congrArg MerkleTreeNode.hash htree

/-! ## Loading a commit -/

theorem load_partialNodes (seen : List MerkleHash) {fuel : ℕ} (hf : t.tree.size ≤ fuel) :
    rootWithChildrenAndPartialNodes db seen fuel t.id = some (t.tree.loaded seen []) := by
  obtain ⟨⟨record, hr, hn, -⟩, -⟩ := (stored_container rfl _).mp t.stored
  have hload := loadChildren_of_stored t.stored_tree rfl seen [] hf
  rw [rootWithChildrenAndPartialNodes, CommitTree.id, show db t.commit.hash = some record from hr]
  simp only [Option.map_some, hn, Option.some.injEq]
  exact hload

theorem load_nodeHashes (seen : List MerkleHash) {fuel : ℕ} (hf : t.tree.size ≤ fuel) :
    rootWithChildrenAndNodeHashes db seen fuel t.id =
      some { t.tree.loaded seen [] with partialNodes := [], panicked := false } := by
  obtain ⟨⟨record, hr, hn, -⟩, -⟩ := (stored_container rfl _).mp t.stored
  have hload := loadChildren_of_stored t.stored_tree rfl seen [] hf
  rw [rootWithChildrenAndNodeHashes, CommitTree.id, show db t.commit.hash = some record from hr]
  simp only [Option.map_some, hn, loadChildren, Option.some.injEq]
  rw [show loadChildrenAndCollectPartialNodes db seen fuel [] (.commit t.commit) = _ from hload]

/-- A commit is no one's child. -/
theorem not_commit_child {p : PathBuf} {n : EMerkleTreeNode} {cs ds : List MerkleTreeNode}
    {c : CommitNode} (h : (p, MerkleTreeNode.mk n cs) ∈ t.tree.subtrees []) :
    MerkleTreeNode.mk (.commit c) ds ∉ cs := by
  intro hc
  cases n with
  | file f => simp [t.children_file h] at hc
  | directory d =>
      obtain ⟨v, vs, hv⟩ := t.eq_vnode_of_mem h hc
      cases hv
  | vnode v => cases t.isEntry_of_mem h hc
  | commit c' =>
      obtain ⟨-, htree⟩ := t.eq_root_of_commit_mem h
      obtain ⟨d, vnodes, hroot, -⟩ := t.exists_root
      rw [(MerkleTreeNode.mk.inj htree).2, hroot] at hc
      cases List.mem_singleton.mp hc

end CommitTree

/-- A database that holds the records of the given trees and nothing else. -/
def NodeStore.ofTrees (trees : List MerkleTreeNode) : NodeStore := fun hash =>
  (((trees.flatMap (subtrees [])).map Prod.snd).filter (·.node.hasChildren)).map
    (fun t => { node := t.node, children := t.children.map node }) |>.find? (·.node.hash = hash)

end Oxen
