import Oxen.Verification.Tree.Occurs

/-! The files and directories that a walk gets to when it passes over some of
the directories and virtual nodes of a commit. -/

namespace Oxen

open MerkleTreeNode

/-- What a walk from `root` reaches. A directory or virtual node is entered when
`pass` allows its hash at the directory's path. -/
inductive Reaches (pass : PathBuf → MerkleHash → Prop) (root : MerkleTreeNode) :
    PathBuf → MerkleTreeNode → Prop where
  | root : Reaches pass root [] root
  | rootDir {path c d vnodes} :
      Reaches pass root path (.mk (.commit c) [.mk (.directory d) vnodes]) →
      Reaches pass root path (.mk (.directory d) vnodes)
  | child {path d vnodes vnode child} :
      Reaches pass root path (.mk (.directory d) vnodes) → pass (path ++ d.name) d.hash →
      vnode ∈ vnodes → pass (path ++ d.name) vnode.hash → child ∈ vnode.children →
      Reaches pass root (path ++ d.name) child

/-- The same for a walk that starts inside of a tree. -/
inductive ReachesFrom (pass : PathBuf → MerkleHash → Prop) (start : PathBuf)
    (root : MerkleTreeNode) : PathBuf → MerkleTreeNode → Prop where
  | root : ReachesFrom pass start root start root
  | rootDir {path c d vnodes} :
      ReachesFrom pass start root path (.mk (.commit c) [.mk (.directory d) vnodes]) →
      ReachesFrom pass start root path (.mk (.directory d) vnodes)
  | child {path d vnodes vnode child} :
      ReachesFrom pass start root path (.mk (.directory d) vnodes) →
      pass (path ++ d.name) d.hash → vnode ∈ vnodes → pass (path ++ d.name) vnode.hash →
      child ∈ vnode.children → ReachesFrom pass start root (path ++ d.name) child

theorem reaches_iff_from {pass : PathBuf → MerkleHash → Prop} {root node : MerkleTreeNode}
    {path : PathBuf} : Reaches pass root path node ↔ ReachesFrom pass [] root path node := by
  constructor
  · intro h
    induction h with
    | root => exact .root
    | rootDir _ ih => exact .rootDir ih
    | child _ hd hv hp hc ih => exact .child ih hd hv hp hc
  · intro h
    induction h with
    | root => exact .root
    | rootDir _ ih => exact .rootDir ih
    | child _ hd hv hp hc ih => exact .child ih hd hv hp hc

namespace ReachesFrom

variable {pass : PathBuf → MerkleHash → Prop} {db : NodeStore} {t : CommitTree db}
  {start : PathBuf} {root : MerkleTreeNode} {path : PathBuf} {node : MerkleTreeNode}

section

variable (hroot : (start, root) ∈ t.tree.subtrees [])
include hroot

theorem mem_subtrees (h : ReachesFrom pass start root path node) :
    (path, node) ∈ t.tree.subtrees [] := by
  induction h with
  | root => exact hroot
  | rootDir _ ih => exact child_mem_subtrees ih (List.mem_singleton.mpr rfl)
  | child _ _ hv _ hc ih =>
      obtain ⟨n, cs, rfl⟩ := t.eq_vnode_of_mem ih hv
      exact child_mem_subtrees (child_mem_subtrees ih hv) hc

/-- A virtual node is only a step on the way to its children. -/
theorem not_vnode (hnot : ∀ v cs, root ≠ .mk (.vnode v) cs) {v : VNode}
    {cs : List MerkleTreeNode} : ¬ ReachesFrom pass start root path (.mk (.vnode v) cs) := by
  intro h
  cases h with
  | root => exact hnot _ _ rfl
  | child hr _ hv _ hc =>
      obtain ⟨n, ds, rfl⟩ := t.eq_vnode_of_mem (hr.mem_subtrees hroot) hv
      have := t.isEntry_of_mem (child_mem_subtrees (hr.mem_subtrees hroot) hv) hc
      simp [isEntry] at this

/-- The node is reached, or it is a virtual node of a directory that is entered. -/
private def ReachesOrEnters (pass : PathBuf → MerkleHash → Prop) (start : PathBuf)
    (root : MerkleTreeNode) (path : PathBuf) (node : MerkleTreeNode) : Prop :=
  ReachesFrom pass start root path node ∨
    ∃ q d vnodes, ReachesFrom pass start root q (.mk (.directory d) vnodes) ∧ node ∈ vnodes ∧
      path = q ++ d.name ∧ pass path d.hash

private theorem ReachesOrEnters.step (hnot : ∀ v cs, root ≠ .mk (.vnode v) cs)
    {n : EMerkleTreeNode} {cs : List MerkleTreeNode}
    {c : MerkleTreeNode} (h : ReachesOrEnters pass start root path (.mk n cs))
    (hp : pass (n.ownPath path) n.hash) (hc : c ∈ cs) :
    ReachesOrEnters pass start root (n.ownPath path) c := by
  rcases h with h | ⟨q, d, vnodes, h, hmem, rfl, hd⟩
  · cases n with
    | file f =>
        have := (stored_file db f cs).mp (t.stored_tree.of_mem_subtrees (h.mem_subtrees hroot))
        simp [this] at hc
    | vnode v => exact absurd h (not_vnode hroot hnot)
    | directory d => exact .inr ⟨path, d, cs, h, hc, rfl, hp⟩
    | commit c' =>
        obtain ⟨-, htree⟩ := t.eq_root_of_commit_mem (h.mem_subtrees hroot)
        obtain ⟨d, vnodes, hdir, -⟩ := t.exists_root
        obtain rfl : cs = [.mk (.directory d) vnodes] := (MerkleTreeNode.mk.inj htree).2.trans hdir
        obtain rfl := List.mem_singleton.mp hc
        exact .inl (.rootDir h)
  · obtain ⟨v, ds, hv⟩ := t.eq_vnode_of_mem (h.mem_subtrees hroot) hmem
    obtain ⟨rfl, rfl⟩ := MerkleTreeNode.mk.inj hv
    exact .inl (.child h hd hmem hp hc)

private theorem ReachesOrEnters.of_occurs (hnot : ∀ v cs, root ≠ .mk (.vnode v) cs) {q : PathBuf}
    {s : MerkleTreeNode} (h : ReachesOrEnters pass start root path node)
    (ho : Occurs (fun path n => pass (n.ownPath path) n.hash) path node q s) :
    ReachesOrEnters pass start root q s := by
  induction ho with
  | here => exact h
  | under hp hc _ ih => exact ih (ReachesOrEnters.step hroot hnot h hp hc)

/-- A file in the open is reached. -/
theorem of_occurs (hnot : ∀ v cs, root ≠ .mk (.vnode v) cs) {f : FileNode}
    {cs : List MerkleTreeNode}
    (ho : Occurs (fun path n => pass (n.ownPath path) n.hash) start root path (.mk (.file f) cs)) :
    ReachesFrom pass start root path (.mk (.file f) cs) := by
  rcases ReachesOrEnters.of_occurs hroot hnot (.inl .root) ho with h | ⟨q, d, vnodes, h, hmem, -, -⟩
  · exact h
  · obtain ⟨v, ds, hv⟩ := t.eq_vnode_of_mem (h.mem_subtrees hroot) hmem
    cases hv

/-- Every directory on the way to a reached node is reached. -/
theorem exists_directory_of_isPrefix (h : ReachesFrom pass start root path node)
    {q rest : PathBuf} (hq : start.length < q.length) (hp : path = q ++ rest) :
    ∃ parent d vnodes, ReachesFrom pass start root parent (.mk (.directory d) vnodes) ∧
      q = parent ++ d.name := by
  induction h generalizing rest with
  | root =>
      rw [hp, List.length_append] at hq
      omega
  | rootDir _ ih => exact ih hp
  | @child path d vnodes vnode child h _ _ _ _ ih =>
      by_cases hrest : rest = []
      · exact ⟨path, d, vnodes, h, by simpa [hrest] using hp.symm⟩
      have hname := t.length_directory_name_le (h.mem_subtrees hroot)
      obtain hnil | ⟨name, hone⟩ : d.name = [] ∨ ∃ name, d.name = [name] := by
        rw [← List.length_eq_zero_iff, ← List.length_eq_one_iff]
        omega
      · exact ih (by simpa [hnil] using hp)
      · refine @ih rest.dropLast ?_
        have := congrArg List.dropLast hp
        rwa [hone, List.dropLast_concat, List.dropLast_append_of_ne_nil hrest] at this

end

end ReachesFrom

namespace Reaches

variable {pass : PathBuf → MerkleHash → Prop}

theorem mono {pass' : PathBuf → MerkleHash → Prop} {root node : MerkleTreeNode} {path : PathBuf}
    (hpass : ∀ path hash, pass path hash → pass' path hash) (h : Reaches pass root path node) :
    Reaches pass' root path node := by
  induction h with
  | root => exact .root
  | rootDir _ ih => exact .rootDir ih
  | child _ hd hv hp hc ih => exact .child ih (hpass _ _ hd) hv (hpass _ _ hp) hc

theorem exists_mem_subtrees {root node : MerkleTreeNode} {path : PathBuf}
    (h : Reaches pass root path node) : ∃ p, (p, node) ∈ root.subtrees [] := by
  induction h with
  | root => exact ⟨[], self_mem_subtrees [] root⟩
  | rootDir _ ih =>
      obtain ⟨p, hp⟩ := ih
      exact ⟨_, child_mem_subtrees hp (List.mem_singleton.mpr rfl)⟩
  | @child path d vnodes vnode child _ _ hv _ hc ih =>
      obtain ⟨p, hp⟩ := ih
      obtain ⟨n, cs⟩ := vnode
      exact ⟨_, child_mem_subtrees (child_mem_subtrees hp hv) hc⟩

variable {db : NodeStore} {t : CommitTree db} {path : PathBuf} {node : MerkleTreeNode}

theorem mem_subtrees (h : Reaches pass t.tree path node) : (path, node) ∈ t.tree.subtrees [] :=
  ReachesFrom.mem_subtrees (self_mem_subtrees [] _) (reaches_iff_from.mp h)

/-- A virtual node is only a step on the way to its children. -/
theorem not_vnode {v : VNode} {cs : List MerkleTreeNode} :
    ¬ Reaches pass t.tree path (.mk (.vnode v) cs) := fun h =>
  ReachesFrom.not_vnode (self_mem_subtrees [] t.tree) (fun _ _ h => by cases h)
    (reaches_iff_from.mp h)

/-- A file in the open is reached. -/
theorem of_occurs {f : FileNode} {cs : List MerkleTreeNode}
    (ho : Occurs (fun path n => pass (n.ownPath path) n.hash) [] t.tree path (.mk (.file f) cs)) :
    Reaches pass t.tree path (.mk (.file f) cs) :=
  reaches_iff_from.mpr
    (ReachesFrom.of_occurs (self_mem_subtrees [] _) (fun _ _ h => by cases h) ho)

/-- A reached node is in the open when the walk may pass the commit. -/
theorem occurs (hid : pass [] t.id) (h : Reaches pass t.tree path node) :
    Occurs (fun path n => pass (n.ownPath path) n.hash) [] t.tree path node := by
  induction h with
  | root => exact .here _ _
  | @rootDir path c d vnodes h ih =>
      obtain ⟨rfl, htree⟩ := t.eq_root_of_commit_mem h.mem_subtrees
      refine ih.snoc ?_ (List.mem_singleton.mpr rfl)
      have hc : c.hash = t.id := congrArg MerkleTreeNode.hash htree
      rw [← hc] at hid
      exact hid
  | child h hd hv hp hc ih =>
      obtain ⟨n, cs, rfl⟩ := t.eq_vnode_of_mem h.mem_subtrees hv
      exact (ih.snoc hd hv).snoc hp hc

/-- Every directory on the way to a reached node is reached. -/
theorem exists_directory_of_isPrefix (h : Reaches pass t.tree path node) {q rest : PathBuf}
    (hq : q ≠ []) (hp : path = q ++ rest) :
    ∃ parent d vnodes, Reaches pass t.tree parent (.mk (.directory d) vnodes) ∧
      q = parent ++ d.name := by
  obtain ⟨parent, d, vnodes, hr, hd⟩ := (reaches_iff_from.mp h).exists_directory_of_isPrefix
    (self_mem_subtrees [] _) (List.length_pos_of_ne_nil hq) hp
  exact ⟨parent, d, vnodes, reaches_iff_from.mpr hr, hd⟩

end Reaches

end Oxen
