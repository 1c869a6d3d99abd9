import Oxen.Verification.Tree.Shape

/-! Occurrences of nodes below containers that a walk may pass, and the trees
in which every path is used once. -/

namespace Oxen

namespace MerkleTreeNode

/-- The node `s` lies at `q` below `t`, through containers that may be passed. -/
inductive Occurs (pass : PathBuf → EMerkleTreeNode → Prop) :
    PathBuf → MerkleTreeNode → PathBuf → MerkleTreeNode → Prop where
  | here (path t) : Occurs pass path t path t
  | under {path n cs c q s} : pass path n → c ∈ cs → Occurs pass (n.ownPath path) c q s →
      Occurs pass path (.mk n cs) q s

variable {pass : PathBuf → EMerkleTreeNode → Prop} {path q : PathBuf} {t s : MerkleTreeNode}

theorem Occurs.mem_subtrees (h : Occurs pass path t q s) : (q, s) ∈ t.subtrees path := by
  induction h with
  | here path t => exact self_mem_subtrees path t
  | under _ hc _ ih =>
      rw [subtrees_mk, List.mem_cons, List.mem_flatMap]
      exact .inr ⟨_, hc, ih⟩

theorem Occurs.mono {pass' : PathBuf → EMerkleTreeNode → Prop}
    (hpass : ∀ path n, pass path n → pass' path n) (h : Occurs pass path t q s) :
    Occurs pass' path t q s := by
  induction h with
  | here path t => exact .here path t
  | under hp hc _ ih => exact .under (hpass _ _ hp) hc ih

theorem Occurs.snoc {n : EMerkleTreeNode} {cs : List MerkleTreeNode} {c : MerkleTreeNode}
    (h : Occurs pass path t q (.mk n cs)) (hp : pass q n) (hc : c ∈ cs) :
    Occurs pass path t (n.ownPath q) c := by
  generalize hs : mk n cs = s at h
  induction h with
  | here path t =>
      subst hs
      exact .under hp hc (.here _ _)
  | under hpass hmem _ ih => exact .under hpass hmem (ih hp hs)

/-- A node below `t` is in the open or below a container that hides it. -/
theorem occurs_or_hidden (pass : PathBuf → EMerkleTreeNode → Prop) (h : (q, s) ∈ t.subtrees path) :
    Occurs pass path t q s ∨
      ∃ r u, (r, u) ∈ t.subtrees path ∧ ¬ pass r u.node ∧ u.children ≠ [] ∧
        (q, s) ∈ u.subtrees r := by
  induction t generalizing path with
  | mk n cs ih =>
      rw [subtrees_mk, List.mem_cons, List.mem_flatMap] at h
      rcases h with h | ⟨c, hc, h⟩
      · obtain ⟨rfl, rfl⟩ := Prod.mk.inj h
        exact .inl (.here _ _)
      · by_cases hp : pass path n
        · rcases ih c hc h with ho | ⟨r, u, hu, hnot, hne, hs⟩
          · exact .inl (.under hp hc ho)
          · exact .inr ⟨r, u,
              mem_subtrees_trans (child_mem_subtrees (self_mem_subtrees _ _) hc) hu, hnot, hne, hs⟩
        · refine .inr ⟨path, .mk n cs, self_mem_subtrees _ _, hp, List.ne_nil_of_mem hc, ?_⟩
          exact mem_subtrees_trans (child_mem_subtrees (self_mem_subtrees _ _) hc) h

/-- Pruning at the seen hashes keeps what lies outside the seen containers. -/
theorem Occurs.mem_subtrees_prune {seen : List MerkleHash}
    (h : Occurs (fun _ n => n.hasChildren = true ∧ n.hash ∉ seen) path t q s) :
    (q, s.prune seen) ∈ (t.prune seen).subtrees path := by
  induction h with
  | here path t => exact self_mem_subtrees path _
  | under hp hc _ ih =>
      rw [prune_mk, if_pos hp, subtrees_mk, List.mem_cons, List.mem_flatMap]
      exact .inr ⟨_, List.mem_map_of_mem hc, ih⟩

/-- What is left by pruning lies outside the seen containers. -/
theorem occurs_of_mem_prune {seen : List MerkleHash} (h : (q, s) ∈ (t.prune seen).subtrees path) :
    ∃ full, Occurs (fun _ n => n.hasChildren = true ∧ n.hash ∉ seen) path t q full ∧
      s = full.prune seen := by
  induction t generalizing path with
  | mk n cs ih =>
      by_cases hn : n.hasChildren = true ∧ n.hash ∉ seen
      · rw [prune_mk, if_pos hn, subtrees_mk, List.mem_cons, List.mem_flatMap] at h
        rcases h with h | ⟨c, hc, h⟩
        · obtain ⟨rfl, rfl⟩ := Prod.mk.inj h
          exact ⟨.mk n cs, .here _ _, by rw [prune_mk, if_pos hn]⟩
        · obtain ⟨d, hd, rfl⟩ := List.mem_map.mp hc
          obtain ⟨full, hfull, hs⟩ := ih d hd h
          exact ⟨full, .under hn hd hfull, hs⟩
      · rw [prune_mk, if_neg hn, subtrees_mk, List.flatMap_nil, List.mem_singleton] at h
        obtain ⟨rfl, rfl⟩ := Prod.mk.inj h
        exact ⟨.mk n cs, .here _ _, by rw [prune_mk, if_neg hn]⟩

/-- Pruning adds no nodes. -/
theorem mem_subtrees_of_prune {seen : List MerkleHash} (h : (q, s) ∈ (t.prune seen).subtrees path) :
    ∃ full, (q, full) ∈ t.subtrees path ∧ s = full.prune seen := by
  obtain ⟨full, hfull, hs⟩ := occurs_of_mem_prune h
  exact ⟨full, hfull.mem_subtrees, hs⟩

theorem mem_containerHashes_of_prune {seen : List MerkleHash} {h : MerkleHash}
    (hh : h ∈ (t.prune seen).containerHashes) : h ∈ t.containerHashes := by
  obtain ⟨p, u, hu, hc, rfl⟩ := (mem_containerHashes_iff []).mp hh
  obtain ⟨full, hfull, rfl⟩ := mem_subtrees_of_prune hu
  exact (mem_containerHashes_iff []).mpr ⟨p, full, hfull, by simpa using hc, by simp⟩

/-- Avoiding the topmost seen containers avoids all of them. -/
theorem Occurs.avoids_seen {db : NodeStore} {seen top : List MerkleHash} (ht : t.Stored db)
    (hsub : ∀ hash ∈ (t.loaded seen path).sharedHashes, hash ∈ top)
    (h : Occurs (fun _ n => n.hash ∉ top) path t q s) :
    Occurs (fun _ n => n.hasChildren = true ∧ n.hash ∉ seen) path t q s := by
  induction h with
  | here path t => exact .here path t
  | @under path n cs c q s hp hc _ ih =>
      have hn : n.hasChildren = true := by
        cases n with
        | file f => exact absurd hc (by simp [(stored_file db f cs).mp ht])
        | directory d => rfl
        | vnode v => rfl
        | commit c => rfl
      have hseen : n.hash ∉ seen := by
        intro hmem
        rw [loaded_seen hn hmem] at hsub
        exact hp (hsub _ (List.mem_singleton.mpr rfl))
      rw [loaded_mk hn hseen] at hsub
      exact .under ⟨hn, hseen⟩ hc (ih (ht.child c hc) fun hash hmem =>
        hsub hash (List.mem_flatMap.mpr ⟨c, hc, hmem⟩))

theorem prefix_of_mem_subtrees (h : (q, s) ∈ t.subtrees path) : path <+: q := by
  induction t generalizing path with
  | mk n cs ih =>
      rw [subtrees_mk, List.mem_cons, List.mem_flatMap] at h
      rcases h with h | ⟨c, hc, h⟩
      · obtain rfl := (Prod.mk.inj h).1
        exact List.prefix_refl _
      · have hown : path <+: n.ownPath path := by
          cases n with
          | directory d => exact List.prefix_append path d.name
          | file f => exact List.prefix_append path f.name
          | vnode v => exact List.prefix_refl path
          | commit c => exact List.prefix_refl path
        exact hown.trans (ih c hc h)

/-- A file below a container lies below the container's own path. -/
theorem ownPath_prefix_of_mem {f : FileNode} {cs : List MerkleTreeNode}
    (h : (q, mk (.file f) cs) ∈ t.subtrees path) (hc : t.node.hasChildren = true) :
    t.node.ownPath path <+: q := by
  obtain ⟨n, ds⟩ := t
  rw [subtrees_mk, List.mem_cons, List.mem_flatMap] at h
  rcases h with h | ⟨c, -, h⟩
  · obtain ⟨rfl, -⟩ := MerkleTreeNode.mk.inj (Prod.mk.inj h).2
    cases hc
  · exact prefix_of_mem_subtrees h

/-! ## Unique paths -/

/-- No two files or directories below the node have the same path. -/
def UniquePaths (path : PathBuf) (t : MerkleTreeNode) : Prop :=
  ((t.entries path).map Prod.fst).Nodup

instance (path : PathBuf) (t : MerkleTreeNode) : Decidable (UniquePaths path t) :=
  inferInstanceAs (Decidable (List.Nodup _))

theorem entries_mk (path : PathBuf) (n : EMerkleTreeNode) (cs : List MerkleTreeNode) :
    (mk n cs).entries path =
      ( entry? (path, .mk n cs)).toList ++ cs.flatMap (entries (n.ownPath path)) := by
  rw [entries, subtrees_mk, List.filterMap_cons]
  cases entry? (path, .mk n cs) with
  | none =>
      rw [List.filterMap_flatMap]
      rfl
  | some e =>
      rw [List.filterMap_flatMap]
      rfl

theorem mem_entries_of_mem_subtrees {p : PathBuf} {e : EMerkleTreeNode}
    (h : (q, s) ∈ t.subtrees path) (he : entry? (q, s) = some (p, e)) :
    (p, e) ∈ t.entries path :=
  List.mem_filterMap.mpr ⟨(q, s), h, he⟩

theorem UniquePaths.child {n : EMerkleTreeNode} {cs : List MerkleTreeNode} {c : MerkleTreeNode}
    (h : UniquePaths path (.mk n cs)) (hc : c ∈ cs) : UniquePaths (n.ownPath path) c := by
  unfold UniquePaths at *
  rw [entries_mk, List.map_append, List.map_flatMap] at h
  exact (List.nodup_flatMap.mp (List.nodup_append.mp h).2.1).1 c hc

/-- Two children that hold an entry at the same path are one child. -/
theorem UniquePaths.child_eq {n : EMerkleTreeNode} {cs : List MerkleTreeNode}
    {c d : MerkleTreeNode} (h : UniquePaths path (.mk n cs)) (hc : c ∈ cs) (hd : d ∈ cs)
    {p : PathBuf} {e e' : EMerkleTreeNode} (he : (p, e) ∈ c.entries (n.ownPath path))
    (he' : (p, e') ∈ d.entries (n.ownPath path)) : c = d := by
  unfold UniquePaths at h
  rw [entries_mk, List.map_append, List.map_flatMap] at h
  have hpair := (List.nodup_flatMap.mp (List.nodup_append.mp h).2.1).2
  have hsymm : Std.Symm (Function.onFun List.Disjoint
      fun c : MerkleTreeNode => (c.entries (n.ownPath path)).map Prod.fst) :=
    ⟨fun _ _ hab _ ha hb => hab hb ha⟩
  by_contra hne
  exact hpair.forall hc hd hne (List.mem_map_of_mem he)
    (List.mem_map.mpr ⟨(p, e'), he', rfl⟩)

/-- An entry is found at one place only. -/
theorem UniquePaths.eq_of_mem {p : PathBuf} {e e' : EMerkleTreeNode} (h : UniquePaths path t)
    (he : (p, e) ∈ t.entries path) (he' : (p, e') ∈ t.entries path) : e = e' := by
  have := List.inj_on_of_nodup_map h he he' rfl
  exact (Prod.mk.inj this).2

/-- With unique paths a file in the open has no hiding container around it. -/
theorem Occurs.pass_of_mem {f : FileNode} {r : PathBuf} {u : MerkleTreeNode}
    (h : Occurs pass path t q (.mk (.file f) [])) (huniq : UniquePaths path t)
    (hu : (r, u) ∈ t.subtrees path) (hf : (q, mk (.file f) []) ∈ u.subtrees r)
    (hc : u.node.hasChildren = true) : pass r u.node := by
  generalize hs : mk (.file f) [] = s at h
  induction h with
  | here path t =>
      subst hs
      rw [subtrees_mk, List.flatMap_nil, List.mem_singleton] at hu
      obtain ⟨rfl, rfl⟩ := Prod.mk.inj hu
      cases hc
  | @under path n cs c q s hp hmem ho ih =>
      rw [subtrees_mk, List.mem_cons, List.mem_flatMap] at hu
      rcases hu with hu | ⟨d, hd, hu⟩
      · obtain ⟨rfl, rfl⟩ := Prod.mk.inj hu
        exact hp
      · have he : entry? (q, s) = some (q ++ f.name, .file f) := by rw [← hs]; rfl
        obtain rfl : c = d := huniq.child_eq hmem hd
          (mem_entries_of_mem_subtrees ho.mem_subtrees he)
          (mem_entries_of_mem_subtrees (mem_subtrees_trans hu hf) (hs ▸ he))
        exact ih (huniq.child hmem) hu hf hs

theorem mem_files_iff {p : PathBuf} {f : FileNode} :
    (p, f) ∈ t.files path ↔
      ∃ q cs, (q, .mk (.file f) cs) ∈ t.subtrees path ∧ p = q ++ f.name := by
  rw [files, List.mem_filterMap]
  constructor
  · rintro ⟨⟨q, n, cs⟩, hm, hf⟩
    cases n with
    | file g =>
        obtain ⟨rfl, rfl⟩ := Prod.mk.inj (Option.some.inj hf)
        exact ⟨q, cs, hm, rfl⟩
    | directory d => cases hf
    | vnode v => cases hf
    | commit c => cases hf
  · rintro ⟨q, cs, hm, rfl⟩
    exact ⟨_, hm, rfl⟩

theorem mem_entries_of_file {p : PathBuf} {f : FileNode} (h : (p, f) ∈ t.files path) :
    (p, .file f) ∈ t.entries path := by
  obtain ⟨q, cs, hm, rfl⟩ := mem_files_iff.mp h
  exact mem_entries_of_mem_subtrees hm rfl

theorem mem_files_of_mem_entries {p : PathBuf} {f : FileNode} (h : (p, .file f) ∈ t.entries path) :
    (p, f) ∈ t.files path := by
  rcases List.mem_filterMap.mp h with ⟨⟨q, n, cs⟩, hm, he⟩
  cases n with
  | file g =>
      obtain ⟨rfl, hg⟩ := Prod.mk.inj (Option.some.inj he)
      obtain rfl := EMerkleTreeNode.file.inj hg
      exact mem_files_iff.mpr ⟨q, cs, hm, rfl⟩
  | directory d => simp [ entry?] at he
  | vnode v => cases he
  | commit c => cases he

theorem UniquePaths.file_eq {p : PathBuf} {f g : FileNode} (h : UniquePaths path t)
    (hf : (p, f) ∈ t.files path) (hg : (p, g) ∈ t.files path) : f = g :=
  EMerkleTreeNode.file.inj (h.eq_of_mem (mem_entries_of_file hf) (mem_entries_of_file hg))

/-- With unique paths a file's path is no directory's. -/
theorem UniquePaths.not_directory {p : PathBuf} {f : FileNode} {d : DirNode}
    {vnodes : List MerkleTreeNode} (h : UniquePaths path t) (hf : (p, f) ∈ t.files path)
    (hd : (q, .mk (.directory d) vnodes) ∈ t.subtrees path) : p ≠ q ++ d.name := by
  rintro rfl
  have := h.eq_of_mem (mem_entries_of_file hf) (mem_entries_of_mem_subtrees hd rfl)
  cases this

end MerkleTreeNode

end Oxen
