import Oxen.Verification.Commit.FileLookup
import Oxen.Verification.Diff.Collected

/-! What is read at a path of a commit with a current index, and what it lists. -/

namespace Oxen

open MerkleTreeNode

namespace MerkleTreeNode

variable {t : MerkleTreeNode} {base path p q r : PathBuf} {e : EMerkleTreeNode}

/-! ## Paths below a node -/

theorem ownPath_append (base path : PathBuf) (n : EMerkleTreeNode) :
    n.ownPath (base ++ path) = base ++ n.ownPath path := by
  cases n with
  | file f => exact List.append_assoc _ _ _
  | directory d => exact List.append_assoc _ _ _
  | vnode v => rfl
  | commit c => rfl

theorem subtrees_append (base path : PathBuf) (t : MerkleTreeNode) :
    t.subtrees (base ++ path) = (t.subtrees path).map fun x => (base ++ x.1, x.2) := by
  induction t generalizing path with
  | mk n cs ih =>
      rw [subtrees_mk, subtrees_mk, List.map_cons, List.map_flatMap, ownPath_append]
      exact congrArg _ (List.flatMap_congr fun c hc => ih c hc _)

/-- Entries are counted from the path where the node lies. -/
theorem entries_append (base path : PathBuf) (t : MerkleTreeNode) :
    t.entries (base ++ path) = (t.entries path).map fun x => (base ++ x.1, x.2) := by
  rw [entries, entries, subtrees_append, List.filterMap_map, List.map_filterMap]
  refine List.filterMap_congr fun x _ => ?_
  rcases x with ⟨q, n, cs⟩
  cases n with
  | file f => simp [ entry?]
  | directory d => simp [ entry?]
  | vnode v => rfl
  | commit c => rfl

theorem mem_entries_append : (base ++ p, e) ∈ t.entries (base ++ path) ↔
    (p, e) ∈ t.entries path := by
  simp [entries_append]

theorem UniquePaths.of_mem_subtrees {s : MerkleTreeNode} (h : UniquePaths path t)
    (hs : (q, s) ∈ t.subtrees path) : UniquePaths q s := by
  induction t generalizing path with
  | mk n cs ih =>
      rw [subtrees_mk, List.mem_cons, List.mem_flatMap] at hs
      rcases hs with hs | ⟨c, hc, hs⟩
      · obtain ⟨rfl, rfl⟩ := Prod.mk.inj hs
        exact h
      · exact ih c hc (h.child hc) hs

theorem length_ownPath_le {n : EMerkleTreeNode} (h : n.HasLeafName) (path : PathBuf) :
    (n.ownPath path).length ≤ path.length + 1 := by
  cases n with
  | file f =>
      rw [EMerkleTreeNode.ownPath, List.length_append, show f.name.length = 1 from h]
  | directory d =>
      rw [EMerkleTreeNode.ownPath, List.length_append]
      exact Nat.add_le_add_left h _
  | vnode v => exact Nat.le_succ _
  | commit c => exact Nat.le_succ _

theorem prefix_ownPath_of_mem_entries {n : EMerkleTreeNode} {cs : List MerkleTreeNode}
    (h : (p, e) ∈ (mk n cs).entries path) : n.ownPath path <+: p := by
  rw [entries_mk, List.mem_append, List.mem_flatMap] at h
  rcases h with h | ⟨c, -, h⟩
  · cases n with
    | file f =>
        obtain ⟨rfl, -⟩ : p = path ++ f.name ∧ _ := by simpa [ entry?] using h
        exact List.prefix_refl _
    | directory d =>
        obtain ⟨rfl, -⟩ : p = path ++ d.name ∧ _ := by simpa [ entry?] using h
        exact List.prefix_refl _
    | vnode v => simp [ entry?] at h
    | commit c => simp [ entry?] at h
  · exact prefix_of_mem_entries h

/-- An entry lies below the entries at all paths above it. -/
theorem Named.exists_above (h : t.Named) (he : (p, e) ∈ t.entries path) (hpath : path <+: r)
    (hne : path ≠ r) (hr : r <+: p) :
    ∃ q s, (q, s) ∈ t.subtrees path ∧ entry? (q, s) = some (r, s.node) ∧
      (p, e) ∈ s.entries q := by
  induction t generalizing path with
  | mk n cs ih =>
      by_cases hown : r = n.ownPath path
      · subst hown
        refine ⟨path, _, self_mem_subtrees path _, ?_, he⟩
        cases n with
        | file f => rfl
        | directory d => rfl
        | vnode v => exact absurd rfl hne
        | commit c => exact absurd rfl hne
      · have hlength : path.length < r.length :=
          lt_of_le_of_ne hpath.length_le fun heq => hne (hpath.eq_of_length heq)
        have hle := length_ownPath_le h.node path
        have hbelow : n.ownPath path <+: r := List.prefix_of_prefix_length_le
          (prefix_ownPath_of_mem_entries he) hr (by omega)
        rw [entries_mk, List.mem_append, List.mem_flatMap] at he
        rcases he with he | ⟨c, hc, he⟩
        · have hp : p = n.ownPath path := by
            cases n with
            | file f => simp_all [ entry?, EMerkleTreeNode.ownPath]
            | directory d => simp_all [ entry?, EMerkleTreeNode.ownPath]
            | vnode v => simp [ entry?] at he
            | commit c => simp [ entry?] at he
          exact absurd (hr.eq_of_length (le_antisymm hr.length_le (hp ▸ hbelow.length_le)))
            (fun heq => hown (heq.trans hp))
        · rcases ih c hc (h.child c hc) he hbelow (Ne.symm hown) with ⟨q, s, hs, hentry, hbelow⟩
          refine ⟨q, s, ?_, hentry, hbelow⟩
          rw [subtrees_mk, List.mem_cons, List.mem_flatMap]
          exact .inr ⟨c, hc, hs⟩

end MerkleTreeNode

/-! ## Loading everything -/

namespace CommitMerkleTree

variable {db : NodeStore} {t : MerkleTreeNode} {fuel : ℕ} {traversed : ℤ}

/-- Depth -1 has no end. -/
theorem loadChildrenToDepth_of_stored (h : t.Stored db) (hfuel : t.size ≤ fuel) :
    loadChildrenToDepth db (-1) fuel traversed t.node = t := by
  induction t generalizing fuel traversed with
  | mk n cs ih =>
      rw [size_mk] at hfuel
      obtain ⟨fuel, rfl⟩ : ∃ k, fuel = k + 1 := ⟨fuel - 1, by omega⟩
      cases hn : n.hasChildren with
      | false =>
          have hcs : cs = [] := by
            cases n with
            | file f => exact (stored_file db f cs).mp h
            | directory d => cases hn
            | vnode v => cases hn
            | commit c => cases hn
          rw [node_mk, loadChildrenToDepth, hn, if_neg Bool.false_ne_true, hcs]
      | true =>
          rw [node_mk, loadChildrenToDepth, if_pos hn, h.held.readChildren hn, List.map_map]
          refine congrArg (mk n) ((List.map_congr_left fun c hc => ?_).trans (List.map_id cs))
          have hsize : c.size ≤ fuel := by
            have hle := List.le_sum_of_mem (List.mem_map_of_mem (f := size) hc)
            omega
          have hstored := h.child c hc
          rw [Function.comp_apply, id]
          split
          · exact ih c hc hstored hsize
          · next hstop =>
              rcases c with ⟨m, ds⟩
              cases m with
              | file f => rw [(stored_file db f ds).mp hstored, node_mk]
              | directory d => exact absurd (by simp [goesDeeper]) hstop
              | vnode v => exact absurd (by simp [goesDeeper]) hstop
              | commit c => exact absurd (by simp [goesDeeper]) hstop

theorem readDepth_of_stored (h : t.Stored db) (hn : t.node.hasChildren = true)
    (hfuel : t.size ≤ fuel) : readDepth db fuel t.node.hash (-1) = some t := by
  rcases t with ⟨n, cs⟩
  rw [node_mk] at hn ⊢
  rcases ((stored_container hn cs).mp h).1 with ⟨record, hrecord, hnode, -⟩
  rw [readDepth, hrecord, Option.map_some, hnode]
  exact congrArg some (loadChildrenToDepth_of_stored h hfuel)

end CommitMerkleTree

namespace Diff

variable {host : Host} {t : MerkleTreeNode} {traversed path p : PathBuf}

/-! ## What a directory lists -/

/-- The entry that an item stands for. -/
def Item.entry : Item → PathBuf × EMerkleTreeNode
  | .inl f => (f.path, .file f.fileNode)
  | .inr d => (d.path, .directory d.dirNode)

/-- A directory or a virtual node lists the entries below it. -/
theorem map_entry_rListFilesAndDirs (hplaced : WellPlaced host path t) (hleafy : t.Leafy)
    (hkind : (∃ d, t.node = .directory d) ∨ ∃ v, t.node = .vnode v) (traversed : PathBuf) :
    (rListFilesAndDirs traversed t).map Item.entry = t.children.flatMap (entries traversed) := by
  induction t generalizing path traversed with
  | mk n cs ih =>
      have hn : n.hasChildren = true := by
        rcases hkind with ⟨d, hd⟩ | ⟨v, hv⟩
        · rw [show n = .directory d from hd]
          rfl
        · rw [show n = .vnode v from hv]
          rfl
      rw [rListFilesAndDirs_mk hn, List.map_flatMap, children_mk]
      refine List.flatMap_congr fun c hc => ?_
      have hplacedC := hplaced.child hc
      have hleafyC := hleafy.child c hc
      have hchild := @ih c hc _ hplacedC hleafyC
      rcases hkind with ⟨d, hd⟩ | ⟨v, hv⟩
      · obtain rfl : n = .directory d := hd
        rcases hplaced.eq_vnode hc with ⟨w, ds, rfl⟩
        have hbelow := hchild (.inr ⟨w, rfl⟩) traversed
        rw [listChild, hbelow, entries_mk]
        rfl
      · obtain rfl : n = .vnode v := hv
        have hentry := hplaced.isEntry hc
        rcases c with ⟨m, ds⟩
        cases m with
        | file f =>
            obtain rfl := leafy_file hleafyC
            rw [entries_mk]
            rfl
        | directory d =>
            have hname : traversed ++ d.name ≠ [] := by
              intro hnil
              have hlength : d.name.length = 1 := of_decide_eq_true hentry
              rw [(List.append_eq_nil_iff.mp hnil).2] at hlength
              cases hlength
            have hbelow := hchild (.inl ⟨d, rfl⟩) (traversed ++ d.name)
            rw [listChild, if_pos hname, List.map_append, hbelow, entries_mk]
            rfl
        | vnode w => cases hentry
        | commit c => cases hentry

/-- The paths of the files and directories that a directory lists are distinct. -/
def DistinctPaths (t : MerkleTreeNode) : Prop :=
  ((t.children.flatMap (entries [])).map Prod.fst).Nodup

variable {items : List Item}

theorem nodup_map_filterMap {κ : Type} {g : Item → Option κ} {key : κ → PathBuf}
    (hkey : ∀ item x, g item = some x → (Item.entry item).1 = key x)
    (h : (items.map fun item => (Item.entry item).1).Nodup) :
    ((items.filterMap g).map key).Nodup := by
  refine h.sublist ?_
  induction items with
  | nil => exact .slnil
  | cons item items ih =>
      have ih := ih (List.nodup_cons.mp h).2
      rw [List.filterMap_cons]
      cases hitem : g item with
      | none => exact ih.cons _
      | some x =>
          rw [List.map_cons, List.map_cons, hkey item x hitem]
          exact ih.cons_cons _

variable (hplaced : WellPlaced host path t) (hleafy : t.Leafy)
  (hdir : ∃ d, t.node = .directory d) (hdistinct : DistinctPaths t)

include hplaced hleafy hdir hdistinct

theorem nodup_items : ((rListFilesAndDirs [] t).map fun item => (Item.entry item).1).Nodup := by
  have hentries := map_entry_rListFilesAndDirs hplaced hleafy (.inl hdir) []
  rw [DistinctPaths, ← hentries, List.map_map] at hdistinct
  exact hdistinct

theorem mem_files_iff {f : FileNodeWithDir} :
    f ∈ (listFilesAndDirs t).files.elems ↔ .inl f ∈ rListFilesAndDirs [] t := by
  refine ⟨mem_items_of_mem_files, fun h => ?_⟩
  have hnodup := nodup_items hplaced hleafy hdir hdistinct
  refine (KeySet.mem_ofList_iff (nodup_map_filterMap (fun item x hx => ?_) hnodup)).mpr
    (List.mem_filterMap.mpr ⟨_, h, rfl⟩)
  rw [Sum.getLeft?_eq_some_iff.mp hx]
  rfl

theorem mem_dirs_iff {d : DirNodeWithPath} :
    d ∈ (listFilesAndDirs t).dirs.elems ↔ .inr d ∈ rListFilesAndDirs [] t := by
  refine ⟨mem_items_of_mem_dirs, fun h => ?_⟩
  have hnodup := nodup_items hplaced hleafy hdir hdistinct
  refine (KeySet.mem_ofList_iff (nodup_map_filterMap (fun item x hx => ?_) hnodup)).mpr
    (List.mem_filterMap.mpr ⟨_, h, rfl⟩)
  rw [Sum.getRight?_eq_some_iff.mp hx]
  rfl

end Diff

/-! ## The entries of a commit -/

namespace CommitTree

variable {db : NodeStore} {t : CommitTree db} {host : Host} {dirHashes : MerkleHash → DirHashes}
  {path p q : PathBuf} {e : EMerkleTreeNode} {s : MerkleTreeNode} {f : FileNode} {fuel : ℕ}

theorem hasLeafName_of_mem (h : (q, s) ∈ t.tree.subtrees []) : s.node.HasLeafName := by
  rcases s with ⟨n, cs⟩
  cases n with
  | file f => exact t.length_file_name h
  | directory d => exact t.length_directory_name_le h
  | vnode v => trivial
  | commit c => trivial

theorem named_tree (t : CommitTree db) : t.tree.Named := by
  suffices h : ∀ (s : MerkleTreeNode) path, (∀ x ∈ s.subtrees path, x.2.node.HasLeafName) → s.Named from
    h t.tree [] fun _ hx => hasLeafName_of_mem hx
  intro s path h
  induction s generalizing path with
  | mk n cs ih =>
      refine .mk (h _ (self_mem_subtrees path _)) fun c hc => ih c hc (n.ownPath path) fun x hx => ?_
      apply h
      rw [subtrees_mk, List.mem_cons, List.mem_flatMap]
      exact .inr ⟨c, hc, hx⟩

/-- A directory has a name, or it is the root. -/
theorem directory_place {d : DirNode} {vnodes : List MerkleTreeNode}
    (h : (q, MerkleTreeNode.mk (.directory d) vnodes) ∈ t.tree.subtrees []) :
    d.name.length = 1 ∨ d.name = [] ∧ q = [] := by
  rcases mem_subtrees_cases h with heq | ⟨r, n, cs, hr, hmem, hq⟩
  · cases (Prod.mk.inj heq).2
  · cases n with
    | file g =>
        rw [t.children_file hr] at hmem
        cases hmem
    | directory d' =>
        rcases t.eq_vnode_of_mem hr hmem with ⟨v, ds, hv⟩
        cases hv
    | vnode v => exact .inl (of_decide_eq_true (t.isEntry_of_mem hr hmem))
    | commit c =>
        rcases t.eq_root_of_commit_mem hr with ⟨rfl, htree⟩
        rcases t.exists_root with ⟨d', vnodes', hroot, hname⟩
        rw [(MerkleTreeNode.mk.inj htree).2, hroot] at hmem
        cases List.mem_singleton.mp hmem
        exact .inr ⟨hname, hq⟩

/-- The tree of the commit with its index: the directories of the tree, under their hashes. -/
structure CurrentIndex (host : Host) (dirHashes : MerkleHash → DirHashes) (t : CommitTree db) :
    Prop where
  placed : WellPlaced host [] t.tree
  lookup : ∀ path hash, (dirHashes t.id).lookup path = some hash ↔
    ∃ d, (path, .directory d) ∈ t.tree.entries [] ∧ d.hash = hash

theorem CurrentIndex.uniquePaths (h : CurrentIndex host dirHashes t) : UniquePaths [] t.tree :=
  h.placed.uniquePaths t.stored_tree.held

theorem lookup_fileMap_iff_entries (huniq : UniquePaths [] t.tree) :
    t.fileMap.lookup p = some f ↔ (p, .file f) ∈ t.tree.entries [] :=
  (t.lookup_fileMap_iff huniq).trans ⟨mem_entries_of_file, mem_files_of_mem_entries⟩

theorem file_or_directory (h : (p, e) ∈ t.tree.entries []) :
    (∃ f, e = .file f) ∨ ∃ d, e = .directory d := by
  rcases List.mem_filterMap.mp h with ⟨⟨q, n, cs⟩, -, heq⟩
  cases n with
  | file f => exact .inl ⟨f, (Prod.mk.inj (Option.some.inj heq)).2.symm⟩
  | directory d => exact .inr ⟨d, (Prod.mk.inj (Option.some.inj heq)).2.symm⟩
  | vnode v => cases heq
  | commit c => cases heq

theorem exists_subtree_of_directory {d : DirNode} (h : (p, .directory d) ∈ t.tree.entries []) :
    ∃ q vnodes, (q, MerkleTreeNode.mk (.directory d) vnodes) ∈ t.tree.subtrees [] ∧ q ++ d.name = p := by
  rcases List.mem_filterMap.mp h with ⟨⟨q, n, cs⟩, hq, heq⟩
  cases n with
  | file g => cases heq
  | directory d' =>
      obtain ⟨rfl, hd⟩ := Prod.mk.inj (Option.some.inj heq)
      obtain rfl := EMerkleTreeNode.directory.inj hd
      exact ⟨q, cs, hq, rfl⟩
  | vnode v => cases heq
  | commit c => cases heq

theorem exists_subtree_of_file (h : (p, .file f) ∈ t.tree.entries []) :
    ∃ q, (q, MerkleTreeNode.mk (.file f) []) ∈ t.tree.subtrees [] ∧ q ++ f.name = p := by
  rcases mem_files_iff.mp (mem_files_of_mem_entries h) with ⟨q, cs, hq, hp⟩
  rw [t.children_file hq] at hq
  exact ⟨q, hq, hp.symm⟩

/-- What lies at or below the path of an entry is in its tree. -/
theorem mem_entries_below (huniq : UniquePaths [] t.tree) (hs : (q, s) ∈ t.tree.subtrees [])
    (hat : entry? (q, s) = some (path, s.node)) (he : (p, e) ∈ t.tree.entries [])
    (hp : path <+: p) : (p, e) ∈ s.entries q := by
  have hpath := mem_entries_of_mem_subtrees hs hat
  have hstored := t.stored_tree.of_mem_subtrees hs
  by_cases hnil : path = []
  · rcases t.exists_root with ⟨d, vnodes, hroot, hname⟩
    have hmem : ([], MerkleTreeNode.mk (.directory d) vnodes) ∈ t.tree.subtrees [] :=
      child_mem_subtrees (self_mem_subtrees [] t.tree) (by rw [hroot]; exact List.mem_singleton_self _)
    have hentry : entry? ([], MerkleTreeNode.mk (.directory d) vnodes) = some (path, .directory d) := by
      rw [hnil]
      exact congrArg (fun p => some (p, EMerkleTreeNode.directory d)) hname
    have hnode := huniq.eq_of_mem hpath (mem_entries_of_mem_subtrees hmem hentry)
    obtain rfl := hstored.eq_of_node (t.stored_tree.of_mem_subtrees hmem) hnode
    have hq : q = [] := by
      have h := (Prod.mk.inj (Option.some.inj hat)).1
      rw [hname, List.append_nil, hnil] at h
      exact h
    have hentries : t.tree.entries [] = (MerkleTreeNode.mk (.directory d) vnodes).entries [] := by
      rw [tree, entries_mk, hroot, List.flatMap_singleton]
      rfl
    rwa [hq, ← hentries]
  · rcases t.named_tree.exists_above he List.nil_prefix (Ne.symm hnil) hp with
      ⟨q', s', hs', hat', hbelow⟩
    have hnode := huniq.eq_of_mem (mem_entries_of_mem_subtrees hs' hat') hpath
    obtain rfl := (t.stored_tree.of_mem_subtrees hs').eq_of_node hstored hnode
    obtain rfl : q' = q := by
      rcases s' with ⟨n, cs⟩
      cases n with
      | file g =>
          exact List.append_cancel_right ((Prod.mk.inj (Option.some.inj hat')).1.trans
            (Prod.mk.inj (Option.some.inj hat)).1.symm)
      | directory d =>
          exact List.append_cancel_right ((Prod.mk.inj (Option.some.inj hat')).1.trans
            (Prod.mk.inj (Option.some.inj hat)).1.symm)
      | vnode v => cases hat
      | commit c => cases hat
    exact hbelow

/-- Nothing lies below a file. -/
theorem eq_of_file (huniq : UniquePaths [] t.tree) (hf : (path, .file f) ∈ t.tree.entries [])
    (he : (p, e) ∈ t.tree.entries []) (hp : path <+: p) : p = path ∧ e = .file f := by
  rcases exists_subtree_of_file hf with ⟨q, hq, rfl⟩
  have hbelow := mem_entries_below huniq hq rfl he hp
  rw [entries_mk, List.flatMap_nil, List.append_nil] at hbelow
  exact Prod.mk.inj (List.mem_singleton.mp hbelow)

/-- Where nothing is, nothing is below. -/
theorem exists_entry_above (he : (p, e) ∈ t.tree.entries []) (hne : path ≠ [])
    (hp : path <+: p) : ∃ e, (path, e) ∈ t.tree.entries [] := by
  rcases t.named_tree.exists_above he List.nil_prefix (Ne.symm hne) hp with ⟨q, s, hs, hat, -⟩
  exact ⟨s.node, mem_entries_of_mem_subtrees hs hat⟩

end CommitTree

end Oxen
