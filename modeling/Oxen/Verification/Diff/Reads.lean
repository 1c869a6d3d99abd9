import Oxen.Verification.Diff.Sides

/-! A commit with a current index is read as its tree says. -/

namespace Oxen

open MerkleTreeNode CommitMerkleTree CommitWriter Diff

theorem MerkleTreeNode.size_le_of_mem_subtrees {t s : MerkleTreeNode} {path q : PathBuf}
    (h : (q, s) ∈ t.subtrees path) : s.size ≤ t.size := by
  induction t generalizing path with
  | mk n cs ih =>
      rw [subtrees_mk, List.mem_cons, List.mem_flatMap] at h
      rcases h with h | ⟨c, hc, h⟩
      · rw [(Prod.mk.inj h).2]
      · have hle := List.le_sum_of_mem (List.mem_map_of_mem (f := size) hc)
        have hbelow := ih c hc h
        rw [size_mk]
        omega

namespace CommitTree

variable {db : NodeStore} {t : CommitTree db} {host : Host} {dirHashes : MerkleHash → DirHashes}
  {path p q : PathBuf} {e n : EMerkleTreeNode} {d : DirNode} {f : FileNode} {fuel : ℕ}

/-! ## The index -/

theorem CurrentIndex.goodIndex (h : CurrentIndex host dirHashes t) :
    GoodIndex host db (dirHashes t.id) := by
  intro path hash hlookup
  rcases (h.lookup path hash).mp hlookup with ⟨d, hd, rfl⟩
  rcases exists_subtree_of_directory hd with ⟨q, vnodes, hq, rfl⟩
  have hplaced := h.placed.of_mem_subtrees hq
  have hheld := t.stored_tree.held.of_mem_subtrees hq
  rcases directory_place hq with hlength | ⟨hname, rfl⟩
  · rcases List.length_eq_one_iff.mp hlength with ⟨name, hname⟩
    refine ⟨d, vnodes, rfl, ?_, hheld, ?_⟩
    · rw [hname, leafName_append_singleton]
    · rwa [hname, List.dropLast_concat]
  · refine ⟨d, vnodes, rfl, ?_, hheld, ?_⟩
    · rw [hname]
      rfl
    · rwa [hname]

/-- What the index lists in the directory above a path is in the tree. -/
theorem CurrentIndex.mem_entries_of_listed (h : CurrentIndex host dirHashes t) {hash : MerkleHash}
    (hlookup : (dirHashes t.id).lookup path.dropLast = some hash) {vnode : EMerkleTreeNode}
    (hvnode : vnode ∈ db.readChildrenFromHash hash) (hn : n ∈ db.readChildrenFromHash vnode.hash)
    (hname : n.ownPath [] = leafName path) : (path, n) ∈ t.tree.entries [] := by
  rcases (h.lookup _ hash).mp hlookup with ⟨d, hd, rfl⟩
  rcases exists_subtree_of_directory hd with ⟨q, vnodes, hq, hparent⟩
  have hheld := t.stored_tree.held.of_mem_subtrees hq
  have hread : db.readChildrenFromHash d.hash = vnodes.map node := hheld.readChildren rfl
  rw [hread] at hvnode
  rcases List.mem_map.mp hvnode with ⟨v, hv, rfl⟩
  rcases t.eq_vnode_of_mem hq hv with ⟨w, cs, rfl⟩
  have hbelow : db.readChildrenFromHash w.hash = cs.map node := (hheld.child _ hv).readChildren rfl
  rw [node_mk, EMerkleTreeNode.hash_vnode, hbelow] at hn
  rcases List.mem_map.mp hn with ⟨c, hc, rfl⟩
  have hvmem := child_mem_subtrees hq hv
  have hcmem := child_mem_subtrees hvmem hc
  have hentry := t.isEntry_of_mem hvmem hc
  have hpath : path = q ++ d.name ++ c.node.ownPath [] := by
    rw [hparent, hname, dropLast_append_leafName]
  refine mem_entries_of_mem_subtrees hcmem ?_
  rcases c with ⟨m, ds⟩
  cases m with
  | file f =>
      rw [hpath]
      rfl
  | directory d' =>
      rw [hpath]
      rfl
  | vnode v => cases hentry
  | commit c => cases hentry

/-- The index lists the files of the tree in their directories. -/
theorem CurrentIndex.listedInParent (h : CurrentIndex host dirHashes t)
    (hf : (path, .file f) ∈ t.tree.entries []) :
    ListedInParent db (dirHashes t.id) path f := by
  rcases exists_subtree_of_file hf with ⟨q, hq, rfl⟩
  have hlength := t.length_file_name hq
  rcases List.length_eq_one_iff.mp hlength with ⟨name, hname⟩
  rcases mem_subtrees_cases hq with heq | ⟨r, n, cs, hr, hmem, hqr⟩
  · cases (Prod.mk.inj heq).2
  cases n with
  | file g =>
      rw [t.children_file hr] at hmem
      cases hmem
  | directory d =>
      rcases t.eq_vnode_of_mem hr hmem with ⟨w, ds, hw⟩
      cases hw
  | commit c =>
      rcases t.eq_root_of_commit_mem hr with ⟨-, htree⟩
      rcases t.exists_root with ⟨d, vnodes, hroot, -⟩
      rw [(MerkleTreeNode.mk.inj htree).2, hroot] at hmem
      cases List.mem_singleton.mp hmem
  | vnode v =>
      obtain rfl : q = r := hqr
      rcases mem_subtrees_cases hr with heq | ⟨r, n, vnodes, hd, hv, hqr⟩
      · cases (Prod.mk.inj heq).2
      cases n with
      | file g =>
          rw [t.children_file hd] at hv
          cases hv
      | vnode w => cases t.isEntry_of_mem hd hv
      | commit c =>
          rcases t.eq_root_of_commit_mem hd with ⟨-, htree⟩
          rcases t.exists_root with ⟨d, vnodes', hroot, -⟩
          rw [(MerkleTreeNode.mk.inj htree).2, hroot] at hv
          cases List.mem_singleton.mp hv
      | directory d =>
          obtain rfl : q = r ++ d.name := hqr
          have hheld := t.stored_tree.held.of_mem_subtrees hd
          have hlookup := (h.lookup (r ++ d.name) d.hash).mpr
            ⟨d, mem_entries_of_mem_subtrees hd rfl, rfl⟩
          have hread : db.readChildrenFromHash d.hash = vnodes.map node := hheld.readChildren rfl
          have hbelow : db.readChildrenFromHash v.hash = cs.map node :=
            (hheld.child _ hv).readChildren rfl
          rw [hname]
          refine ⟨by simp, d.hash, ?_, .vnode v, ?_, ?_, ?_⟩
          · rwa [List.dropLast_concat]
          · rw [hread]
            exact List.mem_map_of_mem hv
          · rw [EMerkleTreeNode.hash_vnode, hbelow]
            exact List.mem_map_of_mem hmem
          · rw [hname, leafName_append_singleton]

/-! ## The reads -/

/-- A directory is read with everything below it. -/
theorem CurrentIndex.read_directory (h : CurrentIndex host dirHashes t)
    (hd : (path, .directory d) ∈ t.tree.entries []) (hfuel : t.tree.size ≤ fuel) :
    ∃ q vnodes, (q, MerkleTreeNode.mk (.directory d) vnodes) ∈ t.tree.subtrees [] ∧
      q ++ d.name = path ∧
      readFromPathMaybe host db dirHashes fuel t.commit path = some (.mk (.directory d) vnodes) := by
  rcases exists_subtree_of_directory hd with ⟨q, vnodes, hq, rfl⟩
  have hlookup := (h.lookup _ d.hash).mpr ⟨d, hd, rfl⟩
  have hread := readDepth_of_stored (t.stored_tree.of_mem_subtrees hq) rfl
    ((size_le_of_mem_subtrees hq).trans hfuel)
  refine ⟨q, vnodes, hq, rfl, ?_⟩
  rw [readFromPathMaybe, readDepthFromPath, show (dirHashes t.commit.hash).lookup _ = _ from hlookup]
  rw [node_mk, EMerkleTreeNode.hash_directory] at hread
  simp only [hread]
  rfl

theorem CurrentIndex.readFromPathMaybe_eq (h : CurrentIndex host dirHashes t)
    (hpath : ∀ d, (path, .directory d) ∉ t.tree.entries []) :
    readFromPathMaybe host db dirHashes fuel t.commit path =
      readFileNode host db (dirHashes t.id) fuel path := by
  apply readDepthFromPath_of_notMem
  apply Option.eq_none_iff_forall_ne_some.mpr
  intro hash hlookup
  rcases (h.lookup path hash).mp hlookup with ⟨d, hd, -⟩
  exact hpath d hd

theorem CurrentIndex.read_file (h : CurrentIndex host dirHashes t)
    (hf : (path, .file f) ∈ t.tree.entries []) (hfuel : t.tree.size ≤ fuel) :
    ∃ cs, readFromPathMaybe host db dirHashes fuel t.commit path = some (.mk (.file f) cs) := by
  obtain ⟨fuel, rfl⟩ : ∃ k, fuel = k + 1 := ⟨fuel - 1, by have := size_pos t.tree; omega⟩
  have hread : (readFileNode host db (dirHashes t.id) (fuel + 1) path).bind fileNode? = some f :=
    (readFileNode_file_iff h.goodIndex).mpr (h.listedInParent hf)
  rw [h.readFromPathMaybe_eq fun d hd => by cases h.uniquePaths.eq_of_mem hf hd]
  rcases Option.bind_eq_some_iff.mp hread with ⟨⟨n, cs⟩, hn, hnode⟩
  cases n with
  | file g =>
      obtain rfl : g = f := Option.some.inj hnode
      exact ⟨cs, hn⟩
  | directory d => cases hnode
  | vnode v => cases hnode
  | commit c => cases hnode

theorem CurrentIndex.read_nothing (h : CurrentIndex host dirHashes t)
    (hpath : ∀ n, (path, n) ∉ t.tree.entries []) (hfuel : t.tree.size ≤ fuel) :
    readFromPathMaybe host db dirHashes fuel t.commit path = none := by
  obtain ⟨fuel, rfl⟩ : ∃ k, fuel = k + 1 := ⟨fuel - 1, by have := size_pos t.tree; omega⟩
  rw [h.readFromPathMaybe_eq fun d => hpath _]
  apply Option.eq_none_iff_forall_ne_some.mpr
  intro u hu
  rcases listed_of_readFileNode h.goodIndex hu with ⟨-, hash, hlookup, vnode, hvnode, hn, hname⟩
  exact hpath _ (h.mem_entries_of_listed hlookup hvnode hn hname)

end CommitTree

namespace Diff

variable {db : NodeStore} {t : CommitTree db} {host : Host} {dirHashes : MerkleHash → DirHashes}
  {path p r : PathBuf} {d : DirNode} {f : FileNode} {l : Listing} {fuel : ℕ}

/-! ## What is listed -/

/-- The listing has the files and directories of the commit below the path. -/
structure ListsBelow (t : CommitTree db) (path : PathBuf) (l : Listing) : Prop where
  files : ∀ r f, (∃ g ∈ l.files.elems, g.path = r ∧ g.fileNode = f) ↔
    (path ++ r, .file f) ∈ t.tree.entries []
  dirs : ∀ r d, ⟨d, r⟩ ∈ l.dirs.elems ↔ r ≠ [] ∧ (path ++ r, .directory d) ∈ t.tree.entries []

/-- What lies below a directory are the entries of its virtual nodes. -/
theorem mem_entries_directory (huniq : UniquePaths [] t.tree) {q : PathBuf}
    {vnodes : List MerkleTreeNode} {e : EMerkleTreeNode}
    (hq : (q, MerkleTreeNode.mk (.directory d) vnodes) ∈ t.tree.subtrees []) :
    (q ++ d.name ++ r, e) ∈ t.tree.entries [] ↔
      (r = [] ∧ e = .directory d) ∨ (r, e) ∈ vnodes.flatMap (entries []) := by
  have hsplit : (q ++ d.name ++ r, e) ∈ (MerkleTreeNode.mk (.directory d) vnodes).entries q ↔
      (r = [] ∧ e = .directory d) ∨ (r, e) ∈ vnodes.flatMap (entries []) := by
    rw [entries_mk, List.mem_append, List.mem_flatMap, List.mem_flatMap]
    refine or_congr (by simp [ entry?]) (exists_congr fun v => and_congr_right fun _ => ?_)
    have happend := @mem_entries_append v (q ++ d.name) [] r e
    rwa [List.append_nil] at happend
  rw [← hsplit]
  constructor
  · intro he
    exact CommitTree.mem_entries_below huniq hq rfl he (List.prefix_append _ _)
  · intro he
    rcases List.mem_filterMap.mp he with ⟨x, hx, hentry⟩
    exact mem_entries_of_mem_subtrees (mem_subtrees_trans hq hx) hentry

theorem listsBelow_directory (h : CommitTree.CurrentIndex host dirHashes t)
    (hd : (path, .directory d) ∈ t.tree.entries []) (hfuel : t.tree.size ≤ fuel) :
    ListsBelow t path (listingOf path (readFromPathMaybe host db dirHashes fuel t.commit path)) := by
  rcases h.read_directory hd hfuel with ⟨q, vnodes, hq, rfl, hread⟩
  have hplaced := h.placed.of_mem_subtrees hq
  have hheld := t.stored_tree.held.of_mem_subtrees hq
  have hdir : ∃ d', (MerkleTreeNode.mk (.directory d) vnodes).node = .directory d' := ⟨d, rfl⟩
  have hitems := map_entry_rListFilesAndDirs hplaced hheld.leafy (.inl hdir) []
  have hdistinct : DistinctPaths (MerkleTreeNode.mk (.directory d) vnodes) := by
    have hentries : vnodes.flatMap (entries (q ++ d.name)) =
        (vnodes.flatMap (entries [])).map fun x => (q ++ d.name ++ x.1, x.2) := by
      rw [List.map_flatMap]
      refine List.flatMap_congr fun v _ => ?_
      rw [← entries_append, List.append_nil]
    have hunique := h.uniquePaths.of_mem_subtrees hq
    rw [UniquePaths, entries_mk, List.map_append] at hunique
    have hbelow := (List.nodup_append.mp hunique).2.1
    rw [show EMerkleTreeNode.ownPath q (.directory d) = q ++ d.name from rfl, hentries,
      List.map_map] at hbelow
    refine List.Nodup.of_map (q ++ d.name ++ ·) ?_
    rwa [List.map_map]
  have hmem : ∀ r e, (r, e) ∈ vnodes.flatMap (entries []) ↔
      ∃ item ∈ rListFilesAndDirs [] (MerkleTreeNode.mk (.directory d) vnodes),
        Item.entry item = (r, e) := by
    intro r e
    rw [← List.mem_map, hitems, children_mk]
  rw [hread]
  constructor
  · intro r f
    rw [mem_entries_directory h.uniquePaths hq, hmem]
    constructor
    · rintro ⟨g, hg, rfl, rfl⟩
      exact .inr ⟨.inl g, (mem_files_iff hplaced hheld.leafy hdir hdistinct).mp hg, rfl⟩
    · rintro (⟨-, heq⟩ | ⟨item, hitem, heq⟩)
      · cases heq
      · rcases item with g | d'
        · obtain ⟨rfl, hf⟩ := Prod.mk.inj heq
          exact ⟨g, (mem_files_iff hplaced hheld.leafy hdir hdistinct).mpr hitem, rfl,
            EMerkleTreeNode.file.inj hf⟩
        · cases (Prod.mk.inj heq).2
  · intro r d'
    rw [mem_entries_directory h.uniquePaths hq, hmem, listingOf,
      mem_dirs_iff hplaced hheld.leafy hdir hdistinct]
    constructor
    · intro hitem
      exact ⟨dir_ne_nil hitem, .inr ⟨_, hitem, rfl⟩⟩
    · rintro ⟨hne, ⟨hnil, -⟩ | ⟨item, hitem, heq⟩⟩
      · exact absurd hnil hne
      · rcases item with g | d''
        · cases (Prod.mk.inj heq).2
        · obtain ⟨hr, hd'⟩ := Prod.mk.inj heq
          obtain ⟨dirNode, place⟩ := d''
          obtain rfl : place = r := hr
          obtain rfl := EMerkleTreeNode.directory.inj hd'
          exact hitem

/-- Where the commit has nothing, nothing is listed. -/
theorem listsBelow_nothing (hpath : ∀ n, (path, n) ∉ t.tree.entries []) :
    ListsBelow t path {} := by
  have hne : path ≠ [] := by
    rintro rfl
    rcases t.exists_root with ⟨d, vnodes, hroot, hname⟩
    have hmem : ([], MerkleTreeNode.mk (.directory d) vnodes) ∈ t.tree.subtrees [] :=
      child_mem_subtrees (self_mem_subtrees [] t.tree)
        (by rw [hroot]; exact List.mem_singleton_self _)
    refine hpath (.directory d) (mem_entries_of_mem_subtrees hmem ?_)
    exact congrArg (fun p => some (p, EMerkleTreeNode.directory d)) hname
  have hbelow : ∀ r e, (path ++ r, e) ∉ t.tree.entries [] := by
    intro r e he
    rcases CommitTree.exists_entry_above he hne (List.prefix_append _ _) with ⟨n, hn⟩
    exact hpath n hn
  constructor
  · intro r f
    constructor
    · rintro ⟨g, hg, -⟩
      cases hg
    · intro hf
      exact absurd hf (hbelow r _)
  · intro r d
    constructor
    · intro hd
      cases hd
    · rintro ⟨-, hd⟩
      exact absurd hd (hbelow r _)

/-- A listing has the files of the commit at or below the path. -/
theorem ListsBelow.fileAt (h : ListsBelow t path l) (huniq : UniquePaths [] t.tree)
    (hp : path <+: p) : l.fileAt path p = t.fileMap.lookup p := by
  rcases hp with ⟨r, rfl⟩
  apply Option.ext
  intro f
  rw [Listing.fileAt_append, Option.map_eq_some_iff, CommitTree.lookup_fileMap_iff_entries huniq,
    ← h.files]
  simp only [KeySet.get_eq_some_iff, and_assoc]

/-- The files of the commit below a path. -/
def filesBelow (t : CommitTree db) (dir : PathBuf) : ℕ :=
  (t.tree.files []).countP fun x => isBelow dir x.1

/-- The files that are listed below a directory are those of the commit. -/
theorem ListsBelow.countP_files (h : ListsBelow t path l) (huniq : UniquePaths [] t.tree)
    (r : PathBuf) :
    l.files.elems.countP (fun f => r <+: f.dir) = filesBelow t (path ++ r) := by
  have hnames : ∀ f ∈ l.files.elems, f.fileNode.name.length = 1 := by
    intro f hf
    rcases CommitTree.exists_subtree_of_file ((h.files _ _).mp ⟨f, hf, rfl, rfl⟩) with ⟨q, hq, -⟩
    exact t.length_file_name hq
  have hperm : (l.files.elems.map fun f => (path ++ f.path, f.fileNode)).Perm
      ((t.tree.files []).filter fun x => path <+: x.1) := by
    rw [List.perm_ext_iff_of_nodup]
    · rintro ⟨p, f⟩
      rw [List.mem_map, List.mem_filter, decide_eq_true_iff]
      constructor
      · rintro ⟨g, hg, heq⟩
        obtain ⟨rfl, rfl⟩ := Prod.mk.inj heq
        exact ⟨mem_files_of_mem_entries ((h.files _ _).mp ⟨g, hg, rfl, rfl⟩),
          List.prefix_append _ _⟩
      · rintro ⟨hf, r, rfl⟩
        rcases (h.files r f).mpr (mem_entries_of_file hf) with ⟨g, hg, rfl, rfl⟩
        exact ⟨g, hg, rfl⟩
    · refine List.Nodup.of_map Prod.fst ?_
      rw [List.map_map]
      have hkeys := l.files.nodup_keys.map (List.append_right_injective path)
      rwa [List.map_map] at hkeys
    · exact (huniq.nodup_files.of_map Prod.fst).filter _
  have hcount := hperm.countP_eq fun x => isBelow (path ++ r) x.1
  rw [List.countP_map, List.countP_filter] at hcount
  rw [filesBelow]
  refine Eq.trans ?_ (hcount.trans ?_)
  · refine List.countP_congr fun f hf => ?_
    rw [Function.comp_apply, isBelow_path (hnames f hf)]
  · refine List.countP_congr fun x _ => ?_
    rw [Bool.and_eq_true, decide_eq_true_iff]
    refine and_iff_left_of_imp fun hbelow => ?_
    rw [isBelow, Bool.and_eq_true, decide_eq_true_iff] at hbelow
    exact (List.prefix_append _ _).trans hbelow.1

end Diff

end Oxen
