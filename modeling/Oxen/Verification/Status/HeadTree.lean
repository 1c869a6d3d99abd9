import Oxen.Model.Status
import Oxen.Verification.Commit.FileLookup

/-! What the status reads of the head's tree. -/

namespace Oxen

open MerkleTreeNode

@[simp] theorem PathBuf.display_singleton (name : String) : PathBuf.display [name] = name := by
  simp [PathBuf.display]

namespace CommitMerkleTree

variable {db : NodeStore} {d : DirNode} {vnodes cs : List MerkleTreeNode} {fuel : ℕ}

/-- The entries that the directory under a hash lists. -/
def listed (db : NodeStore) (hash : MerkleHash) : List EMerkleTreeNode :=
  (db.readChildrenFromHash hash).flatMap fun vnode => db.readChildrenFromHash vnode.hash

theorem listed_eq (h : (mk (.directory d) vnodes).Held db)
    (hvnodes : ∀ v ∈ vnodes, ∃ w ds, v = mk (.vnode w) ds) :
    listed db d.hash = (vnodes.flatMap children).map node := by
  have hread : db.readChildrenFromHash d.hash = vnodes.map node := h.readChildren rfl
  rw [listed, hread, List.flatMap_map, List.map_flatMap]
  refine List.flatMap_congr fun v hv => ?_
  rcases hvnodes v hv with ⟨w, ds, rfl⟩
  exact (h.child _ hv).readChildren rfl

/-- A load to depth 1 ends in the entries of the directory. -/
theorem readDepth_one (h : (mk (.directory d) vnodes).Held db)
    (hvnodes : ∀ v ∈ vnodes, ∃ w ds, v = mk (.vnode w) ds) :
    ∃ old loaded, readDepth db (fuel + 2) d.hash 1 = some (mk (.directory old) loaded) ∧
      (∀ v ∈ loaded, ∃ w ds, v = mk (.vnode w) ds) ∧
      (loaded.flatMap children).map node = listed db d.hash := by
  rcases h.exists_record rfl with ⟨record, hr, hnode, hrecord⟩
  rcases EMerkleTreeNode.exists_directory_of_skeleton hnode with ⟨old, hold, -⟩
  rw [hold] at hrecord
  have hread : db.readChildrenFromHash old.hash = vnodes.map node := hrecord.readChildren rfl
  have hload : ∀ v ∈ vnodes,
      (if goesDeeper 1 0 v.node then
          loadChildrenToDepth db 1 (fuel + 1) (depthOfChild 0 v.node) v.node
        else mk v.node []) = loadChildrenToDepth db 1 (fuel + 1) 0 v.node := by
    intro v hv
    rcases hvnodes v hv with ⟨w, ds, rfl⟩
    rfl
  refine ⟨old, vnodes.map fun v => loadChildrenToDepth db 1 (fuel + 1) 0 v.node, ?_, ?_, ?_⟩
  · have hn : (EMerkleTreeNode.directory old).hasChildren = true := rfl
    rw [readDepth, show db d.hash = some record from hr, Option.map_some, hold,
      loadChildrenToDepth, if_pos hn, EMerkleTreeNode.hash_directory, hread, List.map_map]
    exact congrArg (fun loaded => some (mk _ loaded)) (List.map_congr_left hload)
  · intro v hv
    rcases List.mem_map.mp hv with ⟨u, hu, rfl⟩
    rcases hvnodes u hu with ⟨w, ds, rfl⟩
    have hw := node_loadChildrenToDepth db 1 0 (fuel + 1) (.vnode w)
    rw [node_mk]
    generalize loadChildrenToDepth db 1 (fuel + 1) 0 (.vnode w) = u at hw
    rcases u with ⟨n, es⟩
    exact ⟨w, es, by rw [← hw, node_mk]⟩
  · rw [listed_eq h hvnodes, List.flatMap_map, List.map_flatMap, List.map_flatMap]
    refine List.flatMap_congr fun v hv => ?_
    rcases hvnodes v hv with ⟨w, ds, rfl⟩
    rw [node_mk, map_node_children_loadChildrenToDepth rfl, (h.child _ hv).readChildren rfl,
      children_mk]

end CommitMerkleTree

namespace Remove

theorem nameOf_eq {c : MerkleTreeNode} (h : c.isEntry = true) :
    nameOf c = some (c.node.ownPath []) := by
  rcases c with ⟨n, ds⟩
  cases n with
  | file f => rfl
  | directory d => rfl
  | vnode v => cases h
  | commit c => cases h

variable {loaded : List MerkleTreeNode} {name : PathBuf}

/-- The children by their names. -/
theorem lookup_listFilesAndFoldersMap (hvnodes : ∀ v ∈ loaded, ∃ w ds, v = mk (.vnode w) ds)
    (hentry : ∀ c ∈ loaded.flatMap children, c.isEntry = true)
    (hnames : ((loaded.flatMap children).map fun c => c.node.ownPath []).Nodup)
    (n : EMerkleTreeNode) :
    ((listFilesAndFoldersMap loaded).lookup name).map node = some n ↔
      n ∈ (loaded.flatMap children).map node ∧ n.ownPath [] = name := by
  have hpairs : listFilesAndFoldersMap loaded =
      KeyedMap.insertAll ∅ ((loaded.flatMap children).map fun c => (c.node.ownPath [], c)) := by
    unfold listFilesAndFoldersMap
    rw [List.map_flatMap]
    refine congrArg _ (List.flatMap_congr fun v hv => ?_)
    rcases hvnodes v hv with ⟨w, ds, rfl⟩
    have hnameOf : ∀ c ∈ ds, ((nameOf c).map fun name => (name, c)) =
        some (c.node.ownPath [], c) := by
      intro c hc
      rw [nameOf_eq (hentry c (List.mem_flatMap.mpr ⟨_, hv, hc⟩)), Option.map_some]
    exact (List.filterMap_congr hnameOf).trans (congrFun List.filterMap_eq_map ds)
  have hkeys : (((loaded.flatMap children).map fun c => (c.node.ownPath [], c)).map
      Prod.fst).Nodup := by
    rwa [List.map_map]
  rw [hpairs]
  constructor
  · intro h
    rcases Option.map_eq_some_iff.mp h with ⟨c, hc, rfl⟩
    rcases KeyedMap.mem_of_lookup_insertAll hc with hnone | hmem
    · cases hnone
    · rcases List.mem_map.mp hmem with ⟨c', hc', heq⟩
      obtain ⟨rfl, rfl⟩ := Prod.mk.inj heq
      exact ⟨List.mem_map_of_mem hc', rfl⟩
  · rintro ⟨hn, rfl⟩
    rcases List.mem_map.mp hn with ⟨c, hc, rfl⟩
    rw [KeyedMap.lookup_insertAll_of_mem hkeys (List.mem_map.mpr ⟨c, hc, rfl⟩), Option.map_some]

end Remove

namespace Status

open CommitMerkleTree CommitWriter Remove

/-- The index of the head's directories. -/
def headDirHashes (env : Env) (headCommit : Option CommitNode) : DirHashes :=
  (headCommit.map fun commit => env.dirHashes commit.hash).getD ∅

variable {env : Env} {dirHashes : DirHashes} {path : PathBuf} {n m : EMerkleTreeNode}
  {f : FileNode} {name : String}

section

variable (env dirHashes)

/-- The directory above lists the entry under the name of the path. -/
structure Entry (path : PathBuf) (n : EMerkleTreeNode) : Prop where
  ne_nil : path ≠ []
  listed : ∃ hash, dirHashes.lookup path.dropLast = some hash ∧ n ∈ listed env.db hash
  name : n.ownPath [] = leafName path

/-- The head's tree: the index has its directories and no other ones. Without a commit it is
empty. -/
structure HeadTree : Prop where
  good : GoodIndex env.toHost env.db dirHashes
  mem_iff : ∀ path, path ≠ [] → (path ∈ dirHashes ↔ ∃ d, Entry env dirHashes path (.directory d))

def Committed (path : PathBuf) (f : FileNode) : Prop :=
  Entry env dirHashes path (.file f)

end

/-! ## Directories -/

/-- What a directory of the index lists: files and directories under names of their own. -/
structure Lists (db : NodeStore) (hash : MerkleHash) : Prop where
  isEntry : ∀ c : MerkleTreeNode, c.node ∈ listed db hash → c.isEntry = true
  names : ((listed db hash).map fun n => n.ownPath []).Nodup

theorem lists_of_good (hgood : GoodIndex env.toHost env.db dirHashes) {hash : MerkleHash}
    (h : dirHashes.lookup path = some hash) : Lists env.db hash := by
  rcases hgood path hash h with ⟨d, vnodes, rfl, -, hheld, hplaced⟩
  have hlisted := listed_eq hheld fun v hv => hplaced.eq_vnode hv
  constructor
  · intro c hc
    rw [hlisted] at hc
    rcases List.mem_map.mp hc with ⟨c', hc', hnode⟩
    rcases List.mem_flatMap.mp hc' with ⟨v, hv, hcv⟩
    have hplacedV := hplaced.child hv
    rcases hplaced.eq_vnode hv with ⟨w, ds, rfl⟩
    have hentry := hplacedV.isEntry hcv
    rcases c with ⟨n, es⟩
    rcases c' with ⟨n', es'⟩
    obtain rfl : n' = n := hnode
    cases n' with
    | file f => exact hentry
    | directory d => exact hentry
    | vnode v => cases hentry
    | commit c => cases hentry
  · rw [hlisted, List.map_map]
    exact hplaced.bucketed.names

/-- Two entries at one path are the same. -/
theorem Entry.unique (hgood : GoodIndex env.toHost env.db dirHashes)
    (h : Entry env dirHashes path n) (h' : Entry env dirHashes path m) : n = m := by
  rcases h.listed with ⟨hash, hlookup, hn⟩
  rcases h'.listed with ⟨hash', hlookup', hm⟩
  obtain rfl := Option.some.inj (hlookup.symm.trans hlookup')
  exact List.inj_on_of_nodup_map (lists_of_good hgood hlookup).names hn hm
    (h.name.trans h'.name.symm)

theorem Entry.file_or_directory (hgood : GoodIndex env.toHost env.db dirHashes)
    (h : Entry env dirHashes path n) : (∃ f, n = .file f) ∨ ∃ d, n = .directory d := by
  rcases h.listed with ⟨hash, hlookup, hn⟩
  have hentry := (lists_of_good hgood hlookup).isEntry (.mk n []) hn
  cases n with
  | file f => exact .inl ⟨f, rfl⟩
  | directory d => exact .inr ⟨d, rfl⟩
  | vnode v => cases hentry
  | commit c => cases hentry

theorem Committed.notMem (head : HeadTree env dirHashes) (h : Committed env dirHashes path f) :
    path ∉ dirHashes := by
  intro hmem
  rcases (head.mem_iff path h.ne_nil).mp hmem with ⟨d, hd⟩
  cases h.unique head.good hd

/-- The directory above an entry is in the index. -/
theorem Entry.dropLast_mem (h : Entry env dirHashes path n) : path.dropLast ∈ dirHashes := by
  rcases h.listed with ⟨hash, hlookup, -⟩
  rw [← AList.lookup_isSome, hlookup]
  rfl

/-- Every path on the way to an entry is an entry. -/
theorem Entry.of_isPrefix (head : HeadTree env dirHashes) {n : EMerkleTreeNode}
    (h : Entry env dirHashes path n) {dir : PathBuf} (hdir : dir <+: path)
    (hne : dir ≠ []) :
    (∃ m, Entry env dirHashes dir m) ∧ (dir ≠ path → dir ∈ dirHashes) := by
  rcases hdir with ⟨rest, rfl⟩
  induction rest using List.reverseRecOn generalizing n with
  | nil =>
      rw [List.append_nil] at h ⊢
      exact ⟨⟨n, h⟩, fun hne => absurd rfl hne⟩
  | append_singleton rest name ih =>
      rw [← List.append_assoc] at h ⊢
      have hmem := h.dropLast_mem
      rw [List.dropLast_concat] at hmem
      rcases (head.mem_iff _ (by simp [hne])).mp hmem with ⟨d, hd⟩
      rcases ih hd with ⟨hentry, hindex⟩
      refine ⟨hentry, fun _ => ?_⟩
      by_cases heq : dir = dir ++ rest
      · rwa [← heq] at hmem
      · exact hindex heq

/-! ## Reading -/

theorem entry_concat_iff {hash : MerkleHash} (h : dirHashes.lookup path = some hash) :
    Entry env dirHashes (path ++ [name]) n ↔ n ∈ listed env.db hash ∧ n.ownPath [] = [name] := by
  constructor
  · intro hentry
    rcases hentry.listed with ⟨hash', hlookup, hn⟩
    rw [List.dropLast_concat, h] at hlookup
    obtain rfl := Option.some.inj hlookup
    exact ⟨hn, by rw [hentry.name, leafName_append_singleton]⟩
  · rintro ⟨hn, hname⟩
    exact ⟨by simp, ⟨hash, by rw [List.dropLast_concat, h], hn⟩,
      by rw [hname, leafName_append_singleton]⟩

/-- The entries of a directory of the index as they are loaded. -/
theorem exists_children (hgood : GoodIndex env.toHost env.db dirHashes) (hfuel : 2 ≤ env.fuel)
    {hash : MerkleHash} (h : dirHashes.lookup path = some hash) :
    ∃ loaded children, readDepth env.db env.fuel hash 1 = some loaded ∧
      listFilesAndFolders loaded = .ok children ∧
      children.map MerkleTreeNode.node = listed env.db hash ∧
      ∀ c ∈ children, c.isEntry = true := by
  have hlists := lists_of_good hgood h
  rcases hgood path hash h with ⟨d, vnodes, rfl, -, hheld, hplaced⟩
  rcases Nat.exists_eq_add_of_le' hfuel with ⟨fuel, hfuelEq⟩
  rcases @readDepth_one env.db d vnodes fuel hheld fun v hv => hplaced.eq_vnode hv with
    ⟨old, loaded, hread, hvnodes, hlisted⟩
  refine ⟨mk (.directory old) loaded, loaded.flatMap children, by rw [hfuelEq, hread], ?_,
    hlisted, fun c hc => hlists.isEntry c ?_⟩
  · refine congrArg Except.ok (List.flatMap_congr fun v hv => ?_)
    rcases hvnodes v hv with ⟨w, ds, rfl⟩
    rfl
  · rw [← hlisted]
    exact List.mem_map_of_mem hc

/-- An entry has a name of one component. -/
theorem exists_name_of_isEntry {c : MerkleTreeNode} (h : c.isEntry = true) :
    ∃ name, c.node.ownPath [] = [name] := by
  rcases c with ⟨n, cs⟩
  cases n with
  | file f => exact List.length_eq_one_iff.mp (of_decide_eq_true h)
  | directory d => exact List.length_eq_one_iff.mp (of_decide_eq_true h)
  | vnode v => cases h
  | commit c => cases h

/-- A directory of the index is read with its children. -/
theorem maybeGetNode_of_mem (hgood : GoodIndex env.toHost env.db dirHashes) (hfuel : 2 ≤ env.fuel)
    (h : path ∈ dirHashes) :
    ∃ d loaded, maybeGetNode env dirHashes path = some (mk (.directory d) loaded) ∧
      ∀ name n, ((listFilesAndFoldersMap loaded).lookup [name]).map node = some n ↔
        Entry env dirHashes (path ++ [name]) n := by
  rcases Option.isSome_iff_exists.mp (AList.lookup_isSome.mpr h) with ⟨hash, hlookup⟩
  have hlists := lists_of_good hgood hlookup
  rcases hgood path hash hlookup with ⟨d, vnodes, rfl, -, hheld, hplaced⟩
  rcases Nat.exists_eq_add_of_le' hfuel with ⟨fuel, hfuelEq⟩
  rcases @readDepth_one env.db d vnodes fuel hheld fun v hv => hplaced.eq_vnode hv with
    ⟨old, loaded, hread, hvnodes, hlisted⟩
  refine ⟨old, loaded, ?_, fun name n => ?_⟩
  · rw [maybeGetNode, hlookup, hfuelEq]
    exact hread
  · have hentry : ∀ c ∈ loaded.flatMap children, c.isEntry = true := fun c hc =>
      hlists.isEntry c (by rw [← hlisted]; exact List.mem_map_of_mem hc)
    have hnames : ((loaded.flatMap children).map fun c => c.node.ownPath []).Nodup := by
      have hnodup := hlists.names
      rwa [← hlisted, List.map_map] at hnodup
    rw [lookup_listFilesAndFoldersMap hvnodes hentry hnames, hlisted, entry_concat_iff hlookup]

/-- What is read as a file is an entry of the directory above. -/
theorem entry_of_readFileNode (hgood : GoodIndex env.toHost env.db dirHashes) {fuel : ℕ}
    {u : MerkleTreeNode}
    (h : readFileNode env.toHost env.db dirHashes (fuel + 1) path = some u) :
    Entry env dirHashes path u.node := by
  rcases listed_of_readFileNode hgood h with ⟨hne, hash, hlookup, vnode, hvnode, hu, hname⟩
  exact ⟨hne, ⟨hash, hlookup, List.mem_flatMap.mpr ⟨vnode, hvnode, hu⟩⟩, hname⟩

/-- Besides the directories only files are read. -/
theorem maybeGetNode_of_not_mem (head : HeadTree env dirHashes) (hfuel : 2 ≤ env.fuel)
    (h : path ∉ dirHashes) :
    (maybeGetNode env dirHashes path = none ∧ ∀ f, ¬ Committed env dirHashes path f) ∨
      ∃ f cs, maybeGetNode env dirHashes path = some (mk (.file f) cs) ∧
        Committed env dirHashes path f := by
  rcases Nat.exists_eq_add_of_le' (Nat.le_of_succ_le hfuel) with ⟨fuel, hfuelEq⟩
  have hread : maybeGetNode env dirHashes path =
      readFileNode env.toHost env.db dirHashes (fuel + 1) path := by
    rw [maybeGetNode, AList.lookup_eq_none.mpr h, hfuelEq]
  rw [hread]
  cases hnode : readFileNode env.toHost env.db dirHashes (fuel + 1) path with
  | none =>
      refine .inl ⟨rfl, fun f hf => ?_⟩
      rcases hf.listed with ⟨hash, hlookup, hlisted⟩
      rcases List.mem_flatMap.mp hlisted with ⟨vnode, hvnode, hfile⟩
      have hin := (@readFileNode_file_iff _ _ _ path f fuel head.good).mpr
        ⟨hf.ne_nil, hash, hlookup, vnode, hvnode, hfile, hf.name⟩
      rw [hnode] at hin
      cases hin
  | some u =>
      have hentry := entry_of_readFileNode head.good hnode
      rcases u with ⟨n, cs⟩
      rcases hentry.file_or_directory head.good with ⟨f, hf⟩ | ⟨d, hd⟩
      · obtain rfl : n = .file f := hf
        exact .inr ⟨f, cs, rfl, hentry⟩
      · obtain rfl : n = .directory d := hd
        exact absurd ((head.mem_iff path hentry.ne_nil).mpr ⟨d, hentry⟩) h

namespace NestedExample

def inner : MerkleTreeNode :=
  Oxen.Example.dir ["d"] 0x20 [Oxen.Example.file "x" [2] 2]

def root : MerkleTreeNode :=
  Oxen.Example.dir [] 0x10 [Oxen.Example.file "a" [1] 1, inner]

/-- HEAD has the files `a` and `d/x`. -/
def committed : Env where
  toLocalRepository := Oxen.Example.repo
  db := .ofTrees [.mk (.commit { hash := 0x1 }) [root]]
  dirHashes _ := KeyedMap.insertAll ∅ [([], 0x10), (["d"], 0x20)]
  refs := { headFile := some "main", branches := AList.insert "main" "1" ∅ }
  gitignore _ _ := false
  fuel := 10

abbrev head : DirHashes :=
  headDirHashes committed (some { hash := 0x1 })

theorem lookup_head {path : PathBuf} {hash : MerkleHash} (h : head.lookup path = some hash) :
    path = [] ∧ hash = 0x10 ∨ path = ["d"] ∧ hash = 0x20 := by
  rcases KeyedMap.lookup_insert_eq_some.mp h with ⟨rfl, rfl⟩ | ⟨-, h⟩
  · exact .inr ⟨rfl, rfl⟩
  · rcases KeyedMap.lookup_insert_eq_some.mp h with ⟨rfl, rfl⟩ | ⟨-, hnone⟩
    · exact .inl ⟨rfl, rfl⟩
    · cases hnone

theorem wellPlaced_inner (path : PathBuf) : WellPlaced committed.toHost path inner := by
  refine wellPlaced_single (by decide) (by decide) fun c hc => ?_
  obtain rfl := List.mem_singleton.mp hc
  exact wellPlaced_file _ _

theorem wellPlaced_root : WellPlaced committed.toHost [] root := by
  refine wellPlaced_single (by decide) (by decide) fun c hc => ?_
  simp only [List.mem_cons, List.not_mem_nil, or_false] at hc
  rcases hc with rfl | rfl
  · exact wellPlaced_file _ _
  · exact wellPlaced_inner _

theorem listed_root : listed committed.db 0x10 =
    [.file (Oxen.Example.fileNode "a" [1] 1), .directory { name := ["d"], hash := 0x20 }] := by
  decide

theorem listed_inner : listed committed.db 0x20 = [.file (Oxen.Example.fileNode "x" [2] 2)] := by
  decide

theorem entry_iff {path : PathBuf} {n : EMerkleTreeNode} :
    Entry committed head path n ↔
      path = ["a"] ∧ n = .file (Oxen.Example.fileNode "a" [1] 1) ∨
        path = ["d"] ∧ n = .directory { name := ["d"], hash := 0x20 } ∨
          path = ["d", "x"] ∧ n = .file (Oxen.Example.fileNode "x" [2] 2) := by
  constructor
  · intro h
    rcases h.listed with ⟨hash, hlookup, hmem⟩
    rw [← dropLast_append_leafName path, ← h.name]
    rcases lookup_head hlookup with ⟨hparent, rfl⟩ | ⟨hparent, rfl⟩
    · rw [listed_root] at hmem
      simp only [List.mem_cons, List.not_mem_nil, or_false] at hmem
      rw [hparent]
      rcases hmem with rfl | rfl
      · exact .inl ⟨rfl, rfl⟩
      · exact .inr (.inl ⟨rfl, rfl⟩)
    · rw [listed_inner] at hmem
      obtain rfl := List.mem_singleton.mp hmem
      rw [hparent]
      exact .inr (.inr ⟨rfl, rfl⟩)
  · rintro (⟨rfl, rfl⟩ | ⟨rfl, rfl⟩ | ⟨rfl, rfl⟩)
    · exact ⟨by decide, ⟨0x10, by decide, by rw [listed_root]; simp⟩, rfl⟩
    · exact ⟨by decide, ⟨0x10, by decide, by rw [listed_root]; simp⟩, rfl⟩
    · exact ⟨by decide, ⟨0x20, by decide, by rw [listed_inner]; simp⟩, rfl⟩

theorem headTree : HeadTree committed head where
  good path hash hlookup := by
    have hstored : root.Stored committed.db := by decide
    rcases lookup_head hlookup with ⟨rfl, rfl⟩ | ⟨rfl, rfl⟩
    · exact ⟨{ name := [], hash := 0x10 }, root.children, rfl, rfl, hstored.held, wellPlaced_root⟩
    · exact ⟨{ name := ["d"], hash := 0x20 }, inner.children, rfl, rfl,
        (hstored.held.child _ (List.mem_singleton.mpr rfl)).child inner
          (List.mem_cons_of_mem _ List.mem_cons_self), wellPlaced_inner _⟩
  mem_iff path hne := by
    constructor
    · intro hmem
      rcases Option.isSome_iff_exists.mp (AList.lookup_isSome.mpr hmem) with ⟨hash, hlookup⟩
      rcases lookup_head hlookup with ⟨rfl, -⟩ | ⟨rfl, -⟩
      · exact absurd rfl hne
      · exact ⟨_, entry_iff.mpr (.inr (.inl ⟨rfl, rfl⟩))⟩
    · rintro ⟨d, hd⟩
      rcases entry_iff.mp hd with ⟨-, hfile⟩ | ⟨rfl, -⟩ | ⟨-, hfile⟩
      · cases hfile
      · decide
      · cases hfile

end NestedExample

end Status

end Oxen
