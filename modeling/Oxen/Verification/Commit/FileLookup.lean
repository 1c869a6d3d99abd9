import Oxen.Model.TreeSearch
import Oxen.Verification.Commit.DirHash
import Oxen.Verification.Commit.WriterRun

/-! Reading one file through the index of a commit. -/

namespace Oxen

open MerkleTreeNode

namespace CommitMerkleTree

variable {host : Host} {db : NodeStore} {index : DirHashes} {path : PathBuf} {f : FileNode}
  {depth traversed : ℤ} {fuel : ℕ}

/-! ## Loads of limited depth -/

@[simp] theorem node_loadChildrenToDepth (db : NodeStore) (depth traversed : ℤ) (fuel : ℕ)
    (n : EMerkleTreeNode) : (loadChildrenToDepth db depth fuel traversed n).node = n := by
  cases fuel with
  | zero => rfl
  | succ fuel =>
      rw [loadChildrenToDepth]
      split
      · rfl
      · rfl

/-- However deep it goes, a load finds the children of the node itself. -/
theorem map_node_children_loadChildrenToDepth {n : EMerkleTreeNode} (hn : n.hasChildren = true) :
    (loadChildrenToDepth db depth (fuel + 1) traversed n).children.map node =
      db.readChildrenFromHash n.hash := by
  rw [loadChildrenToDepth, if_pos hn, children_mk, List.map_map]
  refine (List.map_congr_left fun child _ => ?_).trans (List.map_id _)
  rw [Function.comp_apply]
  split
  · rw [node_loadChildrenToDepth, id]
  · rfl

/-- An entry of a virtual node with nothing below it. -/
def withoutChildren (c : MerkleTreeNode) : MerkleTreeNode :=
  .mk c.node []

/-- Depth 0 stops at the entries of a virtual node. -/
theorem loadChildrenToDepth_vnode {v : VNode} {cs : List MerkleTreeNode}
    (h : (mk (.vnode v) cs).Held db) (hentry : ∀ c ∈ cs, c.isEntry = true) :
    loadChildrenToDepth db 0 (fuel + 1) 0 (.vnode v) = .mk (.vnode v) (cs.map withoutChildren) := by
  rw [loadChildrenToDepth, h.readChildren rfl, List.map_map]
  refine congrArg (mk _) (List.map_congr_left fun c hc => if_neg ?_)
  have hc := hentry c hc
  obtain ⟨n, ds⟩ := c
  cases n with
  | file f => simp [goesDeeper]
  | directory d => simp [goesDeeper]
  | vnode v => cases hc
  | commit c => cases hc

/-- The virtual nodes of a directory are read under their hashes. -/
theorem readDepth_directory {d : DirNode} {vnodes : List MerkleTreeNode}
    (h : (mk (.directory d) vnodes).Held db) :
    ∃ root, readDepth db (fuel + 1) d.hash depth = some root ∧
      root.children.map hash = vnodes.map hash := by
  rcases h.exists_record rfl with ⟨record, hr, hnode, hrecord⟩
  rcases EMerkleTreeNode.exists_directory_of_skeleton hnode with ⟨old, hold, -⟩
  rw [hold] at hrecord
  have hload := @map_node_children_loadChildrenToDepth db depth 0 fuel (.directory old) rfl
  rw [hrecord.readChildren rfl] at hload
  refine ⟨_, by rw [readDepth, show db d.hash = some record from hr, Option.map_some], ?_⟩
  rw [hold]
  have hhashes := congrArg (List.map EMerkleTreeNode.hash) hload
  rwa [List.map_map, List.map_map] at hhashes

theorem readDepth_vnode {v : VNode} {cs : List MerkleTreeNode} (h : (mk (.vnode v) cs).Held db)
    (hentry : ∀ c ∈ cs, c.isEntry = true) :
    ∃ w, readDepth db (fuel + 1) v.hash 0 = some (.mk (.vnode w) (cs.map withoutChildren)) := by
  rcases h.exists_record rfl with ⟨record, hr, hnode, hrecord⟩
  rcases EMerkleTreeNode.exists_vnode_of_skeleton hnode with ⟨w, hw, -⟩
  rw [hw] at hrecord
  refine ⟨w, ?_⟩
  rw [readDepth, show db v.hash = some record from hr, Option.map_some, hw,
    loadChildrenToDepth_vnode hrecord hentry]

/-! ## The search in one virtual node -/

theorem leafy_withoutChildren {cs : List MerkleTreeNode} (v : VNode) :
    (mk (.vnode v) (cs.map withoutChildren)).Leafy := by
  refine .container rfl fun c hc => ?_
  rcases List.mem_map.mp hc with ⟨⟨n, ds⟩, -, rfl⟩
  cases n with
  | file f => exact .file f
  | _ => exact .container rfl fun c hc => by cases hc

theorem entries_withoutChildren {c : MerkleTreeNode} (h : c.isEntry = true) :
    (withoutChildren c).entries [] = [(c.node.ownPath [], c.node)] := by
  obtain ⟨n, ds⟩ := c
  cases n with
  | file f => simp [withoutChildren, entries_mk, entry?, EMerkleTreeNode.ownPath]
  | directory d => simp [withoutChildren, entries_mk, entry?, EMerkleTreeNode.ownPath]
  | vnode v => cases h
  | commit c => cases h

theorem entries_vnode_withoutChildren {v : VNode} {cs : List MerkleTreeNode}
    (hentry : ∀ c ∈ cs, c.isEntry = true) :
    (mk (.vnode v) (cs.map withoutChildren)).entries [] =
      cs.map fun c => (c.node.ownPath [], c.node) := by
  have hbelow : cs.flatMap (fun c => (withoutChildren c).entries []) =
      cs.flatMap fun c => [(c.node.ownPath [], c.node)] :=
    List.flatMap_congr fun c hc => entries_withoutChildren (hentry c hc)
  rw [entries_mk, List.flatMap_map]
  exact hbelow.trans List.map_eq_flatMap.symm

/-- A search in a virtual node that was read alone finds its files by their names. -/
theorem getByPath_vnode_iff {v : VNode} {cs : List MerkleTreeNode} {name : String}
    (hentry : ∀ c ∈ cs, c.isEntry = true) (hnames : (cs.map fun c => c.node.ownPath []).Nodup) :
    ((mk (.vnode v) (cs.map withoutChildren)).getByPath [name]).bind fileNode? = some f ↔
      .file f ∈ cs.map node ∧ f.name = [name] := by
  have huniq : UniquePaths [] (mk (.vnode v) (cs.map withoutChildren)) := by
    rw [UniquePaths, entries_vnode_withoutChildren hentry, List.map_map]
    exact hnames
  have hentries := entries_vnode_withoutChildren (v := v) hentry
  rw [(leafy_withoutChildren v).getByPath_file_iff huniq rfl, List.mem_map]
  constructor
  · intro hf
    have he := mem_entries_of_file hf
    rw [hentries] at he
    rcases List.mem_map.mp he with ⟨c, hc, heq⟩
    obtain ⟨hpath, hnode⟩ := Prod.mk.inj heq
    rw [hnode] at hpath
    exact ⟨⟨c, hc, hnode⟩, hpath⟩
  · rintro ⟨⟨c, hc, hnode⟩, hname⟩
    apply mem_files_of_mem_entries
    rw [hentries]
    refine List.mem_map.mpr ⟨c, hc, Prod.ext ?_ hnode⟩
    rw [hnode]
    exact hname

/-! ## The lookup through the index -/

/-- One of the virtual nodes under the hash lists the file under the name. -/
def Lists (db : NodeStore) (hash : MerkleHash) (name : PathBuf) (f : FileNode) : Prop :=
  ∃ vnode ∈ db.readChildrenFromHash hash,
    .file f ∈ db.readChildrenFromHash vnode.hash ∧ f.name = name

/-- The directory that the index has for the parent of the path lists the file. -/
def ListedInParent (db : NodeStore) (index : DirHashes) (path : PathBuf) (f : FileNode) : Prop :=
  path ≠ [] ∧ ∃ hash, index.lookup path.dropLast = some hash ∧ Lists db hash (leafName path) f

open CommitWriter

/-- The file that is listed by a well-placed directory lies in the virtual node
that its path falls into. -/
theorem lists_iff_of_bucketed {d : DirNode} {vnodes : List MerkleTreeNode} {parent : PathBuf}
    {name : String} (hheld : (mk (.directory d) vnodes).Held db) (hname : d.name = leafName parent)
    (hplaced : WellPlaced host parent.dropLast (mk (.directory d) vnodes)) :
    Lists db d.hash [name] f ↔
      ∃ v, vnodes[bucketOf host (parent ++ [name]) vnodes.length]? = some v ∧
        .file f ∈ v.children.map node ∧ f.name = [name] := by
  have hown : parent.dropLast ++ d.name = parent := by rw [hname, dropLast_append_leafName]
  have hread : db.readChildrenFromHash d.hash = vnodes.map node := hheld.readChildren rfl
  have hbelow : ∀ v ∈ vnodes, db.readChildrenFromHash v.node.hash = v.children.map node := by
    intro v hv
    rcases hplaced.eq_vnode hv with ⟨w, cs, rfl⟩
    exact (hheld.child _ hv).readChildren rfl
  rw [Lists, hread]
  constructor
  · rintro ⟨n, hn, hf, hfile⟩
    rcases List.mem_map.mp hn with ⟨v, hv, rfl⟩
    rw [hbelow v hv] at hf
    rcases List.mem_map.mp hf with ⟨c, hc, hnode⟩
    rcases List.getElem?_of_mem hv with ⟨i, hi⟩
    have hbucket := hplaced.bucketed.bucket i v hi c hc
    rw [hnode, hown, EMerkleTreeNode.ownPath, hfile] at hbucket
    exact ⟨v, by rw [hbucket, hi], hf, hfile⟩
  · rintro ⟨v, hv, hf, hfile⟩
    have hmem := List.mem_of_getElem? hv
    exact ⟨v.node, List.mem_map_of_mem hmem, by rwa [hbelow v hmem], hfile⟩

theorem readFileNode_concat (parent : PathBuf) (name : String) :
    readFileNode host db index fuel (parent ++ [name]) =
      (index.lookup parent).bind fun hash => (readDepth db fuel hash 0).bind fun root =>
        root.children[bucketOf host (parent ++ [name]) root.children.length]?.bind fun v =>
          (readDepth db fuel v.hash 0).bind fun v => v.getByPath [name] := by
  rw [readFileNode, List.getLast?_concat, List.dropLast_concat]
  rfl

/-- What is read through the index is what its directory for the parent lists. -/
theorem readFileNode_file_iff (hindex : GoodIndex host db index) :
    (readFileNode host db index (fuel + 1) path).bind fileNode? = some f ↔
      ListedInParent db index path f := by
  rcases List.eq_nil_or_concat path with rfl | ⟨parent, name, rfl⟩
  · exact ⟨nofun, fun h => absurd rfl h.1⟩
  · rw [List.concat_eq_append, readFileNode_concat, ListedInParent, List.dropLast_concat,
      leafName_append_singleton]
    cases hlookup : index.lookup parent with
    | none => simp
    | some hash =>
        rcases hindex parent hash hlookup with ⟨d, vnodes, rfl, hname, hheld, hplaced⟩
        rcases @readDepth_directory db 0 fuel _ _ hheld with ⟨root, hroot, hhashes⟩
        have hlength : root.children.length = vnodes.length := by
          simpa using congrArg List.length hhashes
        have hlists : (parent ++ [name] ≠ [] ∧ ∃ h, some d.hash = some h ∧ Lists db h [name] f) ↔
            Lists db d.hash [name] f := by simp
        rw [hlists, lists_iff_of_bucketed hheld hname hplaced, Option.bind_some, hroot,
          Option.bind_some, hlength]
        generalize bucketOf host (parent ++ [name]) vnodes.length = i
        have hvnode := congrArg (·[i]?) hhashes
        simp only [List.getElem?_map] at hvnode
        cases hi : vnodes[i]? with
        | none =>
            rw [hi, Option.map_none, Option.map_eq_none_iff] at hvnode
            simp [hvnode]
        | some v =>
            rw [hi, Option.map_some, Option.map_eq_some_iff] at hvnode
            rcases hvnode with ⟨loaded, hloaded, hhash⟩
            have hmem := List.mem_of_getElem? hi
            have hplacedV := hplaced.child hmem
            rcases hplaced.eq_vnode hmem with ⟨w, cs, rfl⟩
            have hentry : ∀ c ∈ cs, c.isEntry = true := fun c hc => hplacedV.isEntry hc
            rcases @readDepth_vnode db fuel _ _ (hheld.child _ hmem) hentry with ⟨w', hw'⟩
            have hnames : (cs.map fun c => c.node.ownPath []).Nodup := by
              have hsub : cs.Sublist (vnodes.flatMap children) :=
                List.sublist_flatten_of_mem (List.mem_map_of_mem (f := children) hmem)
              exact hplaced.bucketed.names.sublist (hsub.map _)
            rw [hloaded, Option.bind_some, hhash, hash_mk, EMerkleTreeNode.hash_vnode, hw',
              Option.bind_some, getByPath_vnode_iff hentry hnames]
            simp

/-- Whatever is read through the index is listed in the directory for the parent. -/
theorem listed_of_readFileNode (hindex : GoodIndex host db index) {u : MerkleTreeNode}
    (h : readFileNode host db index (fuel + 1) path = some u) :
    path ≠ [] ∧ ∃ hash, index.lookup path.dropLast = some hash ∧
      ∃ vnode ∈ db.readChildrenFromHash hash, u.node ∈ db.readChildrenFromHash vnode.hash ∧
        u.node.ownPath [] = leafName path := by
  rcases List.eq_nil_or_concat path with rfl | ⟨parent, name, rfl⟩
  · cases h
  rw [List.concat_eq_append, readFileNode_concat] at h
  rw [List.concat_eq_append, List.dropLast_concat, leafName_append_singleton]
  rcases Option.bind_eq_some_iff.mp h with ⟨hash, hlookup, h⟩
  rcases Option.bind_eq_some_iff.mp h with ⟨root, hroot, h⟩
  rcases Option.bind_eq_some_iff.mp h with ⟨v, hv, h⟩
  rcases Option.bind_eq_some_iff.mp h with ⟨w, hw, h⟩
  rcases hindex parent hash hlookup with ⟨d, vnodes, rfl, -, hheld, hplaced⟩
  rcases @readDepth_directory db 0 fuel _ _ hheld with ⟨root', hroot', hhashes⟩
  obtain rfl := Option.some.inj (hroot.symm.trans hroot')
  -- The virtual node that is read is one of the directory's.
  have hvhash := congrArg (·[bucketOf host (parent ++ [name]) root.children.length]?) hhashes
  simp only [List.getElem?_map, hv, Option.map_some] at hvhash
  rcases Option.map_eq_some_iff.mp hvhash.symm with ⟨vnode, hvnode, hhash⟩
  have hmem := List.mem_of_getElem? hvnode
  have hplacedV := hplaced.child hmem
  rcases hplaced.eq_vnode hmem with ⟨w', cs, rfl⟩
  have hentry : ∀ c ∈ cs, c.isEntry = true := fun c hc => hplacedV.isEntry hc
  rcases @readDepth_vnode db fuel _ _ (hheld.child _ hmem) hentry with ⟨w'', hw''⟩
  have hvHash : v.hash = w'.hash := hhash.symm
  rw [hvHash, hw''] at hw
  obtain rfl := Option.some.inj hw
  have hsearch : getByPathHelper (traversedTo [] (mk (.vnode w'') (cs.map withoutChildren))) [name]
      (mk (.vnode w'') (cs.map withoutChildren)) = some u := h
  rcases (leafy_withoutChildren w'').mem_subtrees_of_getByPathHelper hsearch with ⟨q, hq, hat⟩
  have hu := mem_entries_of_mem_subtrees hq hat
  rw [entries_vnode_withoutChildren hentry] at hu
  rcases List.mem_map.mp hu with ⟨c, hc, heq⟩
  obtain ⟨hname, hnode⟩ := Prod.mk.inj heq
  have hread : db.readChildrenFromHash d.hash = vnodes.map node := hheld.readChildren rfl
  have hreadV : db.readChildrenFromHash w'.hash = cs.map node :=
    (hheld.child _ hmem).readChildren rfl
  refine ⟨by simp, _, hlookup, .vnode w', ?_, ?_, ?_⟩
  · rw [hread]
    exact List.mem_map.mpr ⟨_, hmem, rfl⟩
  · rw [EMerkleTreeNode.hash_vnode, hreadV, ← hnode]
    exact List.mem_map_of_mem hc
  · rw [← hnode, hname]

/-- A path of the index is read as a directory. -/
theorem readDepthFromPath_of_lookup {dirHashes : MerkleHash → DirHashes} {commitId hash : MerkleHash}
    (hindex : GoodIndex host db (dirHashes commitId))
    (hlookup : (dirHashes commitId).lookup path = some hash) :
    (readDepthFromPath host db dirHashes fuel commitId path depth).toOption.bind fileNode? = none := by
  rcases hindex path hash hlookup with ⟨d, vnodes, rfl, -, hheld, -⟩
  rcases hheld.exists_record rfl with ⟨record, hr, hnode, -⟩
  rcases EMerkleTreeNode.exists_directory_of_skeleton hnode with ⟨old, hold, -⟩
  have hnode := node_loadChildrenToDepth db depth 0 fuel record.node
  rw [readDepthFromPath, hlookup]
  simp only [readDepth, show db d.hash = some record from hr, Option.map_some]
  generalize loadChildrenToDepth db depth fuel 0 record.node = root at hnode
  obtain ⟨n, cs⟩ := root
  obtain rfl : n = .directory old := hnode.trans hold
  rfl

theorem readDepthFromPath_of_notMem {dirHashes : MerkleHash → DirHashes} {commitId : MerkleHash}
    (hlookup : (dirHashes commitId).lookup path = none) :
    (readDepthFromPath host db dirHashes fuel commitId path depth).toOption =
      readFileNode host db (dirHashes commitId) fuel path := by
  rw [readDepthFromPath, hlookup]
  cases hread : readFileNode host db (dirHashes commitId) fuel path with
  | none => rfl
  | some node => rfl

end CommitMerkleTree

namespace CommitWriter

open CommitMerkleTree

variable {host : Host} {s : Repository} {c : CommitNode} {path : PathBuf} {f : FileNode}

/-- The directory that the index has for the parent lists the file that the tree has
at the path, and the index takes no such path for a directory. -/
structure IndexRight (db : NodeStore) (index : DirHashes) (c : CommitNode) (path : PathBuf) :
    Prop where
  parent : ∀ f, ListedInParent db index path f ↔ TreeFile db c path f
  self : path ∈ index → ∀ f, ¬ TreeFile db c path f

/-- Both lookups find a file exactly where the search of the loaded tree finds it. -/
def LookupsAgree (host : Host) (s : Repository) (c : CommitNode) (path : PathBuf) : Prop :=
  ∃ tree bound, ∀ fuel ≥ bound, getNodeByIdWithChildren s.db fuel c.hash = some tree ∧
    (∀ depth, (readDepthFromPath host s.db s.dirHashes fuel c.hash path depth).toOption.bind
      fileNode? = (tree.getByPath path).bind fileNode?) ∧
    (readFileNode host s.db (s.dirHashes c.hash) fuel path).bind fileNode? =
      (tree.getByPath path).bind fileNode?

theorem getNodeByIdWithChildren_of_held {db : NodeStore} {cs : List MerkleTreeNode}
    (h : (mk (.commit c) cs).Held db) {fuel : ℕ} (hf : (mk (.commit c) cs).size ≤ fuel) :
    getNodeByIdWithChildren db fuel c.hash = some (.mk (.commit c) cs) := by
  rcases h.exists_record rfl with ⟨record, hr, hnode, -⟩
  have hcommit : record.node = .commit c := by
    cases hn : record.node with
    | commit c' =>
        rw [hn] at hnode
        exact hnode
    | file f =>
        rw [hn] at hnode
        cases hnode
    | directory d =>
        rw [hn] at hnode
        cases hnode
    | vnode v =>
        rw [hn] at hnode
        cases hnode
  have hload := loadChildren_of_held h rfl [] [] hf
  rw [getNodeByIdWithChildren, rootWithChildrenAndNodeHashes, show db c.hash = some record from hr,
    Option.map_some, Option.map_some, hcommit, loadChildren]
  have htree := congrArg LoadedNode.tree hload
  rw [loaded, h.leafy.prune_nil] at htree
  exact congrArg some htree

/-- In a repository with good indexes the lookups agree where the index is right. -/
theorem lookupsAgree_iff_of_held (hindex : GoodIndex host s.db (s.dirHashes c.hash))
    {cs : List MerkleTreeNode} (hheld : (mk (.commit c) cs).Held s.db)
    (hplaced : WellPlaced host [] (mk (.commit c) cs)) :
    LookupsAgree host s c path ↔ IndexRight s.db (s.dirHashes c.hash) c path := by
  have hsearch : ∀ f, ((mk (.commit c) cs).getByPath path).bind fileNode? = some f ↔
      TreeFile s.db c path f := by
    intro f
    rw [hheld.leafy.getByPath_file_iff (hplaced.uniquePaths hheld) rfl, treeFile_iff hheld]
  have hread : ∀ fuel f, (readFileNode host s.db (s.dirHashes c.hash) (fuel + 1) path).bind
      fileNode? = some f ↔ ListedInParent s.db (s.dirHashes c.hash) path f :=
    fun fuel f => readFileNode_file_iff hindex
  constructor
  · rintro ⟨tree, bound, hagree⟩
    let fuel := bound + (mk (.commit c) cs).size
    rcases hagree (fuel + 1) (by omega) with ⟨hload, hdepth, hfile⟩
    rw [getNodeByIdWithChildren_of_held hheld (by omega)] at hload
    obtain rfl := Option.some.inj hload
    constructor
    · intro f
      rw [← hread fuel f, hfile, hsearch f]
    · intro hmem f hf
      rcases Option.isSome_iff_exists.mp (AList.lookup_isSome.mpr hmem) with ⟨hash, hlookup⟩
      have hnone := @readDepthFromPath_of_lookup host s.db path 0 (fuel + 1) s.dirHashes c.hash hash
        hindex hlookup
      rw [hdepth 0, (hsearch f).mpr hf] at hnone
      cases hnone
  · intro hright
    refine ⟨.mk (.commit c) cs, (mk (.commit c) cs).size + 1, fun fuel hfuel => ?_⟩
    obtain ⟨fuel, rfl⟩ : ∃ k, fuel = k + 1 := ⟨fuel - 1, by omega⟩
    have hfile : (readFileNode host s.db (s.dirHashes c.hash) (fuel + 1) path).bind fileNode? =
        ((mk (.commit c) cs).getByPath path).bind fileNode? := by
      apply Option.ext
      intro f
      rw [hread fuel f, hsearch f, hright.parent f]
    refine ⟨getNodeByIdWithChildren_of_held hheld (by omega), fun depth => ?_, hfile⟩
    cases hlookup : (s.dirHashes c.hash).lookup path with
    | none => rw [readDepthFromPath_of_notMem hlookup, hfile]
    | some hash =>
        rw [readDepthFromPath_of_lookup hindex hlookup]
        refine (Option.eq_none_iff_forall_ne_some.mpr fun f hf => ?_).symm
        exact hright.self (AList.lookup_isSome.mp (by rw [hlookup]; rfl)) f ((hsearch f).mp hf)

/-- Whatever the writer has committed, a file is looked up through the index as it is
found in the loaded tree exactly where the index is right. -/
theorem lookupsAgree_iff {commits : List CommitNode} (hrun : WriterRun host commits s)
    (hc : c ∈ commits) :
    LookupsAgree host s c path ↔ IndexRight s.db (s.dirHashes c.hash) c path := by
  have hwritten := hrun.written
  rcases hwritten.trees c hc with ⟨cs, hheld, hplaced⟩
  exact lookupsAgree_iff_of_held (hwritten.index c.hash) hheld hplaced

/-! ## A file in the place of a directory -/

namespace LookupExample

/-- What a commit stages. -/
structure Staging where
  entries : StagedDb
  keyed : ∀ pair ∈ KeyedMap.toList entries, pair.2.path = pair.1

theorem Staging.placed (staging : Staging) : PlacedEntries (readStagedEntries staging.entries) :=
  placedEntries_readStagedEntries fun path entry h =>
    staging.keyed (path, entry) (KeyedMap.mem_toList.mpr h)

def newFile (path : PathBuf) : StagedMerkleTreeNode :=
  ⟨.added, .file { Example.fileNode "x" [1] 5 with name := path }⟩

/-- A file in a new directory. -/
def nested : Staging where
  entries := AList.insert ["p"] ⟨.added, .directory { name := ["p"], hash := 0 }⟩
    (AList.insert ["p", "x"] (newFile ["p", "x"]) ∅)
  keyed := by decide

/-- A file under the name of the directory. -/
def flat : Staging where
  entries := AList.insert ["p"] (newFile ["p"]) ∅
  keyed := by decide

def firstEnv : CommitEnv := DirHashExample.env

def firstPlan : Plan := commitDirEntriesNew firstEnv {} (readStagedEntries nested.entries)

def firstCommit : CommitNode :=
  commitNode firstEnv (computeCommitId firstEnv.toHost
    { parentIds := [], body := {}, timestamp := firstEnv.timestamp }) []

/-- The branch names the first commit. -/
def between : Repository :=
  { Repository.run {} firstPlan.ops with
    refs :=
      { headFile := some "main"
        branches := AList.insert "main" (MerkleHash.display firstCommit.hash) ∅ } }

def secondEnv : CommitEnv := { firstEnv with timestamp := 6000000000 }

def secondPlan : Plan := commitDirEntriesNew secondEnv between (readStagedEntries flat.entries)

def secondCommit : CommitNode :=
  commitNode secondEnv (computeCommitId secondEnv.toHost
    { parentIds := [MerkleHash.display firstCommit.hash], body := {}, timestamp := secondEnv.timestamp })
    [firstCommit.hash]

def result : Repository := between.run secondPlan.ops

theorem firstPlan_result : firstPlan.result = .ok firstCommit := by
  decide

/-- The root directory that the second commit has written. -/
def roots : List MerkleTreeNode :=
  ((getNodeByIdWithChildren result.db 5 secondCommit.hash).map children).getD []

def firstTree : TreeWrites.TreePlan EMerkleTreeNode :=
  commitPlan firstEnv {} none ∅ (readStagedEntries nested.entries) firstCommit

def secondTree : TreeWrites.TreePlan EMerkleTreeNode :=
  commitPlan secondEnv between (some firstCommit) (between.dirHashes firstCommit.hash)
    (readStagedEntries flat.entries) secondCommit

theorem facts_first : firstTree.Layered EMerkleTreeNode.hash ∧
    ∀ r ∈ firstTree.records, ∀ r' ∈ firstTree.records, r.1.hash = r'.1.hash → r = r' := by
  decide +kernel

/-- What the second commit does, by evaluation. -/
theorem facts_second : secondPlan.result = .ok secondCommit ∧
    secondTree.Layered EMerkleTreeNode.hash ∧
    (∀ r ∈ secondTree.records, ∀ r' ∈ secondTree.records, r.1.hash = r'.1.hash → r = r') ∧
    (∀ r ∈ secondTree.records, (between.db r.1.hash).isNone) ∧
    Commits.headCommitMaybe between.db between.refs = .ok (some firstCommit) ∧
    (mk (.commit secondCommit) roots).Stored result.db ∧
    (["p"], { Example.fileNode "x" [1] 5 with
      name := ["p"], lastCommitId := secondCommit.hash }) ∈
        (mk (.commit secondCommit) roots).files [] ∧
    ["p"] ∈ result.dirHashes secondCommit.hash := by
  decide +kernel

theorem distinct_first : DistinctIds firstEnv {} none ∅ (readStagedEntries nested.entries)
    firstCommit where
  layered := facts_first.1
  consistent := facts_first.2
  agrees := by
    rintro r - record h
    cases h

theorem distinct_second : DistinctIds secondEnv between (some firstCommit)
    (between.dirHashes firstCommit.hash) (readStagedEntries flat.entries) secondCommit where
  layered := facts_second.2.1
  consistent := facts_second.2.2.1
  agrees := by
    intro r hr record h
    have hnone := facts_second.2.2.2.1 r hr
    rw [h] at hnone
    cases hnone

theorem head_between : Commits.headCommitMaybe between.db between.refs = .ok (some firstCommit) :=
  facts_second.2.2.2.2.1

theorem run : WriterRun Example.host [secondCommit, firstCommit] result := by
  have hfirst : WriterRun Example.host [firstCommit] (Repository.run {} firstPlan.ops) :=
    .commit (.start {} rfl rfl) firstEnv rfl .new nested.placed firstPlan_result rfl rfl
      distinct_first
  have hbetween : WriterRun Example.host [firstCommit] between := hfirst.other rfl rfl
  exact hbetween.commit secondEnv rfl .new flat.placed facts_second.1 head_between head_between
    distinct_second

theorem stored_roots : (mk (.commit secondCommit) roots).Stored result.db :=
  facts_second.2.2.2.2.2.1

theorem mem_files : (["p"], { Example.fileNode "x" [1] 5 with
    name := ["p"], lastCommitId := secondCommit.hash }) ∈
      (mk (.commit secondCommit) roots).files [] :=
  facts_second.2.2.2.2.2.2.1

theorem mem_index : ["p"] ∈ result.dirHashes secondCommit.hash :=
  facts_second.2.2.2.2.2.2.2

end LookupExample

theorem lookupsAgree_iff_example :
    LookupsAgree Example.host LookupExample.result LookupExample.secondCommit ["p"] ↔
      IndexRight LookupExample.result.db
        (LookupExample.result.dirHashes LookupExample.secondCommit.hash)
        LookupExample.secondCommit ["p"] :=
  lookupsAgree_iff LookupExample.run List.mem_cons_self

/-- The directory of the first commit is read in the place of the file that the second
commit has put there. -/
theorem not_lookupsAgree :
    ¬ ∀ (host : Host) (commits : List CommitNode) (s : Repository) (c : CommitNode)
      (path : PathBuf), WriterRun host commits s → c ∈ commits → LookupsAgree host s c path := by
  intro h
  have hagree := h _ _ _ _ ["p"] LookupExample.run List.mem_cons_self
  have hwritten := LookupExample.run.written
  rcases hwritten.trees _ List.mem_cons_self with ⟨cs, hheld, hplaced⟩
  have hright := (lookupsAgree_iff_of_held (hwritten.index _) hheld hplaced).mp hagree
  exact hright.self LookupExample.mem_index _
    ⟨_, LookupExample.stored_roots.held, LookupExample.mem_files⟩

end CommitWriter

end Oxen
