import Oxen.Verification.Commit.Splits
import Oxen.Verification.Commit.WritePlan

/-! The tree that a commit writes. -/

namespace Oxen

open MerkleTreeNode TreeWrites

/-! ## Databases that keep what they hold -/

/-- Every record stays under its hash with the same children. -/
def NodeStore.Extends (db db' : NodeStore) : Prop :=
  ∀ hash record, db hash = some record → ∃ record', db' hash = some record' ∧
    record'.node.skeleton = record.node.skeleton ∧ record'.children = record.children

theorem MerkleTreeNode.Held.mono {db db' : NodeStore} (hext : db.Extends db') {t : MerkleTreeNode}
    (h : t.Held db) : t.Held db' := by
  induction h with
  | file f => exact .file f
  | container hn hr hnode hchildren _ ih =>
      rcases hext _ _ hr with ⟨record', hr', hnode', hchildren'⟩
      exact .container hn hr' (hnode'.trans hnode) (hchildren'.trans hchildren) ih

/-- A node written under a hash in use has the children that are there. -/
def Agrees (db : NodeStore) (records : List (EMerkleTreeNode × List EMerkleTreeNode)) : Prop :=
  ∀ r ∈ records, ∀ record, db r.1.hash = some record →
    record.node.skeleton = r.1.skeleton ∧ record.children = r.2

/-- The database has the planned records. -/
def HasRecords (db : NodeStore) (records : List (EMerkleTreeNode × List EMerkleTreeNode)) : Prop :=
  ∀ r ∈ records, db.records r.1.hash = some r

theorem records_eq_some {db : NodeStore} {hash : MerkleHash} {n : EMerkleTreeNode}
    {children : List EMerkleTreeNode} :
    db.records hash = some (n, children) ↔
      ∃ record, db hash = some record ∧ record.node = n ∧ record.children = children := by
  simp [NodeStore.records]

theorem extends_of_records {db db' : NodeStore}
    {records : List (EMerkleTreeNode × List EMerkleTreeNode)} (hagrees : Agrees db records)
    (hnew : HasRecords db' records)
    (hothers : ∀ hash, hash ∉ records.map (fun r => r.1.hash) → db'.records hash = db.records hash) :
    db.Extends db' := by
  intro hash record hr
  by_cases hmem : hash ∈ records.map fun r => r.1.hash
  · rcases List.mem_map.mp hmem with ⟨⟨n, children⟩, hrec, rfl⟩
    rcases records_eq_some.mp (hnew _ hrec) with ⟨record', hr', rfl, rfl⟩
    rcases hagrees _ hrec record hr with ⟨hnode, hchildren⟩
    exact ⟨record', hr', hnode.symm, hchildren.symm⟩
  · have hsame := hothers hash hmem
    have hold : db.records hash = some (record.node, record.children) :=
      records_eq_some.mpr ⟨record, hr, rfl, rfl⟩
    rcases records_eq_some.mp (hsame.trans hold) with ⟨record', hr', hnode, hchildren⟩
    exact ⟨record', hr', by rw [hnode], hchildren⟩

/-! ## The planned tree -/

open Classical in
/-- The children that the database holds below a hash. -/
noncomputable def heldChildren (db : NodeStore) (hash : MerkleHash) : List MerkleTreeNode :=
  if h : ∃ cs, ∃ n : EMerkleTreeNode, n.hash = hash ∧ n.hasChildren = true ∧ (mk n cs).Held db then
    h.choose
  else []

theorem heldChildren_eq {db : NodeStore} {n : EMerkleTreeNode} {cs : List MerkleTreeNode}
    (h : (mk n cs).Held db) (hn : n.hasChildren = true) : heldChildren db n.hash = cs := by
  have hex : ∃ cs, ∃ m : EMerkleTreeNode, m.hash = n.hash ∧ m.hasChildren = true ∧
      (mk m cs).Held db := ⟨cs, n, rfl, hn, h⟩
  rw [heldChildren, dif_pos hex]
  rcases hex.choose_spec with ⟨m, hhash, hm, hheld⟩
  exact hheld.children_eq h hm hn hhash

mutual

/-- The planned tree, with what the database holds below a node that is only listed. -/
noncomputable def plannedTree (db : NodeStore) : TreePlan EMerkleTreeNode → MerkleTreeNode
  | .keep n => .mk n (if n.hasChildren then heldChildren db n.hash else [])
  | .write n children => .mk n (plannedTrees db children)

noncomputable def plannedTrees (db : NodeStore) :
    List (TreePlan EMerkleTreeNode) → List MerkleTreeNode
  | [] => []
  | c :: cs => plannedTree db c :: plannedTrees db cs

end

theorem plannedTrees_eq (db : NodeStore) (plans : List (TreePlan EMerkleTreeNode)) :
    plannedTrees db plans = plans.map (plannedTree db) := by
  induction plans with
  | nil => rfl
  | cons c cs ih => simp only [plannedTrees, ih, List.map_cons]

theorem plannedTree_write (db : NodeStore) (n : EMerkleTreeNode)
    (children : List (TreePlan EMerkleTreeNode)) :
    plannedTree db (.write n children) = .mk n (children.map (plannedTree db)) := by
  rw [plannedTree, plannedTrees_eq]

theorem plannedTree_keep {db : NodeStore} {n : EMerkleTreeNode} {cs : List MerkleTreeNode}
    (h : (mk n cs).Held db) (hn : n.hasChildren = true) : plannedTree db (.keep n) = .mk n cs := by
  rw [plannedTree, if_pos hn, heldChildren_eq h hn]

@[simp] theorem node_plannedTree (db : NodeStore) (plan : TreePlan EMerkleTreeNode) :
    (plannedTree db plan).node = plan.node := by
  cases plan with
  | keep n => rfl
  | write n children => rfl

/-- What a plan refers to is held. -/
inductive Sound (db : NodeStore) : TreePlan EMerkleTreeNode → Prop where
  | file (f : FileNode) : Sound db (.keep (.file f))
  | keep {n : EMerkleTreeNode} {cs : List MerkleTreeNode} : n.hasChildren = true →
      (mk n cs).Held db → Sound db (.keep n)
  | write {n : EMerkleTreeNode} {children : List (TreePlan EMerkleTreeNode)} :
      n.hasChildren = true → (∀ c ∈ children, Sound db c) → Sound db (.write n children)

theorem Sound.held {db db' : NodeStore} (hext : db.Extends db')
    {plan : TreePlan EMerkleTreeNode} (h : Sound db plan) (hnew : HasRecords db' plan.records) :
    (plannedTree db plan).Held db' := by
  induction h with
  | file f => exact .file f
  | @keep n cs hn hheld =>
      rw [plannedTree_keep hheld hn]
      exact hheld.mono hext
  | @write n children hn _ ih =>
      rw [TreePlan.records_write] at hnew
      rw [plannedTree_write]
      rcases records_eq_some.mp (hnew _ List.mem_cons_self) with ⟨record, hr, hnode, hchildren⟩
      refine .container hn hr (by rw [hnode]) ?_ fun t ht => ?_
      · rw [hchildren, List.map_map]
        exact List.map_congr_left fun c _ => (node_plannedTree db c).symm
      · rcases List.mem_map.mp ht with ⟨c, hc, rfl⟩
        exact ih c hc fun r hr => hnew r
          (List.mem_cons_of_mem _ (List.mem_flatMap.mpr ⟨c, hc, hr⟩))

namespace CommitWriter

section

variable {host : Host} {db : NodeStore} {commitId : MerkleHash} {entries : VNodeEntries}
  {oldDir : PathBuf → Option DirNode} {oldFile : PathBuf → Option FileNode}

theorem wellPlaced_directory_congr {path : PathBuf} {d d' : DirNode} {vnodes : List MerkleTreeNode}
    (hname : d.name = d'.name) (h : WellPlaced host path (mk (.directory d) vnodes)) :
    WellPlaced host path (mk (.directory d') vnodes) := by
  rw [wellPlaced_mk_iff] at h ⊢
  rcases h with ⟨⟨hshape, hbucketed⟩, hchildren⟩
  refine ⟨⟨hshape, ?_⟩, ?_⟩
  · rintro e ⟨⟩
    rw [← hname]
    exact hbucketed d rfl
  · rwa [EMerkleTreeNode.ownPath, ← hname]

/-- The directory as the database has it now. -/
theorem GoodDir.exists_record {path : PathBuf} {hash : MerkleHash} (h : GoodDir host db path hash) :
    ∃ record old vnodes, db hash = some record ∧ record.node = .directory old ∧ old.hash = hash ∧
      old.name = leafName path ∧ (mk (.directory old) vnodes).Held db ∧
      WellPlaced host path.dropLast (mk (.directory old) vnodes) := by
  rcases h with ⟨d, vnodes, rfl, hname, hheld, hplaced⟩
  rcases hheld.exists_record rfl with ⟨record, hr, hnode, hrecord⟩
  rcases EMerkleTreeNode.exists_directory_of_skeleton hnode with ⟨old, hold, holdName, holdHash⟩
  rw [hold] at hrecord
  exact ⟨record, old, vnodes, hr, hold, holdHash, holdName.trans hname, hrecord,
    wellPlaced_directory_congr holdName.symm hplaced⟩

/-- An entry of a virtual node as it is planned. -/
structure PlannedChild (host : Host) (db : NodeStore) (directory name : PathBuf)
    (plan : TreePlan EMerkleTreeNode) : Prop where
  sound : Sound db plan
  name_eq : plan.node.ownPath [] = name
  isEntry : (plannedTree db plan).isEntry = true
  wellPlaced : WellPlaced host directory (plannedTree db plan)

theorem wellPlaced_file (path : PathBuf) (f : FileNode) : WellPlaced host path (mk (.file f) []) :=
  wellPlaced_mk_iff.mpr ⟨⟨rfl, fun d hd => by cases hd⟩, fun c hc => by cases hc⟩

/-- The plan of a directory whose virtual nodes are planned by `below`. -/
structure PlannedBelow (host : Host) (db : NodeStore)
    (below : PathBuf → List (TreePlan EMerkleTreeNode)) : Prop where
  sound : ∀ path, ∀ plan ∈ below path, Sound db plan
  wellPlaced : ∀ path node, node.name = leafName path →
    WellPlaced host path.dropLast (plannedTree db (.write (.directory node) (below path)))

theorem length_leafName {path : PathBuf} (h : path ≠ []) : (leafName path).length = 1 := by
  rcases List.eq_nil_or_concat path with rfl | ⟨parent, name, rfl⟩
  · exact absurd rfl h
  · simp [leafName]

theorem plannedChild_of_plannedEntry {below : PathBuf → List (TreePlan EMerkleTreeNode)}
    (hbelow : PlannedBelow host db below) {directory : PathBuf} {entry : StagedMerkleTreeNode}
    (hok : ChildOk host db (· ∈ entries) directory entry.path entry)
    {plan : TreePlan EMerkleTreeNode}
    (hplan : plannedEntry host db commitId entries oldDir oldFile below entry = some plan) :
    PlannedChild host db directory (leafName entry.path) plan := by
  have hlength := length_leafName hok.ne_nil
  unfold plannedEntry at hplan
  cases hnode : entry.node with
  | file f =>
      rw [hnode] at hplan
      obtain rfl := Option.some.inj hplan
      have hpath : entry.path = f.name := by
        rw [StagedMerkleTreeNode.path, hnode]
        rfl
      refine ⟨.file _, ?_, ?_, wellPlaced_file _ _⟩
      · rw [hpath]
        rfl
      · rw [hpath] at hlength
        exact decide_eq_true hlength
  | directory d =>
      simp only [hnode] at hplan
      split at hplan
      · obtain rfl := Option.some.inj hplan
        have hwellPlaced := hbelow.wellPlaced entry.path
          (computeDirNode host commitId entries oldDir oldFile entry.path) rfl
        rw [hok.parent] at hwellPlaced
        refine ⟨.write rfl (hbelow.sound entry.path), rfl, ?_, hwellPlaced⟩
        rw [plannedTree_write]
        exact decide_eq_true hlength
      · rename_i hkey
        rcases (hok.known d hnode).resolve_left hkey |>.exists_record with
          ⟨record, old, vnodes, hr, hold, hhash, hname, hheld, hwellPlaced⟩
        obtain ⟨n, parentId, children⟩ := record
        obtain rfl : n = .directory old := hold
        rw [hr] at hplan
        obtain rfl := Option.some.inj hplan
        rw [hok.parent] at hwellPlaced
        have htree := plannedTree_keep hheld rfl
        refine ⟨.keep rfl hheld, hname, ?_, ?_⟩
        · rw [htree]
          exact decide_eq_true (by rw [hname, hlength])
        · rw [htree]
          exact hwellPlaced
  | vnode v =>
      rw [hnode] at hplan
      cases hplan
  | commit c =>
      rw [hnode] at hplan
      cases hplan

section Below

variable (hsplit : ∀ directory vnodes removed, entries.lookup directory = some (vnodes, removed) →
  WellSplit host db (· ∈ entries) directory vnodes)
include hsplit

/-- The planned children of a virtual node. -/
theorem plannedChild_of_mem {below : PathBuf → List (TreePlan EMerkleTreeNode)}
    (hbelow : PlannedBelow host db below) {directory : PathBuf} {vnodes : List EntryVNode}
    {removed : List StagedMerkleTreeNode} (hdir : entries.lookup directory = some (vnodes, removed))
    {vnode : EntryVNode} (hv : vnode ∈ vnodes) {plan : TreePlan EMerkleTreeNode}
    (hplan : plan ∈ vnode.entries.filterMap
      (plannedEntry host db commitId entries oldDir oldFile below)) :
    ∃ entry ∈ vnode.entries, plannedEntry host db commitId entries oldDir oldFile below entry =
      some plan ∧ PlannedChild host db directory (leafName entry.path) plan := by
  rcases List.mem_filterMap.mp hplan with ⟨entry, hentry, hplan⟩
  have hok := (hsplit directory vnodes removed hdir).childOk entry
    (List.mem_flatMap.mpr ⟨vnode, hv, hentry⟩)
  exact ⟨entry, hentry, hplan, plannedChild_of_plannedEntry hbelow hok hplan⟩

omit hsplit in
theorem ownPath_of_isEntry {t : MerkleTreeNode} (h : t.isEntry = true) (path : PathBuf) :
    t.node.ownPath path = path ++ t.node.ownPath [] := by
  obtain ⟨n, cs⟩ := t
  cases n with
  | file f => rfl
  | directory d => rfl
  | vnode v => cases h
  | commit c => cases h

omit hsplit in
theorem eq_of_leafName_eq {p q : PathBuf} (hparent : p.dropLast = q.dropLast)
    (h : leafName p = leafName q) : p = q := by
  rw [← dropLast_append_leafName p, ← dropLast_append_leafName q, hparent, h]

/-- The virtual nodes of a directory distribute its entries. -/
theorem plannedVNodes_step {below : PathBuf → List (TreePlan EMerkleTreeNode)}
    (hbelow : PlannedBelow host db below) {directory : PathBuf} {vnodes : List EntryVNode}
    {removed : List StagedMerkleTreeNode} (hdir : entries.lookup directory = some (vnodes, removed))
    {node : DirNode} (hname : node.name = leafName directory) :
    WellPlaced host directory.dropLast (plannedTree db (.write (.directory node)
      (vnodes.map fun vnode =>
        .write (.vnode { hash := vnode.id, numEntries := vnode.entries.length })
          (vnode.entries.filterMap
            (plannedEntry host db commitId entries oldDir oldFile below))))) := by
  have hwell := hsplit directory vnodes removed hdir
  have hown : directory.dropLast ++ node.name = directory := by
    rw [hname, dropLast_append_leafName]
  have hchild : ∀ v ∈ vnodes, ∀ p ∈ v.entries.filterMap
      (plannedEntry host db commitId entries oldDir oldFile below),
      ∃ entry ∈ v.entries, plannedEntry host db commitId entries oldDir oldFile below entry =
        some p ∧ PlannedChild host db directory (leafName entry.path) p :=
    fun v hv p hp => plannedChild_of_mem hsplit hbelow hdir hv hp
  rw [plannedTree_write, wellPlaced_mk_iff, List.map_map]
  refine ⟨⟨?_, ?_⟩, ?_⟩
  · apply List.all_eq_true.mpr
    intro t ht
    rcases List.mem_map.mp ht with ⟨v, -, rfl⟩
    rw [Function.comp_apply, plannedTree_write]
    rfl
  · rintro d ⟨⟩
    rw [hown]
    constructor
    · have hflat : (vnodes.map (plannedTree db ∘ fun vnode =>
          .write (.vnode { hash := vnode.id, numEntries := vnode.entries.length })
            (vnode.entries.filterMap
              (plannedEntry host db commitId entries oldDir oldFile below)))).flatMap children =
          ((vnodes.flatMap (·.entries)).filterMap
            (plannedEntry host db commitId entries oldDir oldFile below)).map (plannedTree db) := by
        rw [List.flatMap_map, List.filterMap_flatMap, List.map_flatMap]
        refine List.flatMap_congr fun v _ => ?_
        rw [Function.comp_apply, plannedTree_write, children_mk]
      rw [hflat, List.map_map, List.Nodup, List.pairwise_map, List.pairwise_filterMap]
      refine (List.pairwise_map.mp hwell.nodup).imp_of_mem fun he he' hne p hp p' hp' heq => hne ?_
      have hok := hwell.childOk _ he
      have hok' := hwell.childOk _ he'
      have hplanned := plannedChild_of_plannedEntry hbelow hok hp
      have hplanned' := plannedChild_of_plannedEntry hbelow hok' hp'
      rw [Function.comp_apply, Function.comp_apply, node_plannedTree, node_plannedTree,
        hplanned.name_eq, hplanned'.name_eq] at heq
      exact eq_of_leafName_eq (hok.parent.trans hok'.parent.symm) heq
    · intro i t ht c hc
      rw [List.getElem?_map, Option.map_eq_some_iff] at ht
      rcases ht with ⟨v, hv, rfl⟩
      rw [Function.comp_apply, plannedTree_write, children_mk] at hc
      rcases List.mem_map.mp hc with ⟨p, hp, rfl⟩
      rcases hchild v (List.mem_of_getElem? hv) p hp with ⟨entry, hentry, -, hplanned⟩
      have hok := hwell.childOk entry
        (List.mem_flatMap.mpr ⟨v, List.mem_of_getElem? hv, hentry⟩)
      rw [ownPath_of_isEntry hplanned.isEntry, node_plannedTree, hplanned.name_eq, ← hok.parent,
        dropLast_append_leafName, List.length_map]
      exact hwell.bucket i v hv entry hentry
  · intro t ht
    rcases List.mem_map.mp ht with ⟨v, hv, rfl⟩
    rw [Function.comp_apply, plannedTree_write, EMerkleTreeNode.ownPath, hown]
    refine wellPlaced_mk_iff.mpr ⟨⟨?_, fun d hd => by cases hd⟩, fun c hc => ?_⟩
    · apply List.all_eq_true.mpr
      intro c hc
      rcases List.mem_map.mp hc with ⟨p, hp, rfl⟩
      rcases hchild v hv p hp with ⟨entry, -, -, hplanned⟩
      exact hplanned.isEntry
    · rcases List.mem_map.mp hc with ⟨p, hp, rfl⟩
      rcases hchild v hv p hp with ⟨entry, -, -, hplanned⟩
      exact hplanned.wellPlaced

/-- A directory is planned with all its virtual nodes. -/
theorem plannedBelow_plannedVNodes (fuel : ℕ) :
    PlannedBelow host db (plannedVNodes host db commitId entries oldDir oldFile fuel) := by
  have hempty : ∀ path node, node.name = leafName path →
      WellPlaced host path.dropLast (plannedTree db (.write (.directory node) [])) := by
    intro path node _
    rw [plannedTree_write]
    exact wellPlaced_mk_iff.mpr ⟨⟨rfl, fun d _ => ⟨List.nodup_nil, fun i v hv => by cases hv⟩⟩,
      fun c hc => by cases hc⟩
  induction fuel with
  | zero => exact ⟨fun path plan hplan => (List.not_mem_nil hplan).elim, hempty⟩
  | succ fuel ih =>
      constructor
      · intro path plan hplan
        rw [plannedVNodes] at hplan
        cases hdir : entries.lookup path with
        | none =>
            rw [hdir] at hplan
            cases hplan
        | some written =>
            obtain ⟨vnodes, removed⟩ := written
            rw [hdir] at hplan
            rcases List.mem_map.mp hplan with ⟨v, hv, rfl⟩
            refine .write rfl fun c hc => ?_
            rcases plannedChild_of_mem hsplit ih hdir hv hc with ⟨entry, -, -, hplanned⟩
            exact hplanned.sound
      · intro path node hname
        rw [plannedVNodes]
        cases hdir : entries.lookup path with
        | none => exact hempty path node hname
        | some written =>
            obtain ⟨vnodes, removed⟩ := written
            exact plannedVNodes_step hsplit ih hdir hname

end Below

end

/-! ## Files -/

/-- The file at the path in the tree that the database holds below the commit. -/
def TreeFile (db : NodeStore) (c : CommitNode) (path : PathBuf) (f : FileNode) : Prop :=
  ∃ cs, (mk (.commit c) cs).Held db ∧ (path, f) ∈ (mk (.commit c) cs).files []

theorem treeFile_iff {db : NodeStore} {c : CommitNode} {cs : List MerkleTreeNode} {path : PathBuf}
    {f : FileNode} (h : (mk (.commit c) cs).Held db) :
    TreeFile db c path f ↔ (path, f) ∈ (mk (.commit c) cs).files [] := by
  constructor
  · rintro ⟨cs', h', hf⟩
    rwa [h'.eq_of_node h rfl] at hf
  · exact fun hf => ⟨cs, h, hf⟩

end CommitWriter

end Oxen
