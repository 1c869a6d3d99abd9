import Mathlib.Algebra.Order.BigOperators.Group.List
import Mathlib.Algebra.Order.Ring.Nat
import Mathlib.Algebra.GroupWithZero.Nat
import Oxen.Model.NodeDb

/-! Loading a stored tree gives the tree back, cut at the nodes whose hash the
caller has seen before. -/

namespace Oxen

/-- A node without the metadata that a directory sums up. -/
def EMerkleTreeNode.skeleton : EMerkleTreeNode → EMerkleTreeNode
  | .directory d => .directory { name := d.name, hash := d.hash }
  | .vnode v => .vnode { hash := v.hash }
  | n => n

namespace EMerkleTreeNode

variable {n m : EMerkleTreeNode}

@[simp] theorem hash_skeleton (n : EMerkleTreeNode) : n.skeleton.hash = n.hash := by
  cases n with
  | _ => rfl

@[simp] theorem hasChildren_skeleton (n : EMerkleTreeNode) :
    n.skeleton.hasChildren = n.hasChildren := by
  cases n with
  | _ => rfl

theorem hash_eq_of_skeleton (h : m.skeleton = n.skeleton) : m.hash = n.hash := by
  rw [← hash_skeleton m, h, hash_skeleton]

theorem hasChildren_eq_of_skeleton (h : m.skeleton = n.skeleton) :
    m.hasChildren = n.hasChildren := by
  rw [← hasChildren_skeleton m, h, hasChildren_skeleton]

theorem exists_directory_of_skeleton {d : DirNode} (h : m.skeleton = (directory d).skeleton) :
    ∃ old, m = .directory old ∧ old.name = d.name ∧ old.hash = d.hash := by
  cases m with
  | directory old =>
      have heq : ({ name := old.name, hash := old.hash } : DirNode) =
          { name := d.name, hash := d.hash } := directory.inj h
      exact ⟨old, rfl, (congrArg DirNode.name heq :), (congrArg DirNode.hash heq :)⟩
  | file f => cases h
  | vnode v => cases h
  | commit c => cases h

theorem exists_vnode_of_skeleton {v : VNode} (h : m.skeleton = (vnode v).skeleton) :
    ∃ old, m = .vnode old ∧ old.hash = v.hash := by
  cases m with
  | vnode old => exact ⟨old, rfl, (congrArg VNode.hash (vnode.inj h) :)⟩
  | directory d => cases h
  | file f => cases h
  | commit c => cases h

end EMerkleTreeNode

namespace MerkleTreeNode

mutual

def isStored (db : NodeStore) : MerkleTreeNode → Bool
  | .mk n cs =>
      (if n.hasChildren then
        (db n.hash).any fun record => record.node = n ∧ record.children = cs.map node
      else cs.isEmpty) && isStoredList db cs

def isStoredList (db : NodeStore) : List MerkleTreeNode → Bool
  | [] => true
  | c :: cs => isStored db c && isStoredList db cs

end

/-- The database holds the record of every node of the tree that has children. -/
def Stored (db : NodeStore) (t : MerkleTreeNode) : Prop :=
  t.isStored db = true

instance (db : NodeStore) (t : MerkleTreeNode) : Decidable (t.Stored db) :=
  inferInstanceAs (Decidable (_ = true))

mutual

/-- The tree with the children of every seen container dropped. -/
def prune (seen : List MerkleHash) : MerkleTreeNode → MerkleTreeNode
  | .mk n cs =>
      if n.hasChildren ∧ n.hash ∉ seen then .mk n (pruneList seen cs) else .mk n []

def pruneList (seen : List MerkleHash) : List MerkleTreeNode → List MerkleTreeNode
  | [] => []
  | c :: cs => prune seen c :: pruneList seen cs

end

theorem pruneList_eq (seen : List MerkleHash) (cs : List MerkleTreeNode) :
    pruneList seen cs = cs.map (prune seen) := by
  induction cs with
  | nil => rfl
  | cons c cs ih => simp only [pruneList, ih, List.map_cons]

theorem prune_mk (seen : List MerkleHash) (n : EMerkleTreeNode) (cs : List MerkleTreeNode) :
    prune seen (.mk n cs) =
      if n.hasChildren ∧ n.hash ∉ seen then .mk n (cs.map (prune seen)) else .mk n [] := by
  rw [prune, pruneList_eq]

@[simp] theorem node_prune (seen : List MerkleHash) (t : MerkleTreeNode) :
    (t.prune seen).node = t.node := by
  cases t
  rw [prune_mk]
  split <;> rfl

@[simp] theorem hash_prune (seen : List MerkleHash) (t : MerkleTreeNode) :
    (t.prune seen).hash = t.hash := by
  simp [hash]

private theorem isStoredList_iff (db : NodeStore) (cs : List MerkleTreeNode) :
    isStoredList db cs = true ↔ ∀ c ∈ cs, c.Stored db := by
  induction cs with
  | nil => simp [isStoredList]
  | cons c cs ih => simp [isStoredList, ih, Stored]

theorem stored_file (db : NodeStore) (f : FileNode) (cs : List MerkleTreeNode) :
    (mk (.file f) cs).Stored db ↔ cs = [] := by
  rw [Stored, isStored, Bool.and_eq_true, isStoredList_iff]
  simp only [EMerkleTreeNode.hasChildren, Bool.false_eq_true, if_false, List.isEmpty_iff]
  refine ⟨And.left, ?_⟩
  rintro rfl
  simp

theorem stored_container {db : NodeStore} {n : EMerkleTreeNode} (hn : n.hasChildren = true)
    (cs : List MerkleTreeNode) :
    (mk n cs).Stored db ↔
      (∃ record, db n.hash = some record ∧ record.node = n ∧ record.children = cs.map node) ∧
        ∀ c ∈ cs, c.Stored db := by
  rw [Stored, isStored, Bool.and_eq_true, isStoredList_iff]
  simp [hn, Option.any_eq_true]

theorem Stored.child {db : NodeStore} {n : EMerkleTreeNode} {cs : List MerkleTreeNode}
    (h : (mk n cs).Stored db) : ∀ c ∈ cs, c.Stored db := by
  rw [Stored, isStored, Bool.and_eq_true, isStoredList_iff] at h
  exact h.2

private theorem eq_of_map_node_eq {cs ds : List MerkleTreeNode}
    (hinj : ∀ c ∈ cs, ∀ d ∈ ds, c.node = d.node → c = d) (h : cs.map node = ds.map node) :
    cs = ds := by
  induction cs generalizing ds with
  | nil => simpa [eq_comm] using h
  | cons c cs ih =>
      obtain _ | ⟨d, ds⟩ := ds
      · simp at h
      · obtain ⟨hnode, htail⟩ : c.node = d.node ∧ cs.map node = ds.map node := by simpa using h
        rw [hinj c (by simp) d (by simp) hnode,
          ih (fun c hc d hd => hinj c (by simp [hc]) d (by simp [hd])) htail]

/-- The database holds the children of every container of the tree. The metadata
of the container itself may have been written again. -/
inductive Held (db : NodeStore) : MerkleTreeNode → Prop where
  | file (f : FileNode) : Held db (.mk (.file f) [])
  | container {n : EMerkleTreeNode} {cs : List MerkleTreeNode} {record : NodeDb} :
      n.hasChildren = true → db n.hash = some record → record.node.skeleton = n.skeleton →
      record.children = cs.map node → (∀ c ∈ cs, Held db c) → Held db (.mk n cs)

theorem Stored.held {db : NodeStore} {t : MerkleTreeNode} (h : t.Stored db) : t.Held db := by
  induction t with
  | mk n cs ih =>
      have hcs : ∀ c ∈ cs, c.Held db := fun c hc => ih c hc (h.child c hc)
      by_cases hn : n.hasChildren = true
      · rcases (stored_container hn cs).mp h with ⟨⟨record, hr, hnode, hchildren⟩, -⟩
        exact .container hn hr (by rw [hnode]) hchildren hcs
      · cases n with
        | file f =>
            obtain rfl := (stored_file db f cs).mp h
            exact .file f
        | directory d => exact absurd rfl hn
        | vnode v => exact absurd rfl hn
        | commit c => exact absurd rfl hn

theorem held_file {db : NodeStore} {f : FileNode} {cs : List MerkleTreeNode}
    (h : (mk (.file f) cs).Held db) : cs = [] := by
  cases h with
  | file f => rfl
  | container hn => cases hn

theorem held_container {db : NodeStore} {n : EMerkleTreeNode} {cs : List MerkleTreeNode}
    (hn : n.hasChildren = true) (h : (mk n cs).Held db) :
    ∃ record, db n.hash = some record ∧ record.node.skeleton = n.skeleton ∧
      record.children = cs.map node := by
  cases h with
  | file f => cases hn
  | container _ hr hnode hchildren _ => exact ⟨_, hr, hnode, hchildren⟩

theorem Held.child {db : NodeStore} {n : EMerkleTreeNode} {cs : List MerkleTreeNode}
    (h : (mk n cs).Held db) : ∀ c ∈ cs, c.Held db := by
  cases h with
  | file f =>
      intro c hc
      cases hc
  | container _ _ _ _ hcs => exact hcs

/-- The node as the database has it now, whatever its metadata is. -/
theorem Held.exists_record {db : NodeStore} {n : EMerkleTreeNode} {cs : List MerkleTreeNode}
    (h : (mk n cs).Held db) (hn : n.hasChildren = true) :
    ∃ record, db n.hash = some record ∧ record.node.skeleton = n.skeleton ∧
      (mk record.node cs).Held db := by
  rcases held_container hn h with ⟨record, hr, hnode, hchildren⟩
  refine ⟨record, hr, hnode, ?_⟩
  refine .container ?_ ?_ rfl hchildren h.child
  · rw [EMerkleTreeNode.hasChildren_eq_of_skeleton hnode, hn]
  · rw [EMerkleTreeNode.hash_eq_of_skeleton hnode, hr]

theorem Held.readChildren {db : NodeStore} {n : EMerkleTreeNode} {cs : List MerkleTreeNode}
    (h : (mk n cs).Held db) (hn : n.hasChildren = true) :
    db.readChildrenFromHash n.hash = cs.map node := by
  rcases held_container hn h with ⟨record, hr, -, hchildren⟩
  rw [NodeStore.readChildrenFromHash, hr]
  exact hchildren

/-- No file has children. -/
inductive Leafy : MerkleTreeNode → Prop where
  | file (f : FileNode) : Leafy (.mk (.file f) [])
  | container {n : EMerkleTreeNode} {cs : List MerkleTreeNode} :
      n.hasChildren = true → (∀ c ∈ cs, Leafy c) → Leafy (.mk n cs)

theorem Held.leafy {db : NodeStore} {t : MerkleTreeNode} (h : t.Held db) : t.Leafy := by
  induction h with
  | file f => exact .file f
  | container hn _ _ _ _ ih => exact .container hn ih

theorem leafy_file {f : FileNode} {cs : List MerkleTreeNode} (h : (mk (.file f) cs).Leafy) :
    cs = [] := by
  cases h with
  | file f => rfl
  | container hn => cases hn

theorem Leafy.child {n : EMerkleTreeNode} {cs : List MerkleTreeNode} (h : (mk n cs).Leafy) :
    ∀ c ∈ cs, c.Leafy := by
  cases h with
  | file f => exact fun c hc => by cases hc
  | container _ hcs => exact hcs

/-- Nothing is seen before the first load. -/
theorem Leafy.prune_nil {t : MerkleTreeNode} (h : t.Leafy) : t.prune [] = t := by
  induction t with
  | mk n cs ih =>
      have hcs : cs.map (prune []) = cs := by
        refine (List.map_congr_left fun c hc => ih c hc (h.child c hc)).trans ?_
        exact List.map_id' cs
      rw [prune_mk]
      cases n with
      | file f => simp [leafy_file h, EMerkleTreeNode.hasChildren]
      | directory d => simp [EMerkleTreeNode.hasChildren, hcs]
      | vnode v => simp [EMerkleTreeNode.hasChildren, hcs]
      | commit c => simp [EMerkleTreeNode.hasChildren, hcs]

theorem Stored.prune_nil {db : NodeStore} {t : MerkleTreeNode} (h : t.Stored db) :
    t.prune [] = t :=
  h.held.leafy.prune_nil

/-- The database determines a tree from its root node. -/
theorem Held.eq_of_node {db : NodeStore} {s t : MerkleTreeNode} (hs : s.Held db)
    (ht : t.Held db) (h : s.node = t.node) : s = t := by
  induction s generalizing t with
  | mk n cs ih =>
      obtain ⟨m, ds⟩ := t
      obtain rfl : n = m := h
      by_cases hn : n.hasChildren = true
      · rw [eq_of_map_node_eq (fun c hc d hd => ih c hc (hs.child c hc) (ht.child d hd))
          ((hs.readChildren hn).symm.trans (ht.readChildren hn))]
      · cases n with
        | file f => rw [held_file hs, held_file ht]
        | directory d => exact absurd rfl hn
        | vnode v => exact absurd rfl hn
        | commit c => exact absurd rfl hn

/-- One hash has one list of children. -/
theorem Held.children_eq {db : NodeStore} {n m : EMerkleTreeNode} {cs ds : List MerkleTreeNode}
    (hs : (mk n cs).Held db) (ht : (mk m ds).Held db) (hn : n.hasChildren = true)
    (hm : m.hasChildren = true) (h : n.hash = m.hash) : cs = ds := by
  refine eq_of_map_node_eq (fun c hc d hd => (hs.child c hc).eq_of_node (ht.child d hd)) ?_
  rw [← hs.readChildren hn, ← ht.readChildren hm, h]

theorem Stored.eq_of_node {db : NodeStore} {s t : MerkleTreeNode} (hs : s.Stored db)
    (ht : t.Stored db) (h : s.node = t.node) : s = t :=
  hs.held.eq_of_node ht.held h

/-- Two stored nodes with children and one hash are the same tree. -/
theorem Stored.eq_of_hash {db : NodeStore} {s t : MerkleTreeNode} (hs : s.Stored db)
    (ht : t.Stored db) (hsc : s.node.hasChildren = true) (htc : t.node.hasChildren = true)
    (h : s.hash = t.hash) : s = t := by
  refine hs.eq_of_node ht ?_
  obtain ⟨n, cs⟩ := s
  obtain ⟨m, ds⟩ := t
  obtain ⟨⟨r, hr, hrn, -⟩, -⟩ := (stored_container hsc cs).mp hs
  obtain ⟨⟨r', hr', hrn', -⟩, -⟩ := (stored_container htc ds).mp ht
  rw [hash_mk, hash_mk] at h
  obtain rfl : r = r' := Option.some.inj (hr.symm.trans ((congrArg db h).trans hr'))
  exact hrn.symm.trans hrn'

/-- What a load reports for a tree whose root has its own path in `path`. -/
def loaded (seen : List MerkleHash) (path : PathBuf) (t : MerkleTreeNode) : LoadedNode where
  tree := t.prune seen
  uniqueHashes := (t.prune seen).containerHashes.filter (· ∉ seen)
  sharedHashes := (t.prune seen).containerHashes.filter (· ∈ seen)
  partialNodes := ((t.prune seen).files path).map fun file => (file.1, file.2.toPartialNode)
  panicked := ((t.prune seen).files path).any fun file => !file.2.hasTime

theorem map_snd_subtrees (path path' : PathBuf) (t : MerkleTreeNode) :
    (t.subtrees path).map Prod.snd = (t.subtrees path').map Prod.snd := by
  induction t generalizing path path' with
  | mk n cs ih =>
      simp only [subtrees_mk, List.map_cons, List.map_flatMap]
      congr 1
      exact List.flatMap_congr fun c hc => ih c hc _ _

theorem containerHashes_mk {n : EMerkleTreeNode} (hn : n.hasChildren = true)
    (cs : List MerkleTreeNode) :
    (mk n cs).containerHashes = n.hash :: cs.flatMap containerHashes := by
  have hcs : ∀ c : MerkleTreeNode, containerHashes c =
      (((c.subtrees (n.ownPath [])).map Prod.snd).filter (·.node.hasChildren)).map hash :=
    fun c => by rw [← map_snd_subtrees [] (n.ownPath [])]; rfl
  rw [List.flatMap_congr fun c _ => hcs c, containerHashes.eq_def, subtrees_mk, List.map_cons,
    List.filter_cons_of_pos (by exact hn),
    List.map_cons, List.map_flatMap, List.filter_flatMap, List.map_flatMap]
  rfl

theorem containerHashes_file (f : FileNode) : (mk (.file f) []).containerHashes = [] := by
  simp [containerHashes, subtrees_mk, EMerkleTreeNode.hasChildren]

theorem files_mk {n : EMerkleTreeNode} (hn : n.hasChildren = true) (path : PathBuf)
    (cs : List MerkleTreeNode) :
    (mk n cs).files path = cs.flatMap (files (n.ownPath path)) := by
  have hnone : file? (path, mk n cs) = none := by
    cases n with
    | file f => cases hn
    | directory d => rfl
    | vnode v => rfl
    | commit c => rfl
  rw [files, subtrees_mk, List.filterMap_cons_none hnone, List.filterMap_flatMap]
  rfl

@[simp] theorem files_file (path : PathBuf) (f : FileNode) :
    (mk (.file f) []).files path = [(path ++ f.name, f)] := by
  simp [files, subtrees_mk, file?]

theorem loaded_file (seen : List MerkleHash) (path : PathBuf) (f : FileNode) :
    (mk (.file f) []).loaded seen path =
      { tree := .mk (.file f) []
        partialNodes := [(path ++ f.name, f.toPartialNode)]
        panicked := !f.hasTime } := by
  simp [loaded, prune_mk, EMerkleTreeNode.hasChildren, containerHashes_file]

theorem loaded_seen {seen : List MerkleHash} {n : EMerkleTreeNode} (hn : n.hasChildren = true)
    (h : n.hash ∈ seen) (path : PathBuf) (cs : List MerkleTreeNode) :
    (mk n cs).loaded seen path = { tree := .mk n [], sharedHashes := [n.hash] } := by
  simp [loaded, prune_mk, hn, h, containerHashes_mk hn, files_mk hn]

theorem loaded_mk {seen : List MerkleHash} {n : EMerkleTreeNode} (hn : n.hasChildren = true)
    (h : n.hash ∉ seen) (path : PathBuf) (cs : List MerkleTreeNode) :
    (mk n cs).loaded seen path =
      { tree := .mk n (cs.map (prune seen))
        uniqueHashes := n.hash :: cs.flatMap fun c => (c.loaded seen (n.ownPath path)).uniqueHashes
        sharedHashes := cs.flatMap fun c => (c.loaded seen (n.ownPath path)).sharedHashes
        partialNodes := cs.flatMap fun c => (c.loaded seen (n.ownPath path)).partialNodes
        panicked := cs.any fun c => (c.loaded seen (n.ownPath path)).panicked } := by
  have hp : prune seen (.mk n cs) = .mk n (cs.map (prune seen)) := by simp [prune_mk, hn, h]
  simp [loaded, hp, containerHashes_mk hn, files_mk hn, h, List.filter_flatMap, List.flatMap_map,
    List.map_flatMap, List.any_flatMap]

/-- Loading a tree with enough fuel reports exactly the pruned tree. -/
theorem loadChildren_of_held {db : NodeStore} {t : MerkleTreeNode} (h : t.Held db)
    (ht : t.node.hasChildren = true) (seen : List MerkleHash) (path : PathBuf) {fuel : ℕ}
    (hf : t.size ≤ fuel) :
    loadChildrenAndCollectPartialNodes db seen fuel (t.node.ownPath path) t.node =
      t.loaded seen path := by
  induction t generalizing path fuel with
  | mk n cs ih =>
      have hcs := h.child
      obtain _ | fuel := fuel
      · have := size_pos (mk n cs)
        omega
      · rw [node_mk] at ht ⊢
        by_cases hs : n.hash ∈ seen
        · simp [loadChildrenAndCollectPartialNodes, ht, hs, loaded_seen ht hs]
        · have hsize : ∀ c ∈ cs, c.size ≤ fuel := by
            intro c hc
            have := List.single_le_sum (by simp) _ (List.mem_map_of_mem (f := size) hc)
            rw [size_mk] at hf
            omega
          have hchild : ∀ c ∈ cs,
              loadChild (loadChildrenAndCollectPartialNodes db seen fuel) (n.ownPath path) c.node =
                c.loaded seen (n.ownPath path) := by
            intro c hc
            obtain ⟨m, ds⟩ := c
            cases m with
            | file f =>
                obtain rfl := held_file (hcs _ hc)
                rw [loaded_file]
                rfl
            | directory d => exact ih _ hc (hcs _ hc) rfl _ (hsize _ hc)
            | vnode v => exact ih _ hc (hcs _ hc) rfl _ (hsize _ hc)
            | commit c => exact ih _ hc (hcs _ hc) rfl _ (hsize _ hc)
          have hread : (db.readChildrenFromHash n.hash).map
              (loadChild (loadChildrenAndCollectPartialNodes db seen fuel) (n.ownPath path)) =
                cs.map fun c => c.loaded seen (n.ownPath path) := by
            rw [h.readChildren ht, List.map_map]
            exact List.map_congr_left hchild
          simp only [loadChildrenAndCollectPartialNodes, ht, hs, hread, loaded_mk ht hs,
            Bool.not_true, Bool.false_eq_true, if_false, List.map_map, List.flatMap_map,
            List.any_map]
          rfl

theorem loadChildren_of_stored {db : NodeStore} {t : MerkleTreeNode} (h : t.Stored db)
    (ht : t.node.hasChildren = true) (seen : List MerkleHash) (path : PathBuf) {fuel : ℕ}
    (hf : t.size ≤ fuel) :
    loadChildrenAndCollectPartialNodes db seen fuel (t.node.ownPath path) t.node =
      t.loaded seen path :=
  loadChildren_of_held h.held ht seen path hf

end MerkleTreeNode

end Oxen
