import Oxen.Model.CommitMerkleTree
import Oxen.Verification.Tree.Search

/-! Directories whose entries have distinct names and lie in the virtual nodes
that their paths fall into. -/

namespace Oxen

namespace MerkleTreeNode

variable {host : Host} {path p : PathBuf} {t : MerkleTreeNode} {d : DirNode}
  {vnodes : List MerkleTreeNode}

/-- The entries of a directory at the path are distributed by their full paths. -/
structure Bucketed (host : Host) (path : PathBuf) (vnodes : List MerkleTreeNode) : Prop where
  names : ((vnodes.flatMap children).map fun c => c.node.ownPath []).Nodup
  bucket : ∀ i v, vnodes[i]? = some v → ∀ c ∈ v.children,
    CommitMerkleTree.bucketOf host (c.node.ownPath path) vnodes.length = i

/-- Every node has children of its kind, and every directory distributes them. -/
def WellPlaced (host : Host) (path : PathBuf) (t : MerkleTreeNode) : Prop :=
  ∀ p s, (p, s) ∈ t.subtrees path → s.localShape = true ∧
    ∀ d vnodes, s = .mk (.directory d) vnodes → Bucketed host (p ++ d.name) vnodes

theorem wellPlaced_mk_iff {n : EMerkleTreeNode} {cs : List MerkleTreeNode} :
    WellPlaced host path (.mk n cs) ↔
      ((mk n cs).localShape = true ∧ ∀ d, n = .directory d → Bucketed host (path ++ d.name) cs) ∧
        ∀ c ∈ cs, WellPlaced host (n.ownPath path) c := by
  constructor
  · intro h
    refine ⟨⟨(h _ _ (self_mem_subtrees path _)).1, ?_⟩, fun c hc p s hs => h p s ?_⟩
    · rintro d rfl
      exact (h _ _ (self_mem_subtrees path _)).2 d cs rfl
    · exact mem_subtrees_trans (child_mem_subtrees (self_mem_subtrees path _) hc) hs
  · rintro ⟨⟨hshape, hbucketed⟩, hcs⟩ p s hs
    rw [subtrees_mk, List.mem_cons, List.mem_flatMap] at hs
    rcases hs with hs | ⟨c, hc, hs⟩
    · obtain ⟨rfl, rfl⟩ := Prod.mk.inj hs
      refine ⟨hshape, fun d vnodes heq => ?_⟩
      obtain ⟨rfl, rfl⟩ := mk.inj heq
      exact hbucketed d rfl
    · exact hcs c hc p s hs

theorem WellPlaced.of_mem_subtrees (h : WellPlaced host path t) {s : MerkleTreeNode}
    (hs : (p, s) ∈ t.subtrees path) : WellPlaced host p s :=
  fun q u hu => h q u (mem_subtrees_trans hs hu)

theorem WellPlaced.child {n : EMerkleTreeNode} {cs : List MerkleTreeNode} {c : MerkleTreeNode}
    (h : WellPlaced host path (.mk n cs)) (hc : c ∈ cs) : WellPlaced host (n.ownPath path) c :=
  (wellPlaced_mk_iff.mp h).2 c hc

theorem WellPlaced.bucketed (h : WellPlaced host path (.mk (.directory d) vnodes)) :
    Bucketed host (path ++ d.name) vnodes :=
  (wellPlaced_mk_iff.mp h).1.2 d rfl

/-- A directory with one virtual node. -/
theorem wellPlaced_single {v : VNode} {cs : List MerkleTreeNode}
    (hentry : ∀ c ∈ cs, c.isEntry = true)
    (hnames : (cs.map fun c => c.node.ownPath []).Nodup)
    (hcs : ∀ c ∈ cs, WellPlaced host (path ++ d.name) c) :
    WellPlaced host path (.mk (.directory d) [.mk (.vnode v) cs]) := by
  refine wellPlaced_mk_iff.mpr ⟨⟨rfl, fun d' hd => ⟨?_, fun i u hu c _ => ?_⟩⟩, fun c hc => ?_⟩
  · rwa [List.flatMap_singleton]
  · have hi := (List.getElem?_eq_some_iff.mp hu).1
    obtain rfl : i = 0 := Nat.lt_one_iff.mp hi
    exact Nat.mod_one _
  · obtain rfl := List.mem_singleton.mp hc
    exact wellPlaced_mk_iff.mpr
      ⟨⟨List.all_eq_true.mpr hentry, fun d' hd => by cases hd⟩, hcs⟩

theorem WellPlaced.localShape (h : WellPlaced host path t) : t.localShape = true :=
  (h path t (self_mem_subtrees path t)).1

/-- The virtual nodes of a directory. -/
theorem WellPlaced.eq_vnode (h : WellPlaced host path (.mk (.directory d) vnodes))
    {v : MerkleTreeNode} (hv : v ∈ vnodes) : ∃ n cs, v = .mk (.vnode n) cs := by
  have hs := List.all_eq_true.mp h.localShape v hv
  obtain ⟨n, cs⟩ := v
  cases n with
  | vnode n => exact ⟨n, cs, rfl⟩
  | file f => cases hs
  | directory d => cases hs
  | commit c => cases hs

/-- The root directory of a commit. -/
theorem WellPlaced.eq_root {c : CommitNode} {cs : List MerkleTreeNode}
    (h : WellPlaced host path (.mk (.commit c) cs)) :
    ∃ d vnodes, cs = [.mk (.directory d) vnodes] := by
  match cs, h.localShape with
  | [.mk (.directory d) vnodes], _ => exact ⟨d, vnodes, rfl⟩

theorem WellPlaced.isEntry {n : VNode} {cs : List MerkleTreeNode}
    (h : WellPlaced host path (.mk (.vnode n) cs)) {c : MerkleTreeNode} (hc : c ∈ cs) :
    c.isEntry = true :=
  List.all_eq_true.mp h.localShape c hc

/-! ## Distinct paths -/

/-- A path below an entry starts with the name of the entry. -/
theorem exists_name_of_mem_entries {c : MerkleTreeNode} (hc : c.isEntry = true)
    {e : EMerkleTreeNode} (he : (p, e) ∈ c.entries path) :
    ∃ name, c.node.ownPath [] = [name] ∧ path ++ [name] <+: p := by
  obtain ⟨n, cs⟩ := c
  have hprefix : (n.ownPath path) <+: p := by
    rw [entries_mk, List.mem_append, List.mem_flatMap] at he
    rcases he with he | ⟨c, -, he⟩
    · cases n with
      | file f =>
          obtain ⟨rfl, -⟩ : p = path ++ f.name ∧ _ := by simpa [ entry?] using he
          exact List.prefix_refl _
      | directory d =>
          obtain ⟨rfl, -⟩ : p = path ++ d.name ∧ _ := by simpa [ entry?] using he
          exact List.prefix_refl _
      | vnode v => cases hc
      | commit c => cases hc
    · exact prefix_of_mem_entries he
  cases n with
  | file f =>
      rcases List.length_eq_one_iff.mp (of_decide_eq_true hc) with ⟨name, hname⟩
      refine ⟨name, by simp [EMerkleTreeNode.ownPath, hname], ?_⟩
      simpa [EMerkleTreeNode.ownPath, hname] using hprefix
  | directory d =>
      rcases List.length_eq_one_iff.mp (of_decide_eq_true hc) with ⟨name, hname⟩
      refine ⟨name, by simp [EMerkleTreeNode.ownPath, hname], ?_⟩
      simpa [EMerkleTreeNode.ownPath, hname] using hprefix
  | vnode v => cases hc
  | commit c => cases hc

/-- Entries at one path lie below children of one name. -/
theorem ownPath_eq_of_mem_entries {c c' : MerkleTreeNode} (hc : c.isEntry = true)
    (hc' : c'.isEntry = true) {e e' : EMerkleTreeNode} (he : (p, e) ∈ c.entries path)
    (he' : (p, e') ∈ c'.entries path) : c.node.ownPath [] = c'.node.ownPath [] := by
  rcases exists_name_of_mem_entries hc he with ⟨name, hname, hp⟩
  rcases exists_name_of_mem_entries hc' he' with ⟨name', hname', hp'⟩
  have heq := (List.prefix_of_prefix_length_le hp hp' (by simp)).eq_of_length (by simp)
  rw [hname, hname', List.append_cancel_left heq]

/-- Entries of distinct names have distinct paths below them. -/
theorem nodup_flatMap_entries {cs : List MerkleTreeNode} (hentry : ∀ c ∈ cs, c.isEntry = true)
    (hnames : (cs.map fun c => c.node.ownPath []).Nodup) (huniq : ∀ c ∈ cs, UniquePaths path c) :
    ((cs.flatMap (entries path)).map Prod.fst).Nodup := by
  rw [List.map_flatMap, List.nodup_flatMap]
  refine ⟨huniq, (List.pairwise_map.mp hnames).imp_of_mem fun hc hc' hne p hp hp' => hne ?_⟩
  rcases List.mem_map.mp hp with ⟨⟨p, e⟩, he, rfl⟩
  rcases List.mem_map.mp hp' with ⟨⟨_, e'⟩, he', rfl⟩
  exact ownPath_eq_of_mem_entries (hentry _ hc) (hentry _ hc') he he'

/-- Where the entries below a node have to have distinct paths. -/
def UniqueBelow (path : PathBuf) : MerkleTreeNode → Prop
  | .mk (.vnode _) cs => ∀ c ∈ cs, UniquePaths path c
  | t => UniquePaths path t

theorem UniqueBelow.of_isEntry (h : UniqueBelow path t) (ht : t.isEntry = true) :
    UniquePaths path t := by
  match t, h with
  | .mk (.file f) cs, h => exact h
  | .mk (.directory d) cs, h => exact h
  | .mk (.vnode v) cs, _ => cases ht
  | .mk (.commit c) cs, _ => cases ht

theorem WellPlaced.uniqueBelow {db : NodeStore} (h : WellPlaced host path t) (hh : t.Held db) :
    UniqueBelow path t := by
  induction t generalizing path with
  | mk n cs ih =>
      have hchild : ∀ c ∈ cs, UniqueBelow (n.ownPath path) c := fun c hc =>
        ih c hc (h.child hc) (hh.child c hc)
      cases n with
      | file f =>
          obtain rfl := held_file hh
          simp [UniqueBelow, UniquePaths, entries_mk, entry?]
      | vnode v => exact fun c hc => (hchild c hc).of_isEntry (h.isEntry hc)
      | commit c =>
          rcases h.eq_root with ⟨d, vnodes, rfl⟩
          have hroot : UniquePaths path (.mk (.directory d) vnodes) :=
            hchild _ (List.mem_singleton.mpr rfl)
          simpa [UniqueBelow, UniquePaths, entries_mk, entry?, EMerkleTreeNode.ownPath]
            using hroot
      | directory d =>
          have hentries : ∀ c ∈ cs.flatMap children, c.isEntry = true ∧
              UniquePaths (path ++ d.name) c := by
            intro c hc
            rcases List.mem_flatMap.mp hc with ⟨v, hv, hc⟩
            rcases h.eq_vnode hv with ⟨v, ds, rfl⟩
            exact ⟨(h.child hv).isEntry hc, hchild _ hv c hc⟩
          have hflat : cs.flatMap (entries (path ++ d.name)) =
              (cs.flatMap children).flatMap (entries (path ++ d.name)) := by
            rw [List.flatMap_assoc]
            refine List.flatMap_congr fun v hv => ?_
            rcases h.eq_vnode hv with ⟨v, ds, rfl⟩
            rw [entries_mk]
            rfl
          change (List.map Prod.fst (entries path (.mk (.directory d) cs))).Nodup
          rw [entries_mk, List.map_append, entry?]
          refine List.nodup_cons.mpr ⟨fun hmem => ?_, ?_⟩
          · rcases List.mem_map.mp hmem with ⟨⟨p, e⟩, he, hp⟩
            obtain rfl : p = path ++ d.name := hp
            change _ ∈ cs.flatMap (entries (path ++ d.name)) at he
            rw [hflat, List.mem_flatMap] at he
            rcases he with ⟨c, hc, he⟩
            rcases exists_name_of_mem_entries (hentries c hc).1 he with ⟨name, -, hprefix⟩
            have hlen := hprefix.length_le
            rw [List.length_append, List.length_singleton] at hlen
            omega
          · change (List.map Prod.fst (cs.flatMap (entries (path ++ d.name)))).Nodup
            rw [hflat]
            exact nodup_flatMap_entries (fun c hc => (hentries c hc).1) h.bucketed.names
              fun c hc => (hentries c hc).2

/-- No path is used twice in the tree of a commit. -/
theorem WellPlaced.uniquePaths {db : NodeStore} {c : CommitNode} {cs : List MerkleTreeNode}
    (h : WellPlaced host path (.mk (.commit c) cs)) (hh : (mk (.commit c) cs).Held db) :
    UniquePaths path (.mk (.commit c) cs) :=
  h.uniqueBelow hh

end MerkleTreeNode

end Oxen
