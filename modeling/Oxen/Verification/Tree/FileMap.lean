import Oxen.Lib.KeyedMap
import Oxen.Model.CommitMerkleTree
import Oxen.Verification.Tree.Occurs

/-! The files of a commit by path, and the files that lie outside the
containers it shares with other commits. -/

namespace Oxen

open MerkleTreeNode

namespace MerkleTreeNode

variable {path q : PathBuf} {t s : MerkleTreeNode} {seen : List MerkleHash}

theorem mem_files_of_mem_subtrees {p : PathBuf} {f : FileNode} (h : (q, s) ∈ t.subtrees path)
    (hf : (p, f) ∈ s.files q) : (p, f) ∈ t.files path := by
  obtain ⟨r, cs, hr, rfl⟩ := mem_files_iff.mp hf
  exact mem_files_iff.mpr ⟨r, cs, mem_subtrees_trans h hr, rfl⟩

theorem files_sublist (path : PathBuf) (t : MerkleTreeNode) :
    List.Sublist ((t.files path).map Prod.fst) ((t.entries path).map Prod.fst) := by
  rw [files, entries, List.map_filterMap, List.map_filterMap]
  induction t.subtrees path with
  | nil => exact .slnil
  | cons x rest ih =>
      obtain ⟨p, n, cs⟩ := x
      cases n with
      | file f => exact ih.cons_cons _
      | directory d => exact ih.cons _
      | vnode v => exact ih
      | commit c => exact ih

theorem UniquePaths.nodup_files (h : UniquePaths path t) : ((t.files path).map Prod.fst).Nodup :=
  h.sublist (files_sublist path t)

/-- A search that skips the shared containers of a pruned tree finds the files
outside both kinds of containers. -/
theorem uniqueDirEntries_prune {shared : List MerkleHash}
    (hcommit : ∀ p n cs, (p, mk n cs) ∈ t.subtrees path → ∀ c ds, mk (.commit c) ds ∉ cs)
    (hc : t.node.hasChildren = true) :
    (t.prune seen).uniqueDirEntries shared (t.node.ownPath path) =
      (t.prune (seen ++ shared)).files path := by
  induction t generalizing path with
  | mk n cs ih =>
      rw [node_mk] at hc ⊢
      by_cases hseen : n.hash ∈ seen
      · rw [prune_mk, if_neg (fun h => h.2 hseen), prune_mk,
          if_neg (fun h => h.2 (List.mem_append_left _ hseen)), uniqueDirEntries, files_mk hc]
        simp [uniqueChildren]
      by_cases hshared : n.hash ∈ shared
      · rw [prune_mk, if_pos ⟨hc, hseen⟩, prune_mk,
          if_neg (fun h => h.2 (List.mem_append_right _ hshared)), uniqueDirEntries,
          if_neg (fun h => h.2 hshared), files_mk hc]
        rfl
      rw [prune_mk, if_pos ⟨hc, hseen⟩, prune_mk, if_pos ⟨hc, by simp [hseen, hshared]⟩,
        uniqueDirEntries, if_pos ⟨hc, hshared⟩, files_mk hc, List.flatMap_map]
      have hchild : ∀ c ∈ cs, ∀ p n' ds, (p, mk n' ds) ∈ c.subtrees (n.ownPath path) →
          ∀ c' es, mk (.commit c') es ∉ ds := by
        intro c hmem p n' ds hs
        exact hcommit p n' ds
          (mem_subtrees_trans (child_mem_subtrees (self_mem_subtrees path _) hmem) hs)
      have hno := hcommit path n cs (self_mem_subtrees path _)
      clear hcommit
      induction cs with
      | nil => rfl
      | cons c rest ihrest =>
          rw [List.map_cons, List.flatMap_cons, ← ihrest (fun c hc => ih c (by simp [hc]))
            (fun c hc => hchild c (by simp [hc])) (fun c ds hc => hno c ds (by simp [hc]))]
          have hfirst := ih c (by simp) (hchild c (by simp))
          obtain ⟨m, ds⟩ := c
          cases m with
          | file f =>
              rw [prune_mk, if_neg (by simp [EMerkleTreeNode.hasChildren]), prune_mk,
                if_neg (by simp [EMerkleTreeNode.hasChildren]), files_file, uniqueChildren]
              rfl
          | commit c => exact absurd (by simp) (hno c ds)
          | directory d =>
              rw [← hfirst rfl]
              have hnode := node_prune seen (.mk (.directory d) ds)
              rcases hp : prune seen (.mk (.directory d) ds) with ⟨m, es⟩
              rw [hp] at hnode
              obtain rfl : m = .directory d := hnode
              rfl
          | vnode v =>
              rw [← hfirst rfl]
              have hnode := node_prune seen (.mk (.vnode v) ds)
              rcases hp : prune seen (.mk (.vnode v) ds) with ⟨m, es⟩
              rw [hp] at hnode
              obtain rfl : m = .vnode v := hnode
              rfl

end MerkleTreeNode

namespace CommitTree

variable {db : NodeStore} (t : CommitTree db) {path : PathBuf} {f : FileNode}
  {seen : List MerkleHash}

/-- The file of the commit at each path. -/
def fileMap : KeyedMap.Map PathBuf FileNode :=
  KeyedMap.insertAll ∅ (t.tree.files [])

def fileHash (path : PathBuf) : Option MerkleHash :=
  (t.fileMap.lookup path).map (·.combinedHash)

/-- The files outside the containers with a seen hash. -/
def openFiles (seen : List MerkleHash) : KeyedMap.Map PathBuf FileNode :=
  KeyedMap.insertAll ∅ ((t.tree.prune seen).files [])

theorem uniqueDirEntries_prune (seen shared : List MerkleHash) :
    (t.tree.prune seen).uniqueDirEntries shared [] = (t.tree.prune (seen ++ shared)).files [] :=
  MerkleTreeNode.uniqueDirEntries_prune (fun _ _ _ h _ _ => t.not_commit_child h) rfl

theorem mem_files_of_open (h : (path, f) ∈ (t.tree.prune seen).files []) :
    (path, f) ∈ t.tree.files [] := by
  obtain ⟨q, cs, hq, rfl⟩ := mem_files_iff.mp h
  obtain ⟨⟨n, ds⟩, hfull, hn⟩ := mem_subtrees_of_prune hq
  obtain rfl : EMerkleTreeNode.file f = n := by simpa using congrArg node hn
  exact mem_files_iff.mpr ⟨q, ds, hfull, rfl⟩

/-- A file is open or lies in a container with a seen hash. -/
theorem open_or_hidden (h : (path, f) ∈ t.tree.files []) :
    (path, f) ∈ (t.tree.prune seen).files [] ∨
      ∃ r u, (r, u) ∈ t.tree.subtrees [] ∧ u.node.hasChildren = true ∧ u.hash ∈ seen ∧
        (path, f) ∈ u.files r := by
  obtain ⟨q, cs, hq, rfl⟩ := mem_files_iff.mp h
  rcases occurs_or_hidden (fun _ n => n.hasChildren = true ∧ n.hash ∉ seen) hq with
    ho | ⟨r, u, hu, hnot, hne, hf⟩
  · left
    have hmem := ho.mem_subtrees_prune
    rw [prune_mk, if_neg (by simp [EMerkleTreeNode.hasChildren])] at hmem
    exact mem_files_iff.mpr ⟨q, [], hmem, rfl⟩
  · have hc := t.hasChildren_of_mem hu hne
    exact .inr ⟨r, u, hu, hc, not_not.mp fun hn => hnot ⟨hc, hn⟩, mem_files_iff.mpr ⟨q, cs, hf, rfl⟩⟩

/-- With unique paths no container with a seen hash holds an open file. -/
theorem not_hidden_of_open (huniq : UniquePaths [] t.tree)
    (h : (path, f) ∈ (t.tree.prune seen).files []) {r : PathBuf} {u : MerkleTreeNode}
    (hu : (r, u) ∈ t.tree.subtrees []) (hc : u.node.hasChildren = true)
    {g : FileNode} (hg : (path, g) ∈ u.files r) : u.hash ∉ seen := by
  obtain ⟨q, cs, hq, rfl⟩ := mem_files_iff.mp h
  obtain ⟨⟨n, ds⟩, ho, hn⟩ := occurs_of_mem_prune hq
  obtain rfl : EMerkleTreeNode.file f = n := by simpa using congrArg node hn
  obtain rfl := t.children_file ho.mem_subtrees
  obtain ⟨q', es, hq', hpath⟩ := mem_files_iff.mp hg
  have hmem := mem_subtrees_trans hu hq'
  obtain rfl := huniq.file_eq (mem_files_iff.mpr ⟨q, [], ho.mem_subtrees, rfl⟩)
    (mem_files_iff.mpr ⟨q', es, hmem, hpath⟩)
  obtain rfl := (List.append_inj' hpath rfl).1
  obtain rfl := t.children_file hmem
  exact (ho.pass_of_mem huniq hu hq' hc).2

section

variable (huniq : UniquePaths [] t.tree)
include huniq

theorem lookup_fileMap_iff : t.fileMap.lookup path = some f ↔ (path, f) ∈ t.tree.files [] :=
  KeyedMap.lookup_insertAll_empty_iff huniq.nodup_files

end

theorem mem_open_of_lookup (h : (t.openFiles seen).lookup path = some f) :
    (path, f) ∈ (t.tree.prune seen).files [] := by
  simpa using KeyedMap.mem_of_lookup_insertAll h

theorem lookup_fileMap_of_lookup_openFiles (huniq : UniquePaths [] t.tree)
    (h : (t.openFiles seen).lookup path = some f) : t.fileMap.lookup path = some f :=
  (t.lookup_fileMap_iff huniq).mpr (t.mem_files_of_open (t.mem_open_of_lookup h))

/-- A file of the commit that is missing among the open files is in a container
with a seen hash. -/
theorem hidden_of_not_open (huniq : UniquePaths [] t.tree) (hf : t.fileMap.lookup path = some f)
    (h : (t.openFiles seen).lookup path = none) :
    ∃ r u, (r, u) ∈ t.tree.subtrees [] ∧ u.node.hasChildren = true ∧ u.hash ∈ seen ∧
      (path, f) ∈ u.files r := by
  refine (t.open_or_hidden ((t.lookup_fileMap_iff huniq).mp hf)).resolve_left fun hopen => ?_
  rw [openFiles, KeyedMap.lookup_insertAll_empty_eq_none] at h
  exact h (List.mem_map_of_mem hopen)

end CommitTree

/-! ## Shared containers -/

section Shared

variable {db : NodeStore}

/-- Directories and virtual nodes with one hash are at one path. -/
def SharedInPlace (s t : CommitTree db) : Prop :=
  ∀ x ∈ s.tree.subtrees [], ∀ y ∈ t.tree.subtrees [],
    x.2.node.hasChildren = true → y.2.node.hasChildren = true → x.2.hash = y.2.hash → x.1 = y.1

instance (s t : CommitTree db) : Decidable (SharedInPlace s t) :=
  inferInstanceAs (Decidable (∀ x ∈ s.tree.subtrees [], ∀ y ∈ t.tree.subtrees [], _ → _ → _ → _))

theorem SharedInPlace.symm {s t : CommitTree db} (h : SharedInPlace s t) : SharedInPlace t s :=
  fun x hx y hy hxc hyc hh => (h y hy x hx hyc hxc hh.symm).symm

/-- A container that both trees have is at the same place in both. -/
theorem SharedInPlace.mem_subtrees {s t : CommitTree db} (h : SharedInPlace s t) {r : PathBuf}
    {u : MerkleTreeNode} (hu : (r, u) ∈ t.tree.subtrees []) (hc : u.node.hasChildren = true)
    (hh : u.hash ∈ s.tree.containerHashes) : (r, u) ∈ s.tree.subtrees [] := by
  obtain ⟨p, v, hv, hvc, heq⟩ := (mem_containerHashes_iff []).mp hh
  obtain rfl : v = u := (s.stored_tree.of_mem_subtrees hv).eq_of_hash
    (t.stored_tree.of_mem_subtrees hu) hvc hc heq
  obtain rfl : p = r := h (p, v) hv (r, v) hu hvc hc rfl
  exact hv

end Shared

/-! ## Small trees -/

namespace Example

/-- A host whose hash of a short content is its value as a number. -/
def host : Host where
  xxh3 bytes := BitVec.ofNat 128 (bytes.foldl (fun acc b => acc * 257 + b.toNat + 1) 0)
  dirMetadata _ := { len := 4096, mtime := 7 }
  fileMetadataHash _ _ := none

def repo : LocalRepository := { host with }

def fileNode (name : String) (content : Content) (mtime : Nat) : FileNode where
  name := [name]
  hash := host.xxh3 content
  numBytes := content.length
  lastModifiedNanoseconds := mtime

def file (name : String) (content : Content) (mtime : Nat) : MerkleTreeNode :=
  .mk (.file (fileNode name content mtime)) []

def dir (name : PathBuf) (hash : MerkleHash) (entries : List MerkleTreeNode) : MerkleTreeNode :=
  .mk (.directory { name, hash }) [.mk (.vnode { hash := hash + 1 }) entries]

end Example

end Oxen
