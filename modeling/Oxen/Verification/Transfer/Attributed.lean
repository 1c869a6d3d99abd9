import Oxen.Lib.Attribution
import Oxen.Model.PushCommits
import Oxen.Verification.Transfer.Download

/-! What is uploaded with which commit, when the commits of a push share directories and
files. -/

namespace Oxen

open Attribution Commits MerkleTreeNode

variable {db : NodeStore} {s : Repository} {fuel : ℕ} {commit : CommitNode} {hash : MerkleHash}
  {seen : List MerkleHash} {t : MerkleTreeNode} {ids : Set MerkleHash}

/-! ## Files and containers of commits -/

theorem mem_fileHashes_iff (path : PathBuf) :
    hash ∈ t.fileHashes ↔
      ∃ (p : PathBuf) (f : FileNode) (cs : List MerkleTreeNode),
        (p, mk (.file f) cs) ∈ t.subtrees path ∧ f.hash = hash := by
  have hmap := map_snd_subtrees [] path t
  constructor
  · intro h
    obtain ⟨⟨p, f⟩, hmem, rfl⟩ := List.mem_map.mp h
    obtain ⟨q, cs, hsub, -⟩ := mem_files_iff.mp hmem
    have hsnd : mk (.file f) cs ∈ (t.subtrees path).map Prod.snd := by
      rw [← hmap]
      exact List.mem_map_of_mem hsub
    obtain ⟨⟨r, u⟩, hu, rfl⟩ := List.mem_map.mp hsnd
    exact ⟨r, f, cs, hu, rfl⟩
  · rintro ⟨p, f, cs, hsub, rfl⟩
    have hsnd : mk (.file f) cs ∈ (t.subtrees []).map Prod.snd := by
      rw [hmap]
      exact List.mem_map_of_mem hsub
    obtain ⟨⟨r, u⟩, hu, heq⟩ := List.mem_map.mp hsnd
    dsimp only at heq
    subst heq
    exact List.mem_map.mpr ⟨(r ++ f.name, f), mem_files_iff.mpr ⟨r, cs, hu, rfl⟩, rfl⟩

/-- The files of a commit's tree. -/
def FileHashes (db : NodeStore) (id : MerkleHash) : Set MerkleHash :=
  {h | ∃ t : CommitTree db, t.id = id ∧ ∃ c ∈ t.children, h ∈ c.fileHashes}

theorem mem_fileHashes_iff_of_tree {t : CommitTree db} :
    hash ∈ FileHashes db t.id ↔ ∃ c ∈ t.children, hash ∈ c.fileHashes := by
  constructor
  · rintro ⟨s, hid, hs⟩
    have hchildren : s.children = t.children := (mk.inj (CommitTree.tree_eq_of_id hid)).2
    rwa [hchildren] at hs
  · exact fun h => ⟨t, rfl, h⟩

/-- A node record or a file version of the remote. -/
inductive PushItem where
  | node (hash : MerkleHash)
  | version (hash : MerkleHash)

/-- The directories, virtual nodes and files of a commit's tree. -/
def TreeItems (db : NodeStore) (id : MerkleHash) : Set PushItem :=
  {x | match x with
    | .node h => h ∈ DirNodes db id
    | .version h => h ∈ FileHashes db id}

/-- A commit with all of its tree. -/
def Items (db : NodeStore) (id : MerkleHash) : Set PushItem :=
  insert (.node id) (TreeItems db id)

/-- What is in the trees of the commits. -/
def Known (db : NodeStore) (ids : Set MerkleHash) : Set PushItem :=
  {x | ∃ id ∈ ids, x ∈ TreeItems db id}

/-- The directories and virtual nodes directly below a node. -/
def ChildNodes (db : NodeStore) (parent : MerkleHash) : Set MerkleHash :=
  {h | ∃ record, db parent = some record ∧
    ∃ child ∈ record.children, child.hasChildren = true ∧ child.hash = h}

/-- No file has the hash of a node. -/
def FilesApart (db : NodeStore) : Prop :=
  ∀ id h, h ∈ FileHashes db id → db h = none

theorem FilesApart.notMem (h : FilesApart db) {id id' : MerkleHash} (hfile : hash ∈ FileHashes db id) :
    hash ∉ DirNodes db id' := by
  intro hdir
  have hsome := isSome_of_mem_dirNodes hdir
  rw [h id hash hfile] at hsome
  cases hsome

/-! ## Known hashes -/

/-- The hashes are those of the trees of the commits. -/
def Covers (db : NodeStore) (seen : List MerkleHash) (ids : Set MerkleHash) : Prop :=
  ∀ h, h ∈ seen ↔ ∃ id ∈ ids, h ∈ DirNodes db id ∨ h ∈ FileHashes db id

theorem Covers.nil : Covers db [] ∅ := by
  intro h
  simp

theorem Covers.notMem_of_node (h : Covers db seen ids) (hap : FilesApart db) {id : MerkleHash}
    (hdir : hash ∈ DirNodes db id) (hnew : .node hash ∉ Known db ids) : hash ∉ seen := by
  intro hseen
  obtain ⟨id', hid', hmem | hmem⟩ := (h hash).mp hseen
  · exact hnew ⟨id', hid', hmem⟩
  · exact hap.notMem hmem hdir

theorem Covers.notMem_of_version (h : Covers db seen ids) (hap : FilesApart db) {id : MerkleHash}
    (hfile : hash ∈ FileHashes db id) (hnew : .version hash ∉ Known db ids) : hash ∉ seen := by
  intro hseen
  obtain ⟨id', hid', hmem | hmem⟩ := (h hash).mp hseen
  · exact hap.notMem hfile hmem
  · exact hnew ⟨id', hid', hmem⟩

/-- A stored node with a seen hash is a node of one of the trees. -/
theorem Covers.exists_tree (h : Covers db seen ids) (hap : FilesApart db) (ht : t.Stored db)
    (hc : t.node.hasChildren = true) (hseen : t.hash ∈ seen) :
    ∃ id ∈ ids, ∃ s : CommitTree db, s.id = id ∧
      ∃ c ∈ s.children, ∃ p, (p, t) ∈ c.subtrees [] := by
  obtain ⟨id, hid, hmem⟩ := (h t.hash).mp hseen
  rcases hmem with ⟨s, hs, c, hcs, hmem⟩ | hmem
  · obtain ⟨p, u, hu, huc, heq⟩ := (mem_containerHashes_iff []).mp hmem
    obtain rfl : u = t :=
      ((s.stored_tree.child c hcs).of_mem_subtrees hu).eq_of_hash ht huc hc heq
    exact ⟨id, hid, s, hs, c, hcs, p, hu⟩
  · obtain ⟨n, cs⟩ := t
    obtain ⟨⟨record, hrecord, -⟩, -⟩ := (stored_container hc cs).mp ht
    have hnone := hap id _ hmem
    cases hrecord.symm.trans hnone

theorem Covers.closed (h : Covers db seen ids) (hap : FilesApart db) : Closed db seen := by
  intro t ht hc hseen x hx
  obtain ⟨id, hid, s, hs, c, hcs, p, hsub⟩ := h.exists_tree hap ht hc hseen
  obtain ⟨q, v, hv, hvc, hvh⟩ := (mem_containerHashes_iff p).mp hx
  refine (h x).mpr ⟨id, hid, .inl ⟨s, hs, c, hcs, ?_⟩⟩
  exact (mem_containerHashes_iff []).mpr ⟨q, v, mem_subtrees_trans hsub hv, hvc, hvh⟩

theorem Covers.filesClosed (h : Covers db seen ids) (hap : FilesApart db) (ht : t.Stored db)
    (hc : t.node.hasChildren = true) (hseen : t.hash ∈ seen) {x : MerkleHash}
    (hx : x ∈ t.fileHashes) : x ∈ seen := by
  obtain ⟨id, hid, s, hs, c, hcs, p, hsub⟩ := h.exists_tree hap ht hc hseen
  obtain ⟨q, f, fs, hf, hfh⟩ := (mem_fileHashes_iff p).mp hx
  refine (h x).mpr ⟨id, hid, .inr ⟨s, hs, c, hcs, ?_⟩⟩
  exact (mem_fileHashes_iff []).mpr ⟨q, f, fs, mem_subtrees_trans hsub hf, hfh⟩

/-- A load that stops at known containers misses no file that is not known. -/
theorem Covers.mem_fileHashes_prune_iff (h : Covers db seen ids) (hap : FilesApart db)
    (ht : t.Stored db) (hnot : hash ∉ seen) :
    hash ∈ (t.prune seen).fileHashes ↔ hash ∈ t.fileHashes := by
  constructor
  · intro hmem
    obtain ⟨p, f, cs, hsub, rfl⟩ := (mem_fileHashes_iff []).mp hmem
    obtain ⟨⟨n, ds⟩, hfull, heq⟩ := mem_subtrees_of_prune hsub
    have hnode := congrArg MerkleTreeNode.node heq
    rw [node_prune] at hnode
    obtain rfl : n = .file f := hnode.symm
    exact (mem_fileHashes_iff []).mpr ⟨p, f, ds, hfull, rfl⟩
  · intro hmem
    obtain ⟨p, f, cs, hsub, rfl⟩ := (mem_fileHashes_iff []).mp hmem
    rcases occurs_or_seen seen ht hsub with ho | ⟨r, u, hu, huc, huseen, hfu⟩
    · have hprune := ho.mem_subtrees_prune
      rw [prune_mk, if_neg (by simp [EMerkleTreeNode.hasChildren])] at hprune
      exact (mem_fileHashes_iff []).mpr ⟨p, f, [], hprune, rfl⟩
    · exact absurd (h.filesClosed hap hu huc huseen
        ((mem_fileHashes_iff r).mpr ⟨p, f, cs, hfu, rfl⟩)) hnot

/-! ## One commit -/

def PushCommitInfo.Has (info : PushCommitInfo) : PushItem → Prop
  | .node h => h ∈ info.uniqueDirNodes
  | .version h => h ∈ info.uniqueFileHashes

/-- What a commit is uploaded with: its record, what is new in its tree, and the
containers directly below a new node. -/
structure Uploaded (db : NodeStore) (ids : Set MerkleHash) (id : MerkleHash)
    (info : PushCommitInfo) : Prop where
  items : ∀ x ∈ Items db id, x ∉ Known db ids → info.Has x
  children : ∀ parent, .node parent ∈ Items db id → .node parent ∉ Known db ids →
    ∀ h ∈ ChildNodes db parent, info.Has (.node h)

/-- The containers below a node in the open are left by pruning. -/
theorem mem_containerHashes_prune_of_child {q : PathBuf} {u : MerkleTreeNode}
    (ho : Occurs (fun _ n => n.hasChildren = true ∧ n.hash ∉ seen) [] t q u)
    (hu : u.Stored db) (huc : u.node.hasChildren = true) (hnot : u.hash ∉ seen)
    (hchild : hash ∈ ChildNodes db u.hash) : hash ∈ (t.prune seen).containerHashes := by
  obtain ⟨n, cs⟩ := u
  obtain ⟨record, hrecord, child, hmem, hc, rfl⟩ := hchild
  obtain ⟨⟨record', hrecord', -, hchildren⟩, -⟩ := (stored_container huc cs).mp hu
  obtain rfl := Option.some.inj (hrecord.symm.trans hrecord')
  rw [hchildren] at hmem
  obtain ⟨c, hcs, rfl⟩ := List.mem_map.mp hmem
  have hprune := (ho.snoc ⟨huc, hnot⟩ hcs).mem_subtrees_prune
  exact (mem_containerHashes_iff []).mpr ⟨_, _, hprune, by simpa using hc, hash_prune seen c⟩

theorem getSubtree_spec (hloads : Loads s.db s.dirHashes fuel commit) (seen : List MerkleHash) :
    ∃ (t : CommitTree s.db) (root : MerkleTreeNode), t.id = commit.hash ∧ t.children = [root] ∧
      root.Stored s.db ∧ root.node.hasChildren = true ∧
      getSubtreeWithUniqueChildren s fuel commit seen =
        some { root.loaded seen [] with partialNodes := [], panicked := false } := by
  obtain ⟨t, ht, hsize⟩ := hloads
  obtain ⟨root, nodeHash, record, hchildren, hstored, hc, hlookup, hrecord, hload⟩ :=
    exists_loadChildren ht hsize seen
  refine ⟨t, root, ?_, hchildren, hstored, hc, ?_⟩
  · rw [← ht.commit_eq]
    rfl
  · rw [getSubtreeWithUniqueChildren, hlookup, Option.bind_some, hrecord, Option.map_some, hload]

theorem covers_append (hap : FilesApart db) (hcovers : Covers db seen ids) {t : CommitTree db}
    {root : MerkleTreeNode} (hchildren : t.children = [root]) (hroot : root.Stored db)
    {files : List MerkleHash}
    (hfiles : ∀ h, h ∈ files ↔ h ∈ (root.prune seen).fileHashes ∧ h ∉ seen) :
    Covers db (seen ++ (root.loaded seen []).uniqueHashes ++ files) (insert t.id ids) := by
  intro h
  have hclosed := hcovers.closed hap
  have hdir : h ∈ DirNodes db t.id ↔ h ∈ root.containerHashes := by
    rw [mem_dirNodes_iff, hchildren]
    simp
  have hfile : h ∈ FileHashes db t.id ↔ h ∈ root.fileHashes := by
    rw [mem_fileHashes_iff_of_tree, hchildren]
    simp
  have hseen := hcovers h
  rw [List.mem_append, List.mem_append, hclosed.mem_uniqueHashes_iff hroot, hfiles]
  simp only [Set.mem_insert_iff, exists_eq_or_imp, hdir, hfile, ← hseen]
  by_cases hold : h ∈ seen
  · simp [hold]
  · rw [hcovers.mem_fileHashes_prune_iff hap hroot hold]
    simp [hold]

theorem addCommit_spec (hap : FilesApart s.db) (hloads : Loads s.db s.dirHashes fuel commit)
    (missing : MissingHashes) (hcovers : Covers s.db missing.baseHashes ids) :
    ∃ info, (addCommit s fuel missing commit).result = missing.result ++ [(commit, info)] ∧
      Covers s.db (addCommit s fuel missing commit).baseHashes (insert commit.hash ids) ∧
      Uploaded s.db ids commit.hash info := by
  obtain ⟨t, root, hid, hchildren, hroot, hc, hload⟩ :=
    getSubtree_spec hloads missing.baseHashes
  have hclosed := hcovers.closed hap
  have hdir : ∀ h, h ∈ DirNodes s.db t.id ↔ h ∈ root.containerHashes := by
    intro h
    rw [mem_dirNodes_iff, hchildren]
    simp
  rw [addCommit, hload, ← hid]
  refine ⟨_, rfl, covers_append hap hcovers hchildren hroot (by simp [loaded, List.mem_eraseDups]),
    ?_, ?_⟩
  · intro x hx hnew
    cases x with
    | node h =>
        simp only [PushCommitInfo.Has, List.mem_append, List.mem_singleton]
        rcases hx with hx | hx
        · exact .inr (PushItem.node.inj hx)
        · have hnot := hcovers.notMem_of_node hap hx hnew
          have hunique := (hclosed.mem_uniqueHashes_iff hroot []).mpr ⟨(hdir h).mp hx, hnot⟩
          exact .inl (List.mem_of_mem_filter hunique)
    | version h =>
        rcases hx with hx | hx
        · cases hx
        · have hnot := hcovers.notMem_of_version hap hx hnew
          have hfile : h ∈ root.fileHashes := by
            have h' := mem_fileHashes_iff_of_tree.mp hx
            rw [hchildren] at h'
            simpa using h'
          simp only [PushCommitInfo.Has, List.mem_eraseDups, List.mem_filter, decide_eq_true_eq]
          exact ⟨(hcovers.mem_fileHashes_prune_iff hap hroot hnot).mpr hfile, hnot⟩
  · intro parent hx hnew h hchild
    simp only [PushCommitInfo.Has, List.mem_append]
    left
    rcases hx with hx | hx
    · obtain rfl := PushItem.node.inj hx
      obtain ⟨record, hrecord, child, hmem, hchildc, rfl⟩ := hchild
      obtain ⟨⟨record', hrecord', -, hrc⟩, -⟩ := (stored_container rfl _).mp t.stored
      obtain rfl := Option.some.inj (hrecord.symm.trans hrecord')
      rw [hrc, hchildren, List.map_singleton, List.mem_singleton] at hmem
      subst hmem
      exact (mem_containerHashes_iff []).mpr
        ⟨[], root.prune missing.baseHashes, self_mem_subtrees [] _, by simpa using hc,
          hash_prune _ root⟩
    · have hnot := hcovers.notMem_of_node hap hx hnew
      obtain ⟨p, u, hu, huc, rfl⟩ := (mem_containerHashes_iff []).mp ((hdir parent).mp hx)
      exact mem_containerHashes_prune_of_child (hclosed.occurs hroot hu huc hnot)
        (hroot.of_mem_subtrees hu) huc hnot hchild

/-! ## All commits of a push -/

/-- The item is new with the commit, which is the first of the order to have it. -/
def NewWith (db : NodeStore) (ids : Set MerkleHash) (order : List MerkleHash) (x : PushItem)
    (id : MerkleHash) : Prop :=
  x ∉ Known db ids ∧ FirstWith (Items db) x order id

/-- The item is new with the commit, or directly below a node that is. -/
def SentWith (db : NodeStore) (ids : Set MerkleHash) (order : List MerkleHash) (x : PushItem)
    (id : MerkleHash) : Prop :=
  NewWith db ids order x id ∨
    ∃ parent h, NewWith db ids order (.node parent) id ∧ h ∈ ChildNodes db parent ∧ x = .node h

theorem NewWith.cons_cases {x : PushItem} {id first : MerkleHash} {order : List MerkleHash}
    (h : NewWith db ids (first :: order) x id) :
    (id = first ∧ x ∈ Items db first ∧ x ∉ Known db ids) ∨
      NewWith db (insert first ids) order x id := by
  obtain ⟨hnew, hfirst⟩ := h
  cases hfirst with
  | head hx => exact .inl ⟨rfl, hx, hnew⟩
  | tail hnot hfirst =>
      refine .inr ⟨?_, hfirst⟩
      rintro ⟨id', hid', hx⟩
      rcases hid' with rfl | hid'
      · exact hnot (.inr hx)
      · exact hnew ⟨id', hid', hx⟩

theorem SentWith.cons_cases {x : PushItem} {id first : MerkleHash} {order : List MerkleHash}
    (h : SentWith db ids (first :: order) x id) :
    (id = first ∧ ∀ info, Uploaded db ids first info → info.Has x) ∨
      SentWith db (insert first ids) order x id := by
  rcases h with h | ⟨parent, child, h, hchild, rfl⟩
  · rcases h.cons_cases with ⟨rfl, hx, hnew⟩ | h
    · exact .inl ⟨rfl, fun info hinfo => hinfo.items x hx hnew⟩
    · exact .inr (.inl h)
  · rcases h.cons_cases with ⟨rfl, hx, hnew⟩ | h
    · exact .inl ⟨rfl, fun info hinfo => hinfo.children parent hx hnew child hchild⟩
    · exact .inr (.inr ⟨parent, child, h, hchild, rfl⟩)

/-- Every commit gets what is new with it in the order the commits are looked at. -/
theorem foldl_addCommit_spec (hap : FilesApart s.db) {order : List CommitNode}
    (hloads : ∀ c ∈ order, Loads s.db s.dirHashes fuel c) (missing : MissingHashes)
    (hcovers : Covers s.db missing.baseHashes ids) :
    ∃ infos, (order.foldl (addCommit s fuel) missing).result = missing.result ++ infos ∧
      infos.map Prod.fst = order ∧
      ∀ x id, SentWith s.db ids (order.map (·.hash)) x id →
        ∃ c info, (c, info) ∈ infos ∧ c.hash = id ∧ info.Has x := by
  induction order generalizing missing ids with
  | nil =>
      refine ⟨[], by simp, rfl, ?_⟩
      rintro x id (⟨-, h⟩ | ⟨_, _, ⟨-, h⟩, -⟩)
      · cases h
      · cases h
  | cons commit order ih =>
      obtain ⟨info, hresult, hcovers', hupload⟩ :=
        addCommit_spec hap (hloads commit (List.mem_cons_self ..)) missing hcovers
      obtain ⟨infos, hrest, hfst, hsent⟩ :=
        ih (fun c hc => hloads c (List.mem_cons_of_mem _ hc)) _ hcovers'
      refine ⟨(commit, info) :: infos, ?_, by rw [List.map_cons, hfst], fun x id h => ?_⟩
      · rw [List.foldl_cons, hrest, hresult, List.append_assoc, List.singleton_append]
      · rcases h.cons_cases with ⟨rfl, hhas⟩ | h
        · exact ⟨commit, info, List.mem_cons_self .., rfl, hhas info hupload⟩
        · obtain ⟨c, info', hmem, hid, hhas⟩ := hsent x id h
          exact ⟨c, info', List.mem_cons_of_mem _ hmem, hid, hhas⟩

/-- The commit whose tree the remote is taken to have. -/
def latestIds (latest : Option CommitNode) : Set MerkleHash :=
  {id | latest.map (·.hash) = some id}

theorem covers_latest (hap : FilesApart s.db) (hloads : Loads s.db s.dirHashes fuel commit) :
    ∃ root, getSubtreeWithUniqueChildren s fuel commit [] = some root ∧
      Covers s.db (root.uniqueHashes ++ root.tree.fileHashes) (latestIds (some commit)) := by
  obtain ⟨t, root, hid, hchildren, hroot, -, hload⟩ := getSubtree_spec hloads []
  refine ⟨_, hload, ?_⟩
  have hcovers : Covers s.db ((root.loaded [] []).uniqueHashes ++ (root.prune []).fileHashes)
      (insert t.id ∅) := covers_append hap Covers.nil hchildren hroot (by simp)
  have hids : latestIds (some commit) = insert t.id ∅ := by
    ext id
    simp [latestIds, hid, eq_comm]
  rw [hids]
  exact hcovers

theorem getCommitMissingHashes_spec (hap : FilesApart s.db) {latest : Option CommitNode}
    {commits : List CommitNode} (hlatest : ∀ c ∈ latest, Loads s.db s.dirHashes fuel c)
    (hloads : ∀ c ∈ commits, Loads s.db s.dirHashes fuel c) :
    (getCommitMissingHashes s fuel latest commits).map Prod.fst = commits.reverse ∧
      ∀ x id, SentWith s.db (latestIds latest) (commits.map (·.hash)).reverse x id →
        ∃ c info, (c, info) ∈ getCommitMissingHashes s fuel latest commits ∧ c.hash = id ∧
          info.Has x := by
  have hspec : ∀ baseHashes, Covers s.db baseHashes (latestIds latest) →
      ((commits.reverse.foldl (addCommit s fuel) { baseHashes }).result.map Prod.fst =
          commits.reverse ∧
        ∀ x id, SentWith s.db (latestIds latest) (commits.map (·.hash)).reverse x id →
          ∃ c info, (c, info) ∈ (commits.reverse.foldl (addCommit s fuel) { baseHashes }).result ∧
            c.hash = id ∧ info.Has x) := by
    intro baseHashes hcovers
    obtain ⟨infos, hresult, hfst, hsent⟩ := foldl_addCommit_spec hap
      (fun c hc => hloads c (List.mem_reverse.mp hc)) { baseHashes } hcovers
    rw [hresult, List.nil_append, ← List.map_reverse]
    exact ⟨hfst, hsent⟩
  cases latest with
  | none =>
      apply hspec []
      have hids : latestIds none = ∅ := by
        ext id
        simp [latestIds]
      rw [hids]
      exact Covers.nil
  | some commit =>
      obtain ⟨root, hload, hcovers⟩ := covers_latest hap (hlatest commit rfl)
      simp only [getCommitMissingHashes, Option.bind_some, hload]
      exact hspec _ hcovers

/-! ## Items of a tree -/

theorem childNodes_subset {t : CommitTree db} {parent : MerkleHash}
    (hparent : .node parent ∈ Items db t.id) : ChildNodes db parent ⊆ DirNodes db t.id := by
  rintro h ⟨record, hrecord, child, hmem, hc, rfl⟩
  obtain ⟨root, hroot, hrootc, hchildren⟩ : ∃ root : MerkleTreeNode, root.Stored db ∧
      root.node.hasChildren = true ∧ t.children = [root] := by
    obtain ⟨d, vnodes, hchildren, -⟩ := t.exists_root
    exact ⟨_, t.stored_tree.child _ (by rw [hchildren]; simp), rfl, hchildren⟩
  rw [mem_dirNodes_iff, hchildren]
  refine ⟨root, List.mem_singleton_self _, ?_⟩
  rcases hparent with hparent | hparent
  · obtain rfl := PushItem.node.inj hparent
    obtain ⟨⟨record', hrecord', -, hrc⟩, -⟩ := (stored_container rfl _).mp t.stored
    obtain rfl := Option.some.inj (hrecord.symm.trans hrecord')
    rw [hrc, hchildren, List.map_singleton, List.mem_singleton] at hmem
    subst hmem
    exact (mem_containerHashes_iff []).mpr ⟨[], root, self_mem_subtrees [] _, hrootc, rfl⟩
  · obtain ⟨c, hcs, hmemc⟩ := mem_dirNodes_iff.mp hparent
    rw [hchildren, List.mem_singleton] at hcs
    subst hcs
    obtain ⟨p, ⟨n, cs⟩, hu, huc, rfl⟩ := (mem_containerHashes_iff []).mp hmemc
    obtain ⟨⟨record', hrecord', -, hrc⟩, -⟩ :=
      (stored_container huc cs).mp (hroot.of_mem_subtrees hu)
    obtain rfl := Option.some.inj (hrecord.symm.trans hrecord')
    rw [hrc] at hmem
    obtain ⟨v, hv, rfl⟩ := List.mem_map.mp hmem
    exact (mem_containerHashes_iff []).mpr ⟨_, v, child_mem_subtrees hu hv, hc, rfl⟩

theorem SentWith.mem_items {t : CommitTree db} {order : List MerkleHash} {x : PushItem}
    (h : SentWith db ids order x t.id) : x ∈ Items db t.id := by
  rcases h with h | ⟨parent, child, h, hchild, rfl⟩
  · exact h.2.mem.2
  · exact .inr (childNodes_subset h.2.mem.2 hchild)

/-- The record of a container or commit that is sent is stored. -/
theorem isSome_of_node_mem_items {t : CommitTree db} (h : .node hash ∈ Items db t.id) :
    (db hash).isSome := by
  rcases h with h | h
  · obtain rfl := PushItem.node.inj h
    obtain ⟨⟨record, hrecord, -⟩, -⟩ := (stored_container rfl _).mp t.stored
    exact Option.isSome_of_eq_some hrecord
  · exact isSome_of_mem_dirNodes h

end Oxen
