import Oxen.Verification.Commit.FileLookup
import Oxen.Verification.Commit.IndexMirror

/-! A commit has the files of the commit it builds upon, with what is staged put over
them, and its index names exactly its directories. -/

namespace Oxen

namespace CommitWriter

open MerkleTreeNode TreeWrites

/-! ## A tree and the index that follows it -/

section Tree

variable {host : Host} {db : NodeStore} {dirHashes : DirHashes} {path p : PathBuf}
  {t : MerkleTreeNode}

theorem mem_directories_iff {d : DirNode} :
    (p, .directory d) ∈ t.entries path ↔
      ∃ q vnodes, (q, mk (.directory d) vnodes) ∈ t.subtrees path ∧ q ++ d.name = p := by
  constructor
  · intro h
    rcases List.mem_filterMap.mp h with ⟨⟨q, n, cs⟩, hm, he⟩
    cases n with
    | directory e =>
        obtain ⟨rfl, hd⟩ := Prod.mk.inj (Option.some.inj he)
        obtain rfl := EMerkleTreeNode.directory.inj hd
        exact ⟨q, cs, hm, rfl⟩
    | file f => simp [ entry?] at he
    | vnode v => cases he
    | commit c => cases he
  · rintro ⟨q, vnodes, hm, rfl⟩
    exact mem_entries_of_mem_subtrees hm rfl

/-- A file lies in a virtual node of a directory. -/
theorem exists_directory_of_file {c : CommitNode} {cs ds : List MerkleTreeNode} {f : FileNode}
    (hheld : (mk (.commit c) cs).Held db) (hplaced : WellPlaced host [] (mk (.commit c) cs))
    (h : (p, mk (.file f) ds) ∈ (mk (.commit c) cs).subtrees []) :
    ∃ q d vnodes v, (q, mk (.directory d) vnodes) ∈ (mk (.commit c) cs).subtrees [] ∧
      v ∈ vnodes ∧ mk (.file f) ds ∈ v.children ∧ q ++ d.name = p ∧ f.name.length = 1 := by
  rcases mem_subtrees_cases h with h | ⟨q, n, us, hq, hs, hp⟩
  · cases (Prod.mk.inj h).2
  · have hplacedQ := hplaced.of_mem_subtrees hq
    cases n with
    | file g =>
        obtain rfl := held_file (hheld.of_mem_subtrees hq)
        cases hs
    | directory d =>
        rcases hplacedQ.eq_vnode hs with ⟨v, ws, hv⟩
        cases hv
    | commit c' =>
        rcases hplacedQ.eq_root with ⟨d, vnodes, rfl⟩
        cases List.mem_singleton.mp hs
    | vnode v =>
        have hentry := hplacedQ.isEntry hs
        rcases mem_subtrees_cases hq with h | ⟨r, m, vs, hr, hv, hpr⟩
        · cases (Prod.mk.inj h).2
        · have hplacedR := hplaced.of_mem_subtrees hr
          cases m with
          | file g =>
              obtain rfl := held_file (hheld.of_mem_subtrees hr)
              cases hv
          | directory d =>
              exact ⟨r, d, vs, _, hr, hv, hs, (hp.trans hpr).symm, of_decide_eq_true hentry⟩
          | vnode w =>
              have hleaf := hplacedR.isEntry hv
              cases hleaf
          | commit c' =>
              rcases hplacedR.eq_root with ⟨d, vnodes, rfl⟩
              cases List.mem_singleton.mp hv

/-- The index names the directories below a node, if it names the topmost of them. -/
theorem lookup_of_mem_subtrees (hmirror : MirrorIndex db dirHashes)
    (hheld : t.Held db) (hplaced : WellPlaced host path t)
    (hself : ∀ d, t.node = .directory d → dirHashes.lookup (path ++ d.name) = some d.hash)
    (hbelow : ∀ v, t.node = .vnode v → ∀ c ∈ t.children, ∀ d, c.node = .directory d →
      dirHashes.lookup (path ++ d.name) = some d.hash)
    (hcommit : ∀ c, t.node ≠ .commit c) {d : DirNode} {vnodes : List MerkleTreeNode}
    (h : (p, mk (.directory d) vnodes) ∈ t.subtrees path) :
    dirHashes.lookup (p ++ d.name) = some d.hash := by
  induction t generalizing path with
  | mk n cs ih =>
      rw [subtrees_mk, List.mem_cons, List.mem_flatMap] at h
      rcases h with h | ⟨c, hc, h⟩
      · obtain ⟨rfl, hnode⟩ := Prod.mk.inj h
        obtain ⟨rfl, -⟩ := mk.inj hnode
        exact hself d rfl
      · have hheldC := hheld.child c hc
        have hplacedC := hplaced.child hc
        cases n with
        | file f =>
            obtain rfl := held_file hheld
            cases hc
        | commit c' => exact absurd rfl (hcommit c')
        | vnode v =>
            have hentry := hplaced.isEntry hc
            refine ih c hc hheldC hplacedC (fun e he => hbelow v rfl c hc e he) ?_ ?_ h
            · intro w hw
              rw [isEntry.eq_def] at hentry
              obtain ⟨m, ds⟩ := c
              obtain rfl : m = .vnode w := hw
              cases hentry
            · intro c' hc'
              obtain ⟨m, ds⟩ := c
              obtain rfl : m = .commit c' := hc'
              cases hentry
        | directory e =>
            rcases hplaced.eq_vnode hc with ⟨v, ds, rfl⟩
            refine ih _ hc hheldC hplacedC (fun e he => by cases he) ?_
              (fun c' hc' => by cases hc') h
            intro w _ b hb g hg
            have hlookup := hself e rfl
            refine hmirror.child _ _ g hlookup ?_
            rw [listFilesAndFolders_of_held hheld hplaced, ← hg]
            exact List.mem_map_of_mem (List.mem_flatMap.mpr ⟨_, hc, hb⟩)

/-- The directory that the index names for the parent lists the file. -/
def ListedFile (db : NodeStore) (dirHashes : DirHashes) (path : PathBuf) (f : FileNode) : Prop :=
  ∃ hash, dirHashes.lookup path.dropLast = some hash ∧ .file f ∈ listFilesAndFolders db hash ∧
    path.dropLast ++ f.name = path

/-- The index follows the tree that the database holds below the commit. -/
structure Indexed (host : Host) (db : NodeStore) (dirHashes : DirHashes) (c : CommitNode)
    (cs : List MerkleTreeNode) : Prop where
  intro ::
  held : (mk (.commit c) cs).Held db
  placed : WellPlaced host [] (mk (.commit c) cs)
  mirror : MirrorIndex db dirHashes
  root : ∀ d vnodes, cs = [mk (.directory d) vnodes] → dirHashes.lookup [] = some d.hash

namespace Indexed

variable {c : CommitNode} {cs : List MerkleTreeNode} {hash : MerkleHash}

theorem root_name (h : Indexed host db dirHashes c cs) {d : DirNode} {vnodes : List MerkleTreeNode}
    (hcs : cs = [mk (.directory d) vnodes]) : d.name = [] := by
  have hshape := h.placed.localShape
  rw [hcs] at hshape
  exact of_decide_eq_true hshape

theorem lookup_of_directory (h : Indexed host db dirHashes c cs) {d : DirNode}
    {vnodes : List MerkleTreeNode}
    (hd : (p, mk (.directory d) vnodes) ∈ (mk (.commit c) cs).subtrees []) :
    dirHashes.lookup (p ++ d.name) = some d.hash := by
  rcases h.placed.eq_root with ⟨e, us, hcs⟩
  have hname := h.root_name hcs
  have hroot := h.root e us hcs
  rw [subtrees_mk, List.mem_cons, List.mem_flatMap] at hd
  rcases hd with hd | ⟨b, hb, hd⟩
  · cases (Prod.mk.inj hd).2
  · have hheld := h.held.child b hb
    have hplaced := h.placed.child hb
    rw [hcs] at hb
    obtain rfl := List.mem_singleton.mp hb
    refine lookup_of_mem_subtrees h.mirror hheld hplaced ?_ (fun v hv => by cases hv)
      (fun c' hc' => by cases hc') hd
    intro g hg
    obtain rfl := EMerkleTreeNode.directory.inj hg
    rw [hname]
    exact hroot

/-- What a named directory lists lies in the tree. -/
theorem exists_directory (h : Indexed host db dirHashes c cs)
    (hlookup : dirHashes.lookup p = some hash) :
    ∃ q d vnodes, (q, mk (.directory d) vnodes) ∈ (mk (.commit c) cs).subtrees [] ∧
      q ++ d.name = p ∧ d.hash = hash ∧
        ∀ n ∈ listFilesAndFolders db hash,
          ∃ ds, (p, mk n ds) ∈ (mk (.commit c) cs).subtrees [] := by
  -- the entries of a directory in the tree are those that it lists
  have hlists : ∀ q d vnodes, (q, mk (.directory d) vnodes) ∈ (mk (.commit c) cs).subtrees [] →
      ∀ n ∈ listFilesAndFolders db d.hash,
        ∃ ds, (q ++ d.name, mk n ds) ∈ (mk (.commit c) cs).subtrees [] := by
    intro q d vnodes hd n hn
    rw [listFilesAndFolders_of_held (h.held.of_mem_subtrees hd) (h.placed.of_mem_subtrees hd)] at hn
    rcases List.mem_map.mp hn with ⟨⟨m, ds⟩, hm, rfl⟩
    rcases List.mem_flatMap.mp hm with ⟨v, hv, hm⟩
    rcases (h.placed.of_mem_subtrees hd).eq_vnode hv with ⟨w, us, rfl⟩
    exact ⟨ds, child_mem_subtrees (child_mem_subtrees hd hv) hm⟩
  induction p using List.reverseRecOn generalizing hash with
  | nil =>
      rcases h.placed.eq_root with ⟨d, vnodes, hcs⟩
      have hname := h.root_name hcs
      have hmem : ([], mk (.directory d) vnodes) ∈ (mk (.commit c) cs).subtrees [] := by
        refine child_mem_subtrees (self_mem_subtrees [] _) ?_
        rw [hcs]
        exact List.mem_singleton.mpr rfl
      obtain rfl := Option.some.inj ((h.root d vnodes hcs).symm.trans hlookup)
      refine ⟨[], d, vnodes, hmem, hname, rfl, ?_⟩
      have hroot := hlists [] d vnodes hmem
      rwa [hname] at hroot
  | append_singleton directory name ih =>
      rcases h.mirror.parent _ _ (by simp) hlookup with ⟨above, d, habove, hd, hpath⟩
      rw [List.dropLast_concat] at habove hpath
      rcases ih habove with ⟨q, e, us, he, hq, hhash, hentries⟩
      rcases hentries _ hd with ⟨vnodes, hmem⟩
      have hchild := h.mirror.child directory above d habove hd
      rw [hpath] at hchild
      obtain rfl := Option.some.inj (hchild.symm.trans hlookup)
      refine ⟨directory, d, vnodes, hmem, hpath, rfl, ?_⟩
      have hbelow := hlists directory d vnodes hmem
      rwa [hpath] at hbelow

/-- The index names exactly the directories of the tree. -/
theorem lookup_iff (h : Indexed host db dirHashes c cs) :
    dirHashes.lookup p = some hash ↔
      ∃ d, (p, .directory d) ∈ (mk (.commit c) cs).entries [] ∧ d.hash = hash := by
  constructor
  · intro hlookup
    rcases h.exists_directory hlookup with ⟨q, d, vnodes, hd, hq, hhash, -⟩
    exact ⟨d, mem_directories_iff.mpr ⟨q, vnodes, hd, hq⟩, hhash⟩
  · rintro ⟨d, hd, rfl⟩
    rcases mem_directories_iff.mp hd with ⟨q, vnodes, hmem, rfl⟩
    exact h.lookup_of_directory hmem

/-- The files of the tree are those that the named directories list. -/
theorem treeFile_iff (h : Indexed host db dirHashes c cs) {f : FileNode} :
    TreeFile db c p f ↔ ListedFile db dirHashes p f := by
  rw [CommitWriter.treeFile_iff h.held, mem_files_iff, ListedFile]
  constructor
  · rintro ⟨q, ds, hf, rfl⟩
    rcases exists_directory_of_file h.held h.placed hf with
      ⟨r, d, vnodes, v, hd, hv, hmem, rfl, hlength⟩
    rcases List.length_eq_one_iff.mp hlength with ⟨name, hname⟩
    rw [hname, List.dropLast_concat]
    refine ⟨d.hash, h.lookup_of_directory hd, ?_, rfl⟩
    rw [listFilesAndFolders_of_held (h.held.of_mem_subtrees hd) (h.placed.of_mem_subtrees hd)]
    exact List.mem_map.mpr ⟨_, List.mem_flatMap.mpr ⟨v, hv, hmem⟩, rfl⟩
  · rintro ⟨hash, hlookup, hf, hpath⟩
    rcases h.exists_directory hlookup with ⟨-, -, -, -, -, -, hentries⟩
    rcases hentries _ hf with ⟨ds, hmem⟩
    exact ⟨p.dropLast, ds, hmem, hpath.symm⟩

end Indexed

end Tree

/-! ## Staged entries over files -/

/-- The files that are left when the staged entries are put over the files of a tree: those
that are staged, and the others unless something above them is removed. -/
def Overlay (commitId : MerkleHash) (dirEntries : DirEntries) (base : PathBuf → FileNode → Prop)
    (path : PathBuf) (f : FileNode) : Prop :=
  (∃ entry g, Staged dirEntries path entry ∧ entry.status ≠ .removed ∧ entry.node = .file g ∧
    f = writtenFile commitId entry.status g) ∨
  ((∀ entry, ¬ Staged dirEntries path entry) ∧ Kept dirEntries path ∧ base path f)

section Step

variable {env : CommitEnv} {s : Repository} {head : Option CommitNode} {dirHashes : DirHashes}
  {dirEntries : DirEntries} {node : CommitNode} {index : DirHashes} {db' : NodeStore}
  {path : PathBuf} {f : FileNode}

/-- A stored file is written as it is. -/
theorem writtenFile_stored (commitId : MerkleHash) (directory : PathBuf)
    (hlength : f.name.length = 1) :
    writtenFile commitId .unmodified { f with name := directory ++ f.name } = f := by
  rcases List.length_eq_one_iff.mp hlength with ⟨name, hname⟩
  rw [writtenFile, hname, leafName_append_singleton, ← hname, if_pos rfl]

theorem kept_of_parent (hnone : ∀ entry, ¬ Staged dirEntries path entry)
    (hkept : Kept dirEntries path.dropLast) : Kept dirEntries path := by
  intro above habove entry hstaged
  by_cases heq : above = path
  · rw [heq] at hstaged
    exact absurd hstaged (hnone entry)
  · refine hkept above ?_ entry hstaged
    rcases List.eq_nil_or_concat path with rfl | ⟨directory, name, rfl⟩
    · exact absurd (List.prefix_nil.mp habove) heq
    · rw [List.concat_eq_append] at habove heq ⊢
      rw [List.dropLast_concat]
      exact (List.prefix_concat_iff.mp habove).resolve_left heq

theorem GoodDir.length_of_mem {host : Host} {db : NodeStore} {hash : MerkleHash}
    (hgood : GoodDir host db path hash) (hf : .file f ∈ listFilesAndFolders db hash) :
    f.name.length = 1 := by
  rcases hgood.exists_entry hf with ⟨-, -, ⟨n, cs⟩, -, -, -, rfl, hentry, -⟩
  exact of_decide_eq_true hentry

/-- A stored file is listed as it is written. -/
theorem listedFile_of_stored {host : Host} {db : NodeStore} (hindex : GoodIndex host db dirHashes)
    (commitId : MerkleHash) {entry : StagedMerkleTreeNode}
    (hstored : (storedChildren db dirHashes path.dropLast).lookup path = some entry)
    (hpath : entry.path = path) {g : FileNode} (hnode : entry.node = .file g) :
    ListedFile db dirHashes path (writtenFile commitId entry.status g) := by
  rcases storedChild_origin hstored with ⟨hash, hlookup, n, hn, hentry⟩
  cases n with
  | file f =>
      obtain rfl := Option.some.inj hentry
      obtain rfl := EMerkleTreeNode.file.inj hnode
      rw [writtenFile_stored commitId _ ((hindex _ _ hlookup).length_of_mem hn)]
      exact ⟨hash, hlookup, hn, hpath⟩
  | directory d =>
      obtain rfl := Option.some.inj hentry
      cases hnode
  | vnode v => cases hentry
  | commit c => cases hentry

variable (h : WholeStaging dirHashes dirEntries) (hindex : GoodIndex env.toHost s.db dirHashes)
  (hmirror : MirrorIndex s.db dirHashes)
  (hafter : IndexAfter env s head dirHashes dirEntries node index)
  (hext : s.db.Extends db')
  (hnew : HasRecords db' (commitPlan env s head dirHashes dirEntries node).records)
include h hindex hmirror hafter hext hnew

theorem overlay_of_listedFile (hf : ListedFile db' index path f) :
    Overlay node.hash dirEntries (ListedFile s.db dirHashes) path f := by
  rcases hf with ⟨hash, hlookup, hf, hpath⟩
  by_cases hmem : path.dropLast ∈ dirEntries
  · have hkept := hafter.kept h hmirror hlookup hmem
    obtain rfl := Option.some.inj ((hafter.written _ hmem hkept).symm.trans hlookup)
    rcases Option.isSome_iff_exists.mp (AList.lookup_isSome.mpr hmem) with ⟨newChildren, hdir⟩
    rcases (h.mem_listFilesAndFolders hindex hmem hkept hext hnew hdir).mp hf with
      ⟨below, entry, hchild, hwritten⟩
    have hok := childOk_dirChildren hindex h.placed hdir hchild
    cases hnode : entry.node with
    | vnode v => simp [writtenNode, hnode] at hwritten
    | commit c => simp [writtenNode, hnode] at hwritten
    | directory d =>
        simp only [writtenNode, hnode] at hwritten
        split at hwritten
        · cases hwritten
        · split at hwritten
          · cases hwritten
          · cases hwritten
    | file g =>
        simp only [writtenNode, hnode, Option.some.injEq, EMerkleTreeNode.file.injEq] at hwritten
        subst hwritten
        have hname : g.name = below := by
          rw [← hok.path_eq, StagedMerkleTreeNode.path, hnode]
          rfl
        obtain rfl : below = path := by
          rw [← hpath, ← hok.parent, writtenFile, hname]
          exact (dropLast_append_leafName below).symm
        rcases (h.lookup_dirChildren hdir).mp hchild with ⟨hstaged, hstatus⟩ | ⟨hnone, hstored⟩
        · exact .inl ⟨entry, g, hstaged, hstatus, hnode, rfl⟩
        · refine .inr ⟨hnone, ?_, listedFile_of_stored hindex node.hash hstored hok.path_eq hnode⟩
          exact kept_of_parent hnone hkept
  · -- the directory is taken over as it is
    have hold := hafter.lookup_other hlookup hmem
    have hnone := not_staged_of_parent_not_mem hmem
    have hne : path.dropLast ≠ [] := by
      intro hnil
      rw [hnil] at hmem
      exact hmem h.root
    have hkept : Kept dirEntries path.dropLast :=
      Known.kept h hmirror (.inr (AList.lookup_isSome.mp (by rw [hold]; rfl)))
        fun entry hstaged => absurd hstaged (hafter.not_staged h hlookup hmem entry)
    refine .inr ⟨hnone, kept_of_parent hnone hkept, hash, hold, ?_, hpath⟩
    rwa [listFilesAndFolders_mono hext (hindex _ _ hold)] at hf

theorem listedFile_of_overlay
    (hf : Overlay node.hash dirEntries (ListedFile s.db dirHashes) path f) :
    ListedFile db' index path f := by
  rcases hf with ⟨entry, g, hstaged, hstatus, hnode, rfl⟩ | ⟨hnone, hkept, hash, hlookup, hf, hpath⟩
  · rcases hstaged.2.2 with ⟨newChildren, hdir, -⟩
    have hmem : path.dropLast ∈ dirEntries := AList.lookup_isSome.mp (by rw [hdir]; rfl)
    have hkept : Kept dirEntries path.dropLast := by
      by_cases hnil : path.dropLast = []
      · rw [hnil]
        exact kept_nil
      · refine Known.kept h hmirror (h.known_of_mem hmem hnil) fun above habove hremoved => ?_
        rcases h.removed _ above habove hremoved path hstaged.1 rfl (.inl ⟨entry, hstaged⟩) with
          ⟨entry', hentry', hremoved'⟩
        rw [h.unique path entry' entry hentry' hstaged] at hremoved'
        exact hstatus hremoved'
    have hname : g.name = path := by
      rw [← hstaged.2.1, StagedMerkleTreeNode.path, hnode]
      rfl
    refine ⟨_, hafter.written _ hmem hkept,
      (h.mem_listFilesAndFolders hindex hmem hkept hext hnew hdir).mpr
        ⟨path, entry, (h.lookup_dirChildren hdir).mpr (.inl ⟨hstaged, hstatus⟩), ?_⟩, ?_⟩
    · simp only [writtenNode, hnode]
    · rw [writtenFile, hname]
      exact dropLast_append_leafName path
  · by_cases hmem : path.dropLast ∈ dirEntries
    · rcases Option.isSome_iff_exists.mp (AList.lookup_isSome.mpr hmem) with ⟨newChildren, hdir⟩
      let entry : StagedMerkleTreeNode :=
        ⟨.unmodified, .file { f with name := path.dropLast ++ f.name }⟩
      have hstored : (storedChildren s.db dirHashes path.dropLast).lookup path = some entry :=
        (lookup_storedChildren (hindex _ _ hlookup) hlookup).mpr ⟨.file f, hf, rfl, hpath⟩
      have hwritten : writtenNode env s head dirHashes dirEntries node entry = some (.file f) := by
        simp only [writtenNode, entry]
        rw [writtenFile_stored node.hash _ ((hindex _ _ hlookup).length_of_mem hf)]
      exact ⟨_, hafter.written _ hmem hkept.dropLast,
        (h.mem_listFilesAndFolders hindex hmem hkept.dropLast hext hnew hdir).mpr
          ⟨path, entry, (h.lookup_dirChildren hdir).mpr (.inr ⟨hnone, hstored⟩), hwritten⟩, hpath⟩
    · refine ⟨hash, ?_, ?_, hpath⟩
      · rw [hafter.other _ hmem fun entry d hstaged hstatus =>
          absurd hstatus (hkept.dropLast.live hstaged), hlookup]
      · rwa [listFilesAndFolders_mono hext (hindex _ _ hlookup)]

end Step

/-! ## What one call touches -/

/-- The operation opens no other commit and touches no index but that of the commit. -/
def OfCommit (node : CommitNode) : RepoOp → Prop
  | .openReadWrite n _ => ∀ c, n = .commit c → c = node
  | .putDirHash commitId _ _ => commitId = node.hash
  | .deleteDirHash commitId _ => commitId = node.hash
  | _ => True

section Touched

variable {env : CommitEnv} {s : Repository} {head onto : Option CommitNode} {dirHashes : DirHashes}
  {dirEntries : DirEntries} {node : CommitNode} {ops : List RepoOp}

theorem ofCommit_rCreateDirNode {host : Host} {db : NodeStore} {entries : VNodeEntries}
    {oldDir : PathBuf → Option DirNode} {oldFile : PathBuf → Option FileNode} {fuel : ℕ}
    {path : PathBuf} {dirDb : MerkleHash} {op : RepoOp}
    (hop : op ∈ rCreateDirNode host db node.hash entries oldDir oldFile fuel path dirDb) :
    OfCommit node op := by
  induction fuel generalizing path dirDb with
  | zero => cases hop
  | succ fuel ih =>
      rw [rCreateDirNode] at hop
      cases hdir : entries.lookup path with
      | none =>
          rw [hdir] at hop
          cases hop
      | some written =>
          obtain ⟨vnodes, removed⟩ := written
          rw [hdir] at hop
          simp only [List.mem_flatMap, List.mem_cons] at hop
          rcases hop with ⟨v, -, rfl | rfl | ⟨entry, -, hop⟩⟩
          · trivial
          · exact fun c hc => by cases hc
          · cases hnode : entry.node with
            | file f =>
                simp only [hnode, List.mem_singleton] at hop
                subst hop
                trivial
            | vnode w => simp [hnode] at hop
            | commit c => simp [hnode] at hop
            | directory d =>
                simp only [hnode] at hop
                split at hop
                · rcases List.mem_append.mp hop with hop | hop
                  · rcases List.mem_cons.mp hop with rfl | hop
                    · trivial
                    rcases List.mem_cons.mp hop with rfl | hop
                    · exact fun c hc => by cases hc
                    · exact ih hop
                  · obtain rfl := List.mem_singleton.mp hop
                    rfl
                · split at hop
                  · rcases List.mem_pair.mp hop with rfl | rfl
                    · trivial
                    · rfl
                  · cases hop

theorem ofCommit_cacheInvalidateDirHashDb {removed : List StagedMerkleTreeNode} {op : RepoOp}
    (hop : op ∈ cacheInvalidateDirHashDb node.hash removed) : OfCommit node op := by
  rcases List.mem_filterMap.mp hop with ⟨child, -, hop⟩
  split at hop
  · obtain rfl := Option.some.inj hop
    rfl
  · cases hop

theorem ofCommit_writeTree {parentId : Option MerkleHash} {op : RepoOp}
    (hop : op ∈ writeTree env s head dirHashes dirEntries node parentId) : OfCommit node op := by
  rcases List.mem_append.mp hop with hop | hop
  · rcases List.mem_append.mp hop with hop | hop
    · rcases List.mem_map.mp hop with ⟨pair, -, rfl⟩
      rfl
    · obtain rfl := List.mem_singleton.mp hop
      exact fun c hc => (EMerkleTreeNode.commit.inj hc).symm
  · rcases List.mem_append.mp hop with hop | hop
    · rcases List.mem_cons.mp hop with rfl | hop
      · trivial
      rcases List.mem_cons.mp hop with rfl | hop
      · rfl
      rcases List.mem_cons.mp hop with rfl | hop
      · exact fun c hc => by cases hc
      · exact ofCommit_rCreateDirNode hop
    · exact ofCommit_cacheInvalidateDirHashDb hop

theorem ofCommit_of_idle (h : Idle ops) {op : RepoOp} (hop : op ∈ ops) : OfCommit node op := by
  cases op with
  | openReadWrite n parentId => cases (h _ hop).1
  | putDirHash id path hash =>
      have heffect := (h _ hop).2 id path
      rw [effect?_putDirHash_self] at heffect
      cases heffect
  | deleteDirHash id path =>
      have heffect := (h _ hop).2 id path
      rw [effect?_deleteDirHash_self] at heffect
      cases heffect
  | _ => trivial

theorem ofCommit_ops {before after : List RepoOp} {parentId : Option MerkleHash}
    (hbefore : Idle before)
    (hafter : after = [] ∨ after = cacheInvalidateDirHashDb node.hash (allStaged dirEntries)) :
    ∀ op ∈ before ++ writeTree env s head dirHashes dirEntries node parentId ++ after,
      OfCommit node op := by
  intro op hop
  rcases List.mem_append.mp hop with hop | hop
  · rcases List.mem_append.mp hop with hop | hop
    · exact ofCommit_of_idle hbefore hop
    · exact ofCommit_writeTree hop
  · rcases hafter with rfl | rfl
    · cases hop
    · exact ofCommit_cacheInvalidateDirHashDb hop

/-- The indexes of other commits stay. -/
theorem dirHashes_run_of_ofCommit (h : ∀ op ∈ ops, OfCommit node op) {commitId : MerkleHash}
    (hne : commitId ≠ node.hash) : (s.run ops).dirHashes commitId = s.dirHashes commitId := by
  induction ops generalizing s with
  | nil => rfl
  | cons op ops ih =>
      refine (ih fun o ho => h o (List.mem_cons_of_mem op ho)).trans ?_
      have hop := h op List.mem_cons_self
      cases op with
      | putDirHash id path hash =>
          obtain rfl : id = node.hash := hop
          exact Function.update_of_ne hne _ _
      | deleteDirHash id path =>
          obtain rfl : id = node.hash := hop
          exact Function.update_of_ne hne _ _
      | _ => rfl

/-- No other commit comes into the database. -/
theorem commit_of_run (h : ∀ op ∈ ops, OfCommit node op) {hash : MerkleHash}
    {record : NodeDb} {c : CommitNode} (hrecord : (s.run ops).db hash = some record)
    (hc : record.node = .commit c) :
    c = node ∨ ∃ old, s.db hash = some old ∧ old.node = .commit c := by
  induction ops generalizing s with
  | nil => exact .inr ⟨record, hrecord, hc⟩
  | cons op ops ih =>
      rcases ih (fun o ho => h o (List.mem_cons_of_mem op ho)) hrecord with rfl | ⟨old, hold, hnode⟩
      · exact .inl rfl
      · have hop := h op List.mem_cons_self
        cases op with
        | openReadWrite n parentId =>
            simp only [RepoOp.apply, NodeStore.write] at hold
            by_cases hhash : hash = n.hash
            · subst hhash
              rw [Function.update_self] at hold
              obtain rfl := Option.some.inj hold
              exact .inl (hop c hnode)
            · rw [Function.update_of_ne hhash] at hold
              exact .inr ⟨old, hold, hnode⟩
        | addChild id child =>
            simp only [RepoOp.apply] at hold
            by_cases hhash : hash = id
            · subst hhash
              rw [Function.update_self] at hold
              rcases Option.map_eq_some_iff.mp hold with ⟨older, holder, rfl⟩
              exact .inr ⟨older, holder, hnode⟩
            · rw [Function.update_of_ne hhash] at hold
              exact .inr ⟨old, hold, hnode⟩
        | _ => exact .inr ⟨old, hold, hnode⟩

theorem exists_of_getByHash {db : NodeStore} {hash : MerkleHash} {c : CommitNode}
    (h : Commits.getByHash db hash = some c) :
    ∃ record, db hash = some record ∧ record.node = .commit c := by
  rw [Commits.getByHash] at h
  split at h
  · rename_i commit parentId children hrecord
    obtain rfl := Option.some.inj h
    exact ⟨_, hrecord, rfl⟩
  · cases h

theorem exists_of_getById {db : NodeStore} {commitId : String} {c : CommitNode}
    (h : Commits.getById db commitId = some c) :
    ∃ hash record, db hash = some record ∧ record.node = .commit c := by
  rcases Option.bind_eq_some_iff.mp h with ⟨hash, -, hget⟩
  exact ⟨hash, exists_of_getByHash hget⟩

/-- A commit that is built upon is stored. -/
theorem exists_of_base {call : CommitCall} {c : CommitNode} (h : call.base s = .ok (some c)) :
    ∃ hash record, s.db hash = some record ∧ record.node = .commit c := by
  have hhead : ∀ c, Commits.headCommitMaybe s.db s.refs = .ok (some c) →
      ∃ hash record, s.db hash = some record ∧ record.node = .commit c := by
    intro c h
    rw [Commits.headCommitMaybe] at h
    split at h
    · cases h
    · split at h
      · cases h
      · rename_i hash _
        exact ⟨hash, exists_of_getByHash (Except.ok.inj h)⟩
  have htarget : ∀ target, targetCommit s target = .ok (some c) →
      ∃ hash record, s.db hash = some record ∧ record.node = .commit c := by
    intro target h
    rw [targetCommit] at h
    split at h
    · rw [Revisions.get] at h
      split at h
      · rw [Commits.headCommit] at h
        split at h
        · cases h
        · split at h
          · cases h
          · split at h
            · cases h
            · rename_i hash _ _ commit hget
              obtain rfl := Option.some.inj (Except.ok.inj h)
              exact ⟨hash, exists_of_getByHash hget⟩
      · exact exists_of_getById (Except.ok.inj h)
    · cases h
  cases call with
  | new => exact hhead c h
  | withParents parentCommits target => exact htarget target h
  | onto targetBranch => exact htarget targetBranch h

end Touched

/-! ## Runs of commits -/

/-- A repository in which every commit was made by the writer from staged entries that make
a tree, has an id of its own and writes no node over a different one. Refs, staged entries and
the files of a merge change in any way between two commits. -/
inductive StagedRun (host : Host) : List CommitNode → Repository → Prop where
  | start (s : Repository) (hdb : s.db = fun _ => none) (hindex : s.dirHashes = fun _ => ∅) :
      StagedRun host [] s
  | other {commits : List CommitNode} {s s' : Repository} (hrun : StagedRun host commits s)
      (hdb : s'.db = s.db) (hindex : s'.dirHashes = s.dirHashes) : StagedRun host commits s'
  | commit {commits : List CommitNode} {s : Repository} {dirEntries : DirEntries}
      {node : CommitNode} {head onto : Option CommitNode} (hrun : StagedRun host commits s)
      (env : CommitEnv) (henv : env.toHost = host) (call : CommitCall)
      (hstaged : WholeStaging (indexOf s onto) dirEntries)
      (hok : (call.plan env s dirEntries).result = .ok node)
      (hhead : Commits.headCommitMaybe s.db s.refs = .ok head) (honto : call.base s = .ok onto)
      (hid : ∀ c ∈ commits, c.hash ≠ node.hash)
      (hdistinct : DistinctIds env s head (indexOf s onto) dirEntries node) :
      StagedRun host (node :: commits) (s.run (call.plan env s dirEntries).ops)

theorem StagedRun.writerRun {host : Host} {commits : List CommitNode} {s : Repository}
    (h : StagedRun host commits s) : WriterRun host commits s := by
  induction h with
  | start s hdb hindex => exact .start s hdb hindex
  | other _ hdb hindex ih => exact ih.other hdb hindex
  | commit _ env henv call hstaged hok hhead honto _ hdistinct ih =>
      exact ih.commit env henv call hstaged.placed hok hhead honto hdistinct

/-- Every commit of the database is one of the commits, and its index follows its tree. -/
structure Mirrored (host : Host) (commits : List CommitNode) (s : Repository) : Prop where
  made : ∀ hash record c, s.db hash = some record → record.node = .commit c → c ∈ commits
  fresh : ∀ commitId, (∀ c ∈ commits, c.hash ≠ commitId) → s.dirHashes commitId = ∅
  indexed : ∀ c ∈ commits, ∃ cs, Indexed host s.db (s.dirHashes c.hash) c cs

section Run

variable {host : Host} {commits : List CommitNode} {env : CommitEnv} {s : Repository}
  {head onto : Option CommitNode} {dirEntries : DirEntries} {node : CommitNode}

theorem Mirrored.mirrorIndex (h : Mirrored host commits s) {call : CommitCall}
    (honto : call.base s = .ok onto) : MirrorIndex s.db (indexOf s onto) := by
  cases onto with
  | none => exact mirrorIndex_empty s.db
  | some c =>
      rcases exists_of_base honto with ⟨hash, record, hrecord, hnode⟩
      rcases h.indexed c (h.made hash record c hrecord hnode) with ⟨cs, hindexed⟩
      exact hindexed.mirror

/-- What one call leaves. -/
structure Leaves (env : CommitEnv) (s s' : Repository) (head : Option CommitNode)
    (dirHashes : DirHashes) (dirEntries : DirEntries) (node : CommitNode) : Prop where
  records : HasRecords s'.db (commitPlan env s head dirHashes dirEntries node).records
  extends_ : s.db.Extends s'.db
  index : IndexAfter env s head dirHashes dirEntries node (s'.dirHashes node.hash)
  others : ∀ commitId, commitId ≠ node.hash → s'.dirHashes commitId = s.dirHashes commitId
  made : ∀ hash record c, s'.db hash = some record → record.node = .commit c →
    c = node ∨ ∃ old, s.db hash = some old ∧ old.node = .commit c

theorem leaves_of_call (call : CommitCall) (hok : (call.plan env s dirEntries).result = .ok node)
    (hhead : Commits.headCommitMaybe s.db s.refs = .ok head) (honto : call.base s = .ok onto)
    (hstaged : WholeStaging (indexOf s onto) dirEntries)
    (hindex : GoodIndex env.toHost s.db (indexOf s onto))
    (hmirror : MirrorIndex s.db (indexOf s onto)) (hfresh : s.dirHashes node.hash = ∅)
    (hdistinct : DistinctIds env s head (indexOf s onto) dirEntries node) :
    Leaves env s (s.run (call.plan env s dirEntries).ops) head (indexOf s onto) dirEntries
      node := by
  rcases call.exists_ops hok hhead honto with ⟨before, parentId, after, hbefore, hafter, hops⟩
  rcases call.writesTree hok with ⟨head', onto', hhead', honto', hplan⟩
  obtain rfl := Except.ok.inj (hhead.symm.trans hhead')
  obtain rfl := Except.ok.inj (honto.symm.trans honto')
  rcases hplan.records hdistinct with ⟨hnew, hext⟩
  have hof := @ofCommit_ops env s head (indexOf s onto) dirEntries node before after parentId
    hbefore hafter
  rw [← hops] at hof
  refine ⟨hnew, hext, ?_, fun commitId hne => dirHashes_run_of_ofCommit hof hne,
    fun hash record c hrecord hc => commit_of_run hof hrecord hc⟩
  rw [hops]
  exact indexAfter_writeTree hstaged hindex hmirror hbefore hafter hfresh

/-- The index of the new commit follows the tree that was planned for it. -/
theorem Leaves.indexed {s' : Repository} {dirHashes : DirHashes}
    (h : Leaves env s s' head dirHashes dirEntries node)
    (hstaged : WholeStaging dirHashes dirEntries)
    (hindex : GoodIndex env.toHost s.db dirHashes) (hmirror : MirrorIndex s.db dirHashes) :
    ∃ cs, Indexed env.toHost s'.db (s'.dirHashes node.hash) node cs := by
  rcases @commitPlan_good env s head dirHashes dirEntries node hindex hstaged.placed with
    ⟨hsound, hplaced, -⟩
  have hheld := hsound.held h.extends_ h.records
  rw [commitPlan, plannedTree_write, List.map_singleton, rootPlan, plannedTree_write]
    at hheld hplaced
  refine ⟨_, hheld, hplaced,
    h.index.mirror hstaged hindex hmirror h.extends_ h.records, fun d vnodes hcs => ?_⟩
  obtain ⟨hnode, -⟩ := mk.inj (List.singleton_inj.mp hcs)
  obtain rfl := EMerkleTreeNode.directory.inj hnode
  exact h.index.written [] hstaged.root kept_nil

/-- The new commit has the files that the index it builds upon lists, with the staged entries
put over them. -/
theorem Leaves.treeFile_iff {s' : Repository} {dirHashes : DirHashes}
    (h : Leaves env s s' head dirHashes dirEntries node)
    (hstaged : WholeStaging dirHashes dirEntries)
    (hindex : GoodIndex env.toHost s.db dirHashes) (hmirror : MirrorIndex s.db dirHashes)
    {path : PathBuf} {f : FileNode} :
    TreeFile s'.db node path f ↔
      Overlay node.hash dirEntries (ListedFile s.db dirHashes) path f := by
  rcases h.indexed hstaged hindex hmirror with ⟨cs, hindexed⟩
  rw [hindexed.treeFile_iff]
  constructor
  · exact overlay_of_listedFile hstaged hindex hmirror h.index h.extends_ h.records
  · exact listedFile_of_overlay hstaged hindex hmirror h.index h.extends_ h.records

theorem Indexed.mono {db db' : NodeStore} {dirHashes : DirHashes} {c : CommitNode}
    {cs : List MerkleTreeNode} (h : Indexed host db dirHashes c cs) (hext : db.Extends db')
    (hindex : GoodIndex host db dirHashes) : Indexed host db' dirHashes c cs :=
  ⟨h.held.mono hext, h.placed, h.mirror.mono hext hindex, h.root⟩

theorem StagedRun.mirrored (hrun : StagedRun host commits s) : Mirrored host commits s := by
  induction hrun with
  | start s hdb hindex =>
      refine ⟨fun hash record c hrecord => ?_, fun commitId _ => ?_, fun c hc => by cases hc⟩
      · rw [hdb] at hrecord
        cases hrecord
      · rw [hindex]
  | other _ hdb hindex ih =>
      refine ⟨?_, ?_, ?_⟩
      · rw [hdb]
        exact ih.made
      · rw [hindex]
        exact ih.fresh
      · rw [hdb, hindex]
        exact ih.indexed
  | @commit commits s dirEntries node head onto hrun env henv call hstaged hok hhead honto hid
      hdistinct ih =>
      subst henv
      have hwritten := hrun.writerRun.written
      have hindex := goodIndex_indexOf hwritten.index onto
      have hmirror := ih.mirrorIndex honto
      have hleaves := leaves_of_call call hok hhead honto hstaged hindex hmirror
        (ih.fresh node.hash hid) hdistinct
      refine ⟨fun hash record c hrecord hnode => ?_, fun commitId hother => ?_, fun c hc => ?_⟩
      · rcases hleaves.made hash record c hrecord hnode with rfl | ⟨old, hold, hc⟩
        · exact List.mem_cons_self
        · exact List.mem_cons_of_mem node (ih.made hash old c hold hc)
      · rw [hleaves.others commitId (hother node List.mem_cons_self).symm]
        exact ih.fresh commitId fun c hc => hother c (List.mem_cons_of_mem node hc)
      · rcases List.mem_cons.mp hc with rfl | hc
        · exact hleaves.indexed hstaged hindex hmirror
        · rcases ih.indexed c hc with ⟨cs, hindexed⟩
          rw [hleaves.others c.hash (hid c hc)]
          exact ⟨cs, hindexed.mono hleaves.extends_ (hwritten.index c.hash)⟩

/-- In every run of commits the index of each commit names exactly the directories of the
commit's tree, each once and with its hash. -/
theorem StagedRun.index_mirrors_tree (hrun : StagedRun host commits s) {c : CommitNode}
    (hc : c ∈ commits) :
    ∃ cs, (mk (.commit c) cs).Held s.db ∧ UniquePaths [] (mk (.commit c) cs) ∧
      ∀ path hash, (s.dirHashes c.hash).lookup path = some hash ↔
        ∃ d, (path, .directory d) ∈ (mk (.commit c) cs).entries [] ∧ d.hash = hash := by
  rcases hrun.mirrored.indexed c hc with ⟨cs, h⟩
  exact ⟨cs, h.held, h.placed.uniquePaths h.held, fun path hash => h.lookup_iff⟩

theorem listedFile_indexOf_iff (hrun : StagedRun host commits s) {call : CommitCall}
    (honto : call.base s = .ok onto) {path : PathBuf} {f : FileNode} :
    ListedFile s.db (indexOf s onto) path f ↔ ∃ c, onto = some c ∧ TreeFile s.db c path f := by
  cases onto with
  | none =>
      constructor
      · rintro ⟨hash, hlookup, -⟩
        cases hlookup
      · rintro ⟨c, hc, -⟩
        cases hc
  | some c =>
      rcases exists_of_base honto with ⟨hash, record, hrecord, hnode⟩
      have hmirrored := hrun.mirrored
      rcases hmirrored.indexed c (hmirrored.made hash record c hrecord hnode) with ⟨cs, h⟩
      constructor
      · exact fun hf => ⟨c, rfl, h.treeFile_iff.mpr hf⟩
      · rintro ⟨c', hc', hf⟩
        obtain rfl := Option.some.inj hc'
        exact h.treeFile_iff.mp hf

/-- The file that a commit has is the one that the commit has which it names as its last. -/
theorem StagedRun.last_commit_has_file (hrun : StagedRun host commits s) {c : CommitNode}
    (hc : c ∈ commits) {path : PathBuf} {f : FileNode} (hf : TreeFile s.db c path f) :
    ∃ c' ∈ commits, c'.hash = f.lastCommitId ∧ TreeFile s.db c' path f := by
  induction hrun generalizing c with
  | start s hdb hindex => cases hc
  | other _ hdb hindex ih =>
      rw [hdb] at hf ⊢
      exact ih hc hf
  | @commit commits s dirEntries node head onto hrun env henv call hstaged hok hhead honto hid
      hdistinct ih =>
      subst henv
      have hmirrored := hrun.mirrored
      have hwritten := hrun.writerRun.written
      have hindex := goodIndex_indexOf hwritten.index onto
      have hmirror := hmirrored.mirrorIndex honto
      have hleaves := leaves_of_call call hok hhead honto hstaged hindex hmirror
        (hmirrored.fresh node.hash hid) hdistinct
      -- what an earlier commit had, it has still
      have hearlier : ∀ c₀ ∈ commits, TreeFile s.db c₀ path f → ∃ c' ∈ node :: commits,
          c'.hash = f.lastCommitId ∧
            TreeFile (s.run (call.plan env s dirEntries).ops).db c' path f := by
        intro c₀ hc₀ hfile
        rcases ih hc₀ hfile with ⟨c', hc', hhash, cs, hheld, hmem⟩
        exact ⟨c', List.mem_cons_of_mem node hc', hhash, cs, hheld.mono hleaves.extends_, hmem⟩
      rcases List.mem_cons.mp hc with rfl | hc
      · rcases (hleaves.treeFile_iff hstaged hindex hmirror).mp hf with
          ⟨entry, g, hentry, -, hnode, hwritten⟩ | ⟨-, -, hlisted⟩
        · refine ⟨c, List.mem_cons_self, ?_, hf⟩
          rw [hwritten, writtenFile, if_neg (hstaged.changed path entry g hentry hnode)]
        · rcases (listedFile_indexOf_iff hrun honto).mp hlisted with ⟨base, rfl, hbase⟩
          rcases exists_of_base honto with ⟨hash, record, hrecord, hnode⟩
          exact hearlier base (hmirrored.made hash record base hrecord hnode) hbase
      · rcases hwritten.trees c hc with ⟨cs, hheld, -⟩
        rw [treeFile_iff (hheld.mono hleaves.extends_), ← treeFile_iff hheld] at hf
        exact hearlier c hc hf

/-- A commit has exactly the files of the commit that it builds upon, with the staged entries
put over them. -/
theorem StagedRun.commit_overlays (hrun : StagedRun env.toHost commits s) (call : CommitCall)
    (hstaged : WholeStaging (indexOf s onto) dirEntries)
    (hok : (call.plan env s dirEntries).result = .ok node)
    (hhead : Commits.headCommitMaybe s.db s.refs = .ok head) (honto : call.base s = .ok onto)
    (hid : ∀ c ∈ commits, c.hash ≠ node.hash)
    (hdistinct : DistinctIds env s head (indexOf s onto) dirEntries node) (path : PathBuf)
    (f : FileNode) :
    TreeFile (s.run (call.plan env s dirEntries).ops).db node path f ↔
      Overlay node.hash dirEntries (fun p g => ∃ c, onto = some c ∧ TreeFile s.db c p g) path
        f := by
  have hmirrored := hrun.mirrored
  have hindex := goodIndex_indexOf hrun.writerRun.written.index onto
  have hmirror := hmirrored.mirrorIndex honto
  have hleaves := leaves_of_call call hok hhead honto hstaged hindex hmirror
    (hmirrored.fresh node.hash hid) hdistinct
  have hbase : (fun p g => ∃ c, onto = some c ∧ TreeFile s.db c p g) =
      ListedFile s.db (indexOf s onto) := by
    funext p g
    exact propext (listedFile_indexOf_iff hrun honto).symm
  rw [hleaves.treeFile_iff hstaged hindex hmirror, hbase]

end Run

/-! ## Two commits that add a file to one directory -/

namespace OverlayExample

open LookupExample

/-- A directory and a new file in it. -/
def added (status : StagedEntryStatus) (name : String) : StagedDb :=
  AList.insert ["p"] ⟨status, .directory { name := ["p"], hash := 0 }⟩
    (AList.insert ["p", name] (newFile ["p", name]) ∅)

theorem lookup_added {status : StagedEntryStatus} {name : String} {path : PathBuf}
    {entry : StagedMerkleTreeNode} (h : (added status name).lookup path = some entry) :
    (path = ["p"] ∧ entry = ⟨status, .directory { name := ["p"], hash := 0 }⟩) ∨
      (path = ["p", name] ∧ entry = newFile ["p", name]) := by
  rcases KeyedMap.lookup_insert_eq_some.mp h with ⟨rfl, rfl⟩ | ⟨-, h⟩
  · exact .inl ⟨rfl, rfl⟩
  · rcases KeyedMap.lookup_insert_eq_some.mp h with ⟨rfl, rfl⟩ | ⟨-, h⟩
    · exact .inr ⟨rfl, rfl⟩
    · cases h

theorem wholeDb_added {dirHashes : DirHashes} {status : StagedEntryStatus} {name : String}
    (hstatus : status ≠ .removed) (hindex : ["p", name] ∉ dirHashes) :
    WholeDb dirHashes (added status name) := by
  have hp : (added status name).lookup ["p"] =
      some ⟨status, .directory { name := ["p"], hash := 0 }⟩ := AList.lookup_insert _
  constructor
  · intro path entry h
    rcases lookup_added h with ⟨rfl, rfl⟩ | ⟨rfl, rfl⟩
    · rfl
    · rfl
  · exact ⟨["p"], AList.lookup_isSome.mp (by rw [hp]; rfl), by simp⟩
  · intro path hmem hne hparent
    rcases Option.isSome_iff_exists.mp (AList.lookup_isSome.mpr hmem) with ⟨entry, h⟩
    rcases lookup_added h with ⟨rfl, rfl⟩ | ⟨rfl, rfl⟩
    · exact absurd rfl hparent
    · exact ⟨_, _, hp, rfl⟩
  · intro path entry _ h hmem
    rcases lookup_added h with ⟨rfl, rfl⟩ | ⟨rfl, rfl⟩
    · exact ⟨_, rfl⟩
    · exact absurd hmem hindex
  · intro path entry _ h hremoved
    rcases lookup_added h with ⟨rfl, rfl⟩ | ⟨rfl, rfl⟩
    · exact absurd hremoved hstatus
    · cases hremoved
  · intro path entry f h hnode
    rcases lookup_added h with ⟨rfl, rfl⟩ | ⟨rfl, rfl⟩
    · cases hnode
    · exact fun hstatus => by cases hstatus

theorem run_first : StagedRun Example.host [firstCommit] (Repository.run {} firstPlan.ops) :=
  .commit (.start {} rfl rfl) firstEnv rfl .new
    (wholeDb_added (by decide) (by decide)).wholeStaging firstPlan_result rfl rfl
    (fun c hc => by cases hc) distinct_first

theorem run_between : StagedRun secondEnv.toHost [firstCommit] between :=
  run_first.other rfl rfl

def plan : Plan := commitDirEntriesNew secondEnv between (readStagedEntries (added .modified "y"))

def tree : TreeWrites.TreePlan EMerkleTreeNode :=
  commitPlan secondEnv between (some firstCommit) (indexOf between (some firstCommit))
    (readStagedEntries (added .modified "y")) secondCommit

/-- The root directory of the first commit. -/
def firstRoots : List MerkleTreeNode :=
  ((getNodeByIdWithChildren between.db 5 firstCommit.hash).map children).getD []

def firstFile : FileNode :=
  { Example.fileNode "x" [1] 5 with lastCommitId := firstCommit.hash }

/-- What the second commit does, by evaluation. -/
theorem facts : plan.result = .ok secondCommit ∧
    tree.Layered EMerkleTreeNode.hash ∧
    (∀ r ∈ tree.records, ∀ r' ∈ tree.records, r.1.hash = r'.1.hash → r = r') ∧
    (∀ r ∈ tree.records, ∀ record ∈ between.db r.1.hash,
      record.node.skeleton = r.1.skeleton ∧ record.children = r.2) ∧
    ["p", "y"] ∉ indexOf between (some firstCommit) ∧
    (∀ c ∈ [firstCommit], c.hash ≠ secondCommit.hash) ∧
    (mk (.commit firstCommit) firstRoots).Stored between.db ∧
    (["p", "x"], firstFile) ∈ (mk (.commit firstCommit) firstRoots).files [] := by
  decide +kernel

theorem plan_result : plan.result = .ok secondCommit :=
  facts.1

theorem distinct : DistinctIds secondEnv between (some firstCommit)
    (indexOf between (some firstCommit)) (readStagedEntries (added .modified "y"))
    secondCommit where
  layered := facts.2.1
  consistent := facts.2.2.1
  agrees r hr record h := facts.2.2.2.1 r hr record h

theorem index_between : ["p", "y"] ∉ indexOf between (some firstCommit) :=
  facts.2.2.2.2.1

theorem ids_differ : ∀ c ∈ [firstCommit], c.hash ≠ secondCommit.hash :=
  facts.2.2.2.2.2.1

theorem stored_firstRoots : (mk (.commit firstCommit) firstRoots).Stored between.db :=
  facts.2.2.2.2.2.2.1

theorem mem_firstFile :
    (["p", "x"], firstFile) ∈ (mk (.commit firstCommit) firstRoots).files [] :=
  facts.2.2.2.2.2.2.2

theorem treeFile_first : TreeFile between.db firstCommit ["p", "x"] firstFile :=
  ⟨firstRoots, stored_firstRoots.held, mem_firstFile⟩

end OverlayExample

open OverlayExample LookupExample in
theorem index_mirrors_tree_example :
    ∃ cs, (mk (.commit firstCommit) cs).Held between.db ∧
      UniquePaths [] (mk (.commit firstCommit) cs) ∧
      ∀ path hash, (between.dirHashes firstCommit.hash).lookup path = some hash ↔
        ∃ d, (path, .directory d) ∈ (mk (.commit firstCommit) cs).entries [] ∧ d.hash = hash :=
  run_between.index_mirrors_tree List.mem_cons_self

open OverlayExample LookupExample in
theorem commit_overlays_example :
    TreeFile (between.run plan.ops).db secondCommit ["p", "x"] firstFile ↔
      Overlay secondCommit.hash (readStagedEntries (added .modified "y"))
        (fun p g => ∃ c, some firstCommit = some c ∧ TreeFile between.db c p g) ["p", "x"]
        firstFile :=
  run_between.commit_overlays .new (wholeDb_added (by decide) index_between).wholeStaging
    plan_result head_between head_between ids_differ distinct ["p", "x"] firstFile

open OverlayExample LookupExample in
theorem last_commit_has_file_example :
    ∃ c' ∈ [firstCommit], c'.hash = firstFile.lastCommitId ∧
      TreeFile between.db c' ["p", "x"] firstFile :=
  run_between.last_commit_has_file List.mem_cons_self treeFile_first

end CommitWriter

end Oxen
