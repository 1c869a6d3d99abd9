import Oxen.Model.Diff
import Oxen.Verification.Tree.Search

/-! What the two sides of a comparison list. -/

namespace Oxen

open MerkleTreeNode

/-! ## Leaf names -/

/-- The name of a file is one component; only a root directory has none. -/
def EMerkleTreeNode.HasLeafName : EMerkleTreeNode → Prop
  | .file f => f.name.length = 1
  | .directory d => d.name.length ≤ 1
  | _ => True

instance : DecidablePred EMerkleTreeNode.HasLeafName := fun n =>
  match n with
  | .file f => inferInstanceAs (Decidable (f.name.length = 1))
  | .directory d => inferInstanceAs (Decidable (d.name.length ≤ 1))
  | .vnode _ => inferInstanceAs (Decidable True)
  | .commit _ => inferInstanceAs (Decidable True)

def LeafNames (db : NodeStore) : Prop :=
  ∀ hash record, db hash = some record → ∀ n ∈ record.node :: record.children, n.HasLeafName

theorem leafNames_ofTrees {trees : List MerkleTreeNode}
    (h : ∀ x ∈ trees.flatMap (subtrees []), ∀ n ∈ x.2.node :: x.2.children.map node,
      n.HasLeafName) : LeafNames (.ofTrees trees) := by
  intro hash record hrecord
  rcases List.mem_map.mp (List.mem_of_find?_eq_some hrecord) with ⟨t, ht, rfl⟩
  rcases List.mem_map.mp (List.mem_of_mem_filter ht) with ⟨x, hx, rfl⟩
  exact h x hx

inductive MerkleTreeNode.Named : MerkleTreeNode → Prop where
  | mk {n : EMerkleTreeNode} {cs : List MerkleTreeNode} :
      n.HasLeafName → (∀ c ∈ cs, Named c) → Named (.mk n cs)

namespace MerkleTreeNode

variable {n : EMerkleTreeNode} {cs : List MerkleTreeNode} {t u : MerkleTreeNode}
  {traversed path : PathBuf}

theorem Named.node (h : (MerkleTreeNode.mk n cs).Named) : n.HasLeafName := by
  cases h with
  | mk hn _ => exact hn

theorem Named.child (h : (MerkleTreeNode.mk n cs).Named) : ∀ c ∈ cs, c.Named := by
  cases h with
  | mk _ hcs => exact hcs

theorem Named.of_getByPathHelper (h : t.Named)
    (hu : getByPathHelper traversed path t = some u) : u.Named := by
  induction t generalizing traversed with
  | mk n cs ih =>
      rcases getByPathHelper_eq_some hu with ⟨-, rfl⟩ | ⟨c, hc, hu⟩
      · exact h
      · exact ih c hc (h.child c hc) hu

end MerkleTreeNode

namespace CommitMerkleTree

variable {host : Host} {db : NodeStore} {dirHashes : MerkleHash → DirHashes} {fuel : ℕ}
  {depth traversed : ℤ} {commitId : MerkleHash} {path : PathBuf} {t : MerkleTreeNode}

theorem named_loadChildrenToDepth (h : LeafNames db) {n : EMerkleTreeNode} (hn : n.HasLeafName) :
    (loadChildrenToDepth db depth fuel traversed n).Named := by
  induction fuel generalizing traversed n with
  | zero => exact .mk hn fun c hc => by cases hc
  | succ fuel ih =>
      rw [loadChildrenToDepth]
      split
      · refine .mk hn fun c hc => ?_
        rcases List.mem_map.mp hc with ⟨m, hm, rfl⟩
        have hm' : m.HasLeafName := by
          unfold NodeStore.readChildrenFromHash at hm
          split at hm
          · cases hm
          · next record hrecord => exact h _ record hrecord m (List.mem_cons_of_mem _ hm)
        split
        · exact ih hm'
        · exact .mk hm' fun c hc => by cases hc
      · exact .mk hn fun c hc => by cases hc

theorem named_readDepth (h : LeafNames db) {hash : MerkleHash}
    (ht : readDepth db fuel hash depth = some t) : t.Named := by
  rw [readDepth, Option.map_eq_some_iff] at ht
  rcases ht with ⟨record, hrecord, rfl⟩
  exact named_loadChildrenToDepth h (h _ record hrecord _ List.mem_cons_self)

theorem named_readFileNode (h : LeafNames db) {index : DirHashes}
    (ht : readFileNode host db index fuel path = some t) : t.Named := by
  unfold readFileNode at ht
  simp only [Option.bind_eq_bind, Option.bind_eq_some_iff] at ht
  rcases ht with ⟨name, -, dirHash, -, dir, -, vnode, -, loaded, hloaded, hfound⟩
  exact (named_readDepth h hloaded).of_getByPathHelper hfound

theorem named_readDepthFromPath (h : LeafNames db)
    (ht : readDepthFromPath host db dirHashes fuel commitId path depth = .ok t) : t.Named := by
  unfold readDepthFromPath at ht
  split at ht
  · split at ht
    · cases ht
    · next hread =>
        obtain rfl := Except.ok.inj ht
        exact named_readDepth h hread
  · split at ht
    · cases ht
    · next hread =>
        obtain rfl := Except.ok.inj ht
        exact named_readFileNode h hread

end CommitMerkleTree

namespace Diff

variable {n : EMerkleTreeNode} {cs : List MerkleTreeNode} {t : MerkleTreeNode}
  {traversed path : PathBuf}

theorem named_readFromPathMaybe {host : Host} {db : NodeStore}
    {dirHashes : MerkleHash → DirHashes} {fuel : ℕ} {commit : CommitNode} (h : LeafNames db)
    (ht : readFromPathMaybe host db dirHashes fuel commit path = some t) : t.Named := by
  unfold readFromPathMaybe at ht
  cases hread : CommitMerkleTree.readDepthFromPath host db dirHashes fuel commit.hash path (-1) with
  | error e =>
      rw [hread] at ht
      cases ht
  | ok root =>
      rw [hread] at ht
      obtain rfl := Option.some.inj ht
      exact CommitMerkleTree.named_readDepthFromPath h hread

/-! ## What one node lists -/

abbrev Item := FileNodeWithDir ⊕ DirNodeWithPath

/-- What one child of a node lists. -/
def listChild (traversed : PathBuf) : MerkleTreeNode → List Item
  | .mk (.file f) _ => [.inl ⟨f, traversed⟩]
  | .mk (.directory d) children =>
      (if traversed ++ d.name ≠ [] then [.inr ⟨d, traversed ++ d.name⟩] else [])
        ++ rListFilesAndDirs (traversed ++ d.name) (.mk (.directory d) children)
  | .mk (.vnode v) children => rListFilesAndDirs traversed (.mk (.vnode v) children)
  | .mk (.commit _) _ => []

theorem rListChildren_eq (traversed : PathBuf) (cs : List MerkleTreeNode) :
    rListChildren traversed cs = cs.flatMap (listChild traversed) := by
  induction cs with
  | nil => rfl
  | cons c cs ih =>
      obtain ⟨n, ds⟩ := c
      cases n <;> simp [rListChildren, listChild, ih]

theorem rListFilesAndDirs_mk (hn : n.hasChildren = true) :
    rListFilesAndDirs traversed (.mk n cs) = cs.flatMap (listChild traversed) := by
  cases n with
  | file f => cases hn
  | directory d => simp only [rListFilesAndDirs, rListChildren_eq]
  | vnode v => simp only [rListFilesAndDirs, rListChildren_eq]
  | commit c => simp only [rListFilesAndDirs, rListChildren_eq]

/-- Files have leaf names, and every directory on the way to them is listed. -/
def Covered (traversed : PathBuf) (items : List Item) : Prop :=
  ∀ f, .inl f ∈ items → f.fileNode.name.length = 1 ∧ traversed <+: f.dir ∧
    ∀ d, traversed <+: d → d <+: f.dir → d ≠ traversed → ∃ dirNode, .inr ⟨dirNode, d⟩ ∈ items

theorem Covered.flatMap {g : MerkleTreeNode → List Item} (h : ∀ c ∈ cs, Covered traversed (g c)) :
    Covered traversed (cs.flatMap g) := by
  intro f hf
  rcases List.mem_flatMap.mp hf with ⟨c, hc, hf⟩
  rcases h c hc f hf with ⟨hname, hdir, hcover⟩
  refine ⟨hname, hdir, fun d htd hdf hne => ?_⟩
  rcases hcover d htd hdf hne with ⟨dirNode, hmem⟩
  exact ⟨dirNode, List.mem_flatMap.mpr ⟨c, hc, hmem⟩⟩

/-- A directory that is listed covers what is below it. -/
theorem Covered.directory {d : DirNode} (hd : d.name.length ≤ 1) {items : List Item}
    (h : Covered (traversed ++ d.name) items) :
    Covered traversed
      ((if traversed ++ d.name ≠ [] then [.inr ⟨d, traversed ++ d.name⟩] else []) ++ items) := by
  intro f hf
  have hmem : .inl f ∈ items := by
    rcases List.mem_append.mp hf with hf | hf
    · split at hf
      · rcases List.mem_singleton.mp hf with hf
        cases hf
      · cases hf
    · exact hf
  rcases h f hmem with ⟨hname, hdir, hcover⟩
  refine ⟨hname, (List.prefix_append traversed d.name).trans hdir, fun p htp hpf hne => ?_⟩
  have hlonger : (traversed ++ d.name).length ≤ p.length := by
    have hlt : traversed.length < p.length :=
      lt_of_le_of_ne htp.length_le fun heq => hne (htp.eq_of_length heq).symm
    rw [List.length_append]
    omega
  by_cases heq : p = traversed ++ d.name
  · subst heq
    have hne' : traversed ++ d.name ≠ [] := by
      intro hnil
      rw [hnil] at htp hne
      exact hne (List.prefix_nil.mp htp).symm
    rw [if_pos hne']
    exact ⟨d, List.mem_append_left _ List.mem_cons_self⟩
  · rcases hcover p (List.prefix_of_prefix_length_le hdir hpf hlonger) hpf heq with
      ⟨dirNode, hlisted⟩
    exact ⟨dirNode, List.mem_append_right _ hlisted⟩

theorem covered_rListFilesAndDirs (h : t.Named) (traversed : PathBuf) :
    Covered traversed (rListFilesAndDirs traversed t) := by
  have hfile : ∀ (f : FileNode) (traversed : PathBuf), f.name.length = 1 →
      Covered traversed [.inl ⟨f, traversed⟩] := by
    intro f traversed hname g hg
    obtain rfl := Sum.inl.inj (List.mem_singleton.mp hg)
    refine ⟨hname, List.prefix_refl _, fun d htd hdf hne => absurd ?_ hne⟩
    exact hdf.eq_of_length (le_antisymm hdf.length_le htd.length_le)
  induction t generalizing traversed with
  | mk n cs ih =>
      have hchild : ∀ c ∈ cs, Covered traversed (listChild traversed c) := by
        intro c hc
        have hnamed := h.child c hc
        have hbelow := ih c hc hnamed
        obtain ⟨m, ds⟩ := c
        cases m with
        | file f => exact hfile f traversed hnamed.node
        | directory d => exact (hbelow _).directory hnamed.node
        | vnode v => exact hbelow traversed
        | commit c =>
            intro f hf
            cases hf
      cases n with
      | file f => exact hfile f traversed h.node
      | directory d =>
          rw [rListFilesAndDirs_mk rfl]
          exact .flatMap hchild
      | vnode v =>
          rw [rListFilesAndDirs_mk rfl]
          exact .flatMap hchild
      | commit c =>
          rw [rListFilesAndDirs_mk rfl]
          exact .flatMap hchild

theorem dir_ne_nil {d : DirNodeWithPath} (h : .inr d ∈ rListFilesAndDirs traversed t) :
    d.path ≠ [] := by
  induction t generalizing traversed with
  | mk n cs ih =>
      by_cases hn : n.hasChildren = true
      · rw [rListFilesAndDirs_mk hn, List.mem_flatMap] at h
        rcases h with ⟨⟨m, ds⟩, hc, h⟩
        cases m with
        | file f =>
            rcases List.mem_singleton.mp h with h
            cases h
        | directory e =>
            rcases List.mem_append.mp h with h | h
            · split at h
              · next hne =>
                  obtain rfl := Sum.inr.inj (List.mem_singleton.mp h)
                  exact hne
              · cases h
            · exact ih _ hc h
        | vnode v => exact ih _ hc h
        | commit c => cases h
      · cases n with
        | file f =>
            rcases List.mem_singleton.mp h with h
            cases h
        | directory d => exact absurd rfl hn
        | vnode v => exact absurd rfl hn
        | commit c => exact absurd rfl hn

theorem length_listChild_le (traversed : PathBuf) (t : MerkleTreeNode) :
    (listChild traversed t).length ≤ t.size := by
  induction t generalizing traversed with
  | mk n cs ih =>
      have hsum : ∀ p, (cs.flatMap (listChild p)).length ≤ (cs.map size).sum := by
        intro p
        rw [List.length_flatMap]
        exact List.sum_le_sum fun c hc => ih c hc p
      rw [size_mk]
      cases n with
      | file f =>
          simp only [listChild, List.length_singleton]
          omega
      | directory d =>
          have hif : (if traversed ++ d.name ≠ [] then [(.inr ⟨d, traversed ++ d.name⟩ : Item)]
              else []).length ≤ 1 := by
            split
            · exact le_rfl
            · exact Nat.zero_le 1
          rw [listChild, List.length_append, rListFilesAndDirs_mk rfl]
          exact Nat.add_le_add hif (hsum _)
      | vnode v =>
          rw [listChild, rListFilesAndDirs_mk rfl]
          exact (hsum traversed).trans (Nat.le_add_left _ _)
      | commit c => exact Nat.zero_le _

theorem length_rListFilesAndDirs_le (traversed : PathBuf) (t : MerkleTreeNode) :
    (rListFilesAndDirs traversed t).length ≤ t.size := by
  obtain ⟨n, cs⟩ := t
  by_cases hn : n.hasChildren = true
  · rw [rListFilesAndDirs_mk hn, List.length_flatMap, size_mk]
    refine (List.sum_le_sum fun c _ => length_listChild_le traversed c).trans ?_
    exact Nat.le_add_left _ _
  · cases n with
    | file f =>
        rw [rListFilesAndDirs, size_mk, List.length_singleton]
        omega
    | directory d => exact absurd rfl hn
    | vnode v => exact absurd rfl hn
    | commit c => exact absurd rfl hn

/-! ## What a side lists -/

/-- The files have leaf names. -/
def Listing.LeafNamed (l : Listing) : Prop :=
  ∀ f ∈ l.files.elems, f.fileNode.name.length = 1

/-- A directory with files below it is listed. -/
def Listing.Covers (l : Listing) (d : PathBuf) : Prop :=
  ∀ f ∈ l.files.elems, d <+: f.dir → ∃ dir ∈ l.dirs.elems, dir.path = d

theorem mem_items_of_mem_files {f : FileNodeWithDir} (h : f ∈ (listFilesAndDirs t).files.elems) :
    .inl f ∈ rListFilesAndDirs [] t := by
  rcases List.mem_filterMap.mp (KeySet.mem_of_mem_ofList h) with ⟨item, hitem, hf⟩
  rwa [← Sum.getLeft?_eq_some_iff.mp hf]

theorem mem_items_of_mem_dirs {d : DirNodeWithPath} (h : d ∈ (listFilesAndDirs t).dirs.elems) :
    .inr d ∈ rListFilesAndDirs [] t := by
  rcases List.mem_filterMap.mp (KeySet.mem_of_mem_ofList h) with ⟨item, hitem, hd⟩
  rwa [← Sum.getRight?_eq_some_iff.mp hd]

theorem leafNamed_listFilesAndDirs (h : t.Named) : (listFilesAndDirs t).LeafNamed :=
  fun f hf => (covered_rListFilesAndDirs h [] f (mem_items_of_mem_files hf)).1

theorem covers_listFilesAndDirs (h : t.Named) {d : PathBuf} (hd : d ≠ []) :
    (listFilesAndDirs t).Covers d := by
  intro f hf hdf
  rcases covered_rListFilesAndDirs h [] f (mem_items_of_mem_files hf) with ⟨-, -, hcover⟩
  rcases hcover d List.nil_prefix hdf hd with ⟨dirNode, hmem⟩
  have hlisted : (⟨dirNode, d⟩ : DirNodeWithPath) ∈
      (rListFilesAndDirs [] t).filterMap Sum.getRight? := List.mem_filterMap.mpr ⟨_, hmem, rfl⟩
  exact KeySet.exists_mem_ofList hlisted

theorem leafNamed_listFile {f : FileNode} (h : f.name.length = 1) : (listFile path f).LeafNamed := by
  intro g hg
  obtain rfl := List.mem_singleton.mp (KeySet.mem_of_mem_ofList hg)
  exact h

theorem leafNamed_empty : ({} : Listing).LeafNamed :=
  fun f hf => by cases hf

/-- How many files and directories are listed. -/
def Listing.length (l : Listing) : ℕ :=
  l.files.elems.length + l.dirs.elems.length

theorem length_getLeft_add_getRight (items : List Item) :
    (items.filterMap Sum.getLeft?).length + (items.filterMap Sum.getRight?).length =
      items.length := by
  induction items with
  | nil => rfl
  | cons item items ih =>
      cases item with
      | inl f =>
          simp only [List.filterMap_cons, Sum.getLeft?_inl, Sum.getRight?_inl, List.length_cons]
          omega
      | inr d =>
          simp only [List.filterMap_cons, Sum.getLeft?_inr, Sum.getRight?_inr, List.length_cons]
          omega

theorem length_listFilesAndDirs_le (t : MerkleTreeNode) : (listFilesAndDirs t).length ≤ t.size := by
  have hsplit := length_getLeft_add_getRight (rListFilesAndDirs [] t)
  have hitems := length_rListFilesAndDirs_le [] t
  have hfiles : (listFilesAndDirs t).files.elems.length ≤ _ := KeySet.length_ofList_le _
  have hdirs : (listFilesAndDirs t).dirs.elems.length ≤ _ := KeySet.length_ofList_le _
  rw [Listing.length]
  omega

theorem length_listFile_le (f : FileNode) (t : MerkleTreeNode) :
    (listFile path f).length ≤ t.size := by
  have hfiles : (listFile path f).files.elems.length ≤ _ := KeySet.length_ofList_le _
  have hpos := size_pos t
  rw [List.length_singleton] at hfiles
  exact (Nat.add_zero _).le.trans (hfiles.trans hpos)

/-! ## Two sides -/

/-- A tree that was read, or nothing. -/
def NamedRead (read : Option MerkleTreeNode) : Prop :=
  ∀ t, read = some t → t.Named

/-- Sides whose files and directories can be told apart by their paths: a directory that only one
side has holds no files on the other. -/
structure WellListed (base head : Listing) : Prop where
  baseNames : base.LeafNamed
  headNames : head.LeafNamed
  baseCovers : ∀ d ∈ head.dirs.elems, base.Covers d.path
  headCovers : ∀ d ∈ base.dirs.elems, head.Covers d.path

/-- What a side lists of the tree that was read. -/
def listingOf (path : PathBuf) : Option MerkleTreeNode → Listing
  | some (.mk (.file f) _) => listFile path f
  | some (.mk (.directory d) cs) => listFilesAndDirs (.mk (.directory d) cs)
  | _ => {}

inductive ReadKind where
  | nothing | file | directory | other
deriving DecidableEq, Repr

def readKind : Option MerkleTreeNode → ReadKind
  | none => .nothing
  | some (.mk (.file _) _) => .file
  | some (.mk (.directory _) _) => .directory
  | some _ => .other

/-- Both are files, or both are directories, or one of them is missing. -/
def ReadKind.fits : ReadKind → ReadKind → Bool
  | .file, .directory => false
  | .directory, .file => false
  | .other, _ => false
  | _, .other => false
  | _, _ => true

theorem ReadKind.fits_symm (k k' : ReadKind) : k.fits k' = k'.fits k := by
  cases k <;> cases k' <;> rfl

def KindsMatch (baseRead headRead : Option MerkleTreeNode) : Prop :=
  (readKind baseRead).fits (readKind headRead) = true

instance (baseRead headRead : Option MerkleTreeNode) : Decidable (KindsMatch baseRead headRead) :=
  inferInstanceAs (Decidable (_ = true))

variable {baseCommit headCommit : CommitNode} {basePath headPath : PathBuf}
  {read baseRead headRead : Option MerkleTreeNode} {base head : Listing}

theorem KindsMatch.symm (h : KindsMatch baseRead headRead) : KindsMatch headRead baseRead :=
  (ReadKind.fits_symm _ _).trans h

theorem listSides_eq_ok_iff :
    listSides baseCommit headCommit basePath headPath baseRead headRead = .ok (base, head) ↔
      KindsMatch baseRead headRead ∧ base = listingOf basePath baseRead ∧
        head = listingOf headPath headRead := by
  have hok : ∀ b h : Listing, (Except.ok (b, h) : Except DiffError (Listing × Listing)) =
      .ok (base, head) ↔ base = b ∧ head = h := by
    intro b h
    simp [eq_comm]
  rcases baseRead with _ | ⟨n, cs⟩
  · rcases headRead with _ | ⟨m, ds⟩
    · rw [listSides, hok]
      exact (and_iff_right rfl).symm
    · cases m with
      | file f =>
          rw [listSides, hok]
          exact (and_iff_right rfl).symm
      | directory d =>
          rw [listSides, hok]
          exact (and_iff_right rfl).symm
      | vnode v => simp [listSides, KindsMatch, readKind, ReadKind.fits]
      | commit c => simp [listSides, KindsMatch, readKind, ReadKind.fits]
  · rcases headRead with _ | ⟨m, ds⟩
    · cases n with
      | file f =>
          rw [listSides, hok]
          exact (and_iff_right rfl).symm
      | directory d =>
          rw [listSides, hok]
          exact (and_iff_right rfl).symm
      | vnode v => simp [listSides, KindsMatch, readKind, ReadKind.fits]
      | commit c => simp [listSides, KindsMatch, readKind, ReadKind.fits]
    · cases n <;> cases m <;> simp [listSides, KindsMatch, readKind, ReadKind.fits, listingOf, eq_comm]

theorem leafNamed_listingOf (hn : NamedRead read) : (listingOf path read).LeafNamed := by
  unfold listingOf
  split
  · exact leafNamed_listFile (hn _ rfl).node
  · exact leafNamed_listFilesAndDirs (hn _ rfl)
  · exact leafNamed_empty

theorem length_listingOf_le (path : PathBuf) (t : MerkleTreeNode) :
    (listingOf path (some t)).length ≤ t.size := by
  unfold listingOf
  split
  · next heq =>
      rw [Option.some.inj heq]
      exact length_listFile_le _ _
  · next heq =>
      rw [Option.some.inj heq]
      exact length_listFilesAndDirs_le _
  · exact Nat.zero_le _

/-- Only a directory lists directories, and none without a path. -/
theorem readKind_of_mem_dirs {d : DirNodeWithPath} (hd : d ∈ (listingOf path read).dirs.elems) :
    readKind read = .directory ∧ d.path ≠ [] := by
  unfold listingOf at hd
  split at hd
  · cases hd
  · exact ⟨rfl, dir_ne_nil (mem_items_of_mem_dirs hd)⟩
  · cases hd

/-- The directories of the other side are covered. -/
theorem KindsMatch.covers (h : KindsMatch baseRead headRead) (hn : NamedRead baseRead)
    {d : DirNodeWithPath} (hd : d ∈ (listingOf headPath headRead).dirs.elems) :
    (listingOf basePath baseRead).Covers d.path := by
  rcases readKind_of_mem_dirs hd with ⟨hkind, hne⟩
  unfold KindsMatch at h
  rw [hkind] at h
  unfold listingOf
  split
  · cases h
  · exact covers_listFilesAndDirs (hn _ rfl) hne
  · intro f hf
    cases hf

theorem wellListed_listingOf (h : KindsMatch baseRead headRead) (hbase : NamedRead baseRead)
    (hhead : NamedRead headRead) :
    WellListed (listingOf basePath baseRead) (listingOf headPath headRead) where
  baseNames := leafNamed_listingOf hbase
  headNames := leafNamed_listingOf hhead
  baseCovers _ hd := h.covers hbase hd
  headCovers _ hd := h.symm.covers hhead hd

end Diff

end Oxen
