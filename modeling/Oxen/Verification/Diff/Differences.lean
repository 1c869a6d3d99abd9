import Oxen.Verification.Diff.Explained
import Oxen.Verification.Diff.Reads

/-! Which differences between two commits a listing explains. -/

namespace Oxen

open MerkleTreeNode Changes

namespace Diff

variable {env : DiffEnv} {db : NodeStore} {t base head other : CommitTree db} {path p : PathBuf}
  {b h l : Listing} {dirHashes : MerkleHash → DirHashes} {fuel : ℕ} {f g : FileNode}

/-- The directories below the path that only one of the commits has count the files
below them. -/
def CountersHold (t other : CommitTree db) (path : PathBuf) : Prop :=
  ∀ p d, path <+: p → p ≠ path → (p, .directory d) ∈ t.tree.entries [] →
    (∀ d', (p, .directory d') ∉ other.tree.entries []) → d.numFiles = filesBelow t p

/-- The path is no file that differs between the commits; below it no file has changed in its
metadata alone, the sizes of the tabular files that differ are known, and the counters of the
directories that only one commit has are right. -/
structure Explicable (env : DiffEnv) (base head : CommitTree db) (path : PathBuf) : Prop where
  same : base.identities.lookup path = head.identities.lookup path
  metadata : ∀ p, path <+: p → ∀ f g, base.fileMap.lookup p = some f →
    head.fileMap.lookup p = some g → f.hash = g.hash → f.metadataHash = g.metadataHash
  sizes : ∀ p, path <+: p → contentChange (base.fileMap.lookup p) (head.fileMap.lookup p) ≠ none →
    SizesKnown env (base.fileMap.lookup p) (head.fileMap.lookup p)
  added : CountersHold head base path
  removed : CountersHold base head path

/-! ## Directories -/

theorem not_contains_iff (hother : ListsBelow other path l) {d : DirNodeWithPath} :
    l.dirs.contains d = false ↔ d.path = [] ∨
      ∀ d', (path ++ d.path, .directory d') ∉ other.tree.entries [] := by
  rw [← Bool.not_eq_true, KeySet.contains_iff]
  constructor
  · intro hnot
    by_cases hnil : d.path = []
    · exact .inl hnil
    · exact .inr fun d' hd' => hnot ⟨_, (hother.dirs d.path d').mpr ⟨hnil, hd'⟩, rfl⟩
  · rintro hnone ⟨⟨d', r⟩, hd', heq⟩
    obtain rfl : r = d.path := heq
    rcases (hother.dirs _ _).mp hd' with ⟨hne, hd'⟩
    rcases hnone with hnil | hnone
    · exact hne hnil
    · exact hnone d' hd'

theorem countersHold_iff (huniq : UniquePaths [] t.tree) (hlisted : ListsBelow t path l)
    {l' : Listing} (hother : ListsBelow other path l') :
    (∀ d ∈ l.dirs.elems, l'.dirs.contains d = false →
      d.dirNode.numFiles = l.files.elems.countP fun f => d.path <+: f.dir) ↔
      CountersHold t other path := by
  constructor
  · rintro hall p d ⟨r, rfl⟩ hne hd hnone
    rw [← hlisted.countP_files huniq]
    refine hall ⟨d, r⟩ ((hlisted.dirs r d).mpr ⟨?_, hd⟩) ((not_contains_iff hother).mpr (.inr hnone))
    rintro rfl
    exact hne (List.append_nil path)
  · rintro hall ⟨d, r⟩ hd hnot
    rcases (hlisted.dirs r d).mp hd with ⟨hne, hmem⟩
    rw [hlisted.countP_files huniq]
    refine hall _ d (List.prefix_append _ _) ?_ hmem ?_
    · exact fun heq => hne (List.append_right_eq_self.mp heq)
    · exact ((not_contains_iff hother).mp hnot).resolve_left hne

theorem explainable_iff_of_listsBelow (hbase : UniquePaths [] base.tree)
    (hhead : UniquePaths [] head.tree) (hb : ListsBelow base path b) (hh : ListsBelow head path h)
    (hsame : base.identities.lookup path = head.identities.lookup path) :
    Explainable env base head path b h ↔ Explicable env base head path := by
  have hchanges := @changes_iff_of_files db base head path b h
    (fun p hp => hb.fileAt hbase hp) (fun p hp => hh.fileAt hhead hp)
  have hadded := countersHold_iff hhead hh hb
  have hremoved := countersHold_iff hbase hb hh
  constructor
  · intro hexplains
    refine ⟨hsame, hchanges.mp hexplains.changes, fun p hp hp' => ?_,
      hadded.mp hexplains.counters.added, hremoved.mp hexplains.counters.removed⟩
    rw [← hb.fileAt hbase hp, ← hh.fileAt hhead hp] at hp' ⊢
    exact hexplains.sizes p hp'
  · intro hexplicable
    refine ⟨hchanges.mpr hexplicable.metadata, fun p hp' => ?_,
      hadded.mpr hexplicable.added, hremoved.mpr hexplicable.removed⟩
    by_cases hp : path <+: p
    · rw [hb.fileAt hbase hp, hh.fileAt hhead hp] at hp' ⊢
      exact hexplicable.sizes p hp hp'
    · rw [Listing.fileAt, Listing.fileAt, if_neg hp, if_neg hp] at hp'
      exact absurd rfl hp'

/-! ## Files -/

/-- A file is listed with its path twice. -/
theorem fileAt_listFile (hname : f.name = leafName path) (r : PathBuf) :
    (listFile path f).fileAt path (path ++ r) = if path = r then some f else none := by
  have helems : (listFile path f).files.elems = [⟨f, path.dropLast⟩] := rfl
  have hkey : FileNodeWithDir.path ⟨f, path.dropLast⟩ = path := by
    rw [FileNodeWithDir.path, hname, CommitWriter.dropLast_append_leafName]
  rw [Listing.fileAt_append, KeySet.get, helems]
  by_cases hr : path = r
  · rw [if_pos hr, List.find?_cons_of_pos (by rw [hkey, hr]; exact decide_eq_true rfl)]
    rfl
  · rw [if_neg hr, List.find?_cons_of_neg (by rw [hkey]; simpa using hr)]
    rfl

/-- What is read at a path: a file, or the files and directories below it. -/
inductive ReadsAs (t : CommitTree db) (path : PathBuf) : Option MerkleTreeNode → Prop where
  | file {f : FileNode} (cs : List MerkleTreeNode) (hf : (path, .file f) ∈ t.tree.entries [])
      (hname : f.name = leafName path) : ReadsAs t path (some (.mk (.file f) cs))
  | below {read : Option MerkleTreeNode} (hfile : t.fileMap.lookup path = none)
      (hkind : readKind read = .nothing ∨ readKind read = .directory)
      (hlength : (listingOf path read).length ≤ t.tree.size)
      (hlisted : ListsBelow t path (listingOf path read)) : ReadsAs t path read

theorem readsAs (h : CommitTree.CurrentIndex env.toHost dirHashes t) (hfuel : t.tree.size ≤ fuel)
    (path : PathBuf) : ReadsAs t path (readAt env dirHashes fuel t path) := by
  have huniq := h.uniquePaths
  by_cases hfile : ∃ f, (path, .file f) ∈ t.tree.entries []
  · rcases hfile with ⟨f, hf⟩
    rcases h.read_file hf hfuel with ⟨cs, hread⟩
    rw [readAt, hread]
    refine .file cs hf ?_
    rcases CommitTree.exists_subtree_of_file hf with ⟨q, hq, rfl⟩
    rcases List.length_eq_one_iff.mp (t.length_file_name hq) with ⟨name, hname⟩
    rw [hname, CommitWriter.leafName_append_singleton]
  · have hnone : t.fileMap.lookup path = none := by
      apply Option.eq_none_iff_forall_ne_some.mpr
      exact fun f hf => hfile ⟨f, (CommitTree.lookup_fileMap_iff_entries huniq).mp hf⟩
    by_cases hdir : ∃ d, (path, .directory d) ∈ t.tree.entries []
    · rcases hdir with ⟨d, hd⟩
      rcases h.read_directory hd hfuel with ⟨q, vnodes, hq, -, hread⟩
      refine .below hnone (.inr ?_) ?_ (listsBelow_directory h hd hfuel)
      · rw [readAt, hread]
        rfl
      · rw [readAt, hread]
        exact (length_listingOf_le _ _).trans (size_le_of_mem_subtrees hq)
    · have hnothing : ∀ n, (path, n) ∉ t.tree.entries [] := by
        intro n hn
        rcases CommitTree.file_or_directory hn with ⟨f, rfl⟩ | ⟨d, rfl⟩
        · exact hfile ⟨f, hn⟩
        · exact hdir ⟨d, hn⟩
      rw [readAt, h.read_nothing hnothing hfuel]
      exact .below hnone (.inl rfl) (Nat.zero_le _) (listsBelow_nothing hnothing)

theorem ReadsAs.length_le {read : Option MerkleTreeNode} (h : ReadsAs t path read) :
    (listingOf path read).length ≤ t.tree.size := by
  cases h with
  | file cs hf hname => exact length_listFile_le _ _
  | below hfile hkind hlength hlisted => exact hlength

/-- Only what a directory lists is found at the path itself. -/
theorem fileAt_self_of_file (hf : (path, .file f) ∈ t.tree.entries []) (hname : f.name = leafName path) :
    (listFile path f).fileAt path path = none := by
  have hself := fileAt_listFile hname []
  rw [List.append_nil] at hself
  rw [hself, if_neg]
  rintro rfl
  rcases CommitTree.exists_subtree_of_file hf with ⟨q, hq, heq⟩
  have hlength := t.length_file_name hq
  rw [(List.append_eq_nil_iff.mp heq).2] at hlength
  cases hlength

theorem lookup_identities : t.identities.lookup p = (t.fileMap.lookup p).map FileNode.identity :=
  KeyedMap.lookup_mapValues _ _ _

/-- Nothing but the file is at or below its path. -/
theorem lookup_of_file (huniq : UniquePaths [] t.tree) (hf : (path, .file f) ∈ t.tree.entries [])
    (hp : path <+: p) : t.fileMap.lookup p = if p = path then some f else none := by
  apply Option.ext
  intro g
  rw [CommitTree.lookup_fileMap_iff_entries huniq]
  constructor
  · intro hg
    rcases CommitTree.eq_of_file huniq hf hg hp with ⟨rfl, heq⟩
    rw [if_pos rfl, EMerkleTreeNode.file.inj heq]
  · intro hg
    by_cases heq : p = path
    · rw [if_pos heq] at hg
      rw [heq, ← Option.some.inj hg]
      exact hf
    · rw [if_neg heq] at hg
      cases hg

theorem contentChange_of_hash_eq (hhash : f.hash = g.hash) (c : Prop) [Decidable c] :
    contentChange (if c then some f else none) (if c then some g else none) = none := by
  by_cases hc : c
  · rw [if_pos hc, if_pos hc, contentChange, if_neg (by simp [hhash])]
  · rw [if_neg hc, if_neg hc, contentChange]

/-- Two files are listed without a change exactly when they are the same. -/
theorem explainable_iff_of_file (hbase : UniquePaths [] base.tree) (hhead : UniquePaths [] head.tree)
    (hf : (path, .file f) ∈ base.tree.entries []) (hfname : f.name = leafName path)
    (hg : (path, .file g) ∈ head.tree.entries []) (hgname : g.name = leafName path) :
    Explainable env base head path (listFile path f) (listFile path g) ↔
      Explicable env base head path := by
  have hids : ∀ p, path <+: p → (base.identities.lookup p = head.identities.lookup p ↔
      (p = path → f.identity = g.identity)) := by
    intro p hp
    rw [lookup_identities, lookup_identities, lookup_of_file hbase hf hp,
      lookup_of_file hhead hg hp]
    by_cases heq : p = path
    · simp [heq]
    · simp [heq]
  constructor
  · intro hexplains
    have hchange := hexplains.changes path (List.prefix_refl _)
    rw [fileAt_self_of_file hf hfname, fileAt_self_of_file hg hgname] at hchange
    have hsame := change_eq_none_iff.mp hchange.symm
    obtain ⟨hhash, hmetadata⟩ := Prod.mk.inj ((hids path (List.prefix_refl _)).mp hsame rfl)
    refine ⟨hsame, fun p hp f' g' hf' hg' _ => ?_, fun p hp hne => ?_, ?_, ?_⟩
    · rw [lookup_of_file hbase hf hp] at hf'
      rw [lookup_of_file hhead hg hp] at hg'
      by_cases heq : p = path
      · rw [if_pos heq] at hf' hg'
        rw [← Option.some.inj hf', ← Option.some.inj hg', hmetadata]
      · rw [if_neg heq] at hf'
        cases hf'
    · rw [lookup_of_file hbase hf hp, lookup_of_file hhead hg hp] at hne
      exact absurd (contentChange_of_hash_eq hhash _) hne
    · intro p d hp hne hd
      exact absurd (CommitTree.eq_of_file hhead hg hd hp).1 hne
    · intro p d hp hne hd
      exact absurd (CommitTree.eq_of_file hbase hf hd hp).1 hne
  · intro hexplicable
    have hsame := (hids path (List.prefix_refl _)).mp hexplicable.same rfl
    have hnone : ∀ p, contentChange ((listFile path f).fileAt path p)
        ((listFile path g).fileAt path p) = none := by
      intro p
      by_cases hp : path <+: p
      · rcases hp with ⟨r, rfl⟩
        rw [fileAt_listFile hfname, fileAt_listFile hgname]
        exact contentChange_of_hash_eq (Prod.mk.inj hsame).1 _
      · rw [Listing.fileAt, Listing.fileAt, if_neg hp, if_neg hp]
        rfl
    refine ⟨fun p hp => ?_, fun p hne => absurd (hnone p) hne, ⟨?_, ?_⟩⟩
    · rw [hnone, eq_comm, change_eq_none_iff]
      exact (hids p hp).mpr fun _ => hsame
    · intro d hd
      cases hd
    · intro d hd
      cases hd

/-- What is below a directory does not match a file. -/
theorem fileAt_self_of_below {read : Option MerkleTreeNode} (hfile : t.fileMap.lookup path = none)
    (huniq : UniquePaths [] t.tree) (hlisted : ListsBelow t path (listingOf path read)) :
    (listingOf path read).fileAt path path = none := by
  rw [hlisted.fileAt huniq (List.prefix_refl _), hfile]

/-- Where neither side lists a file at the path itself, the commits have to agree there. -/
theorem not_explainable_of_missing (hb : b.fileAt path path = none)
    (hh : h.fileAt path path = none)
    (hne : base.identities.lookup path ≠ head.identities.lookup path) :
    ¬ Explainable env base head path b h := by
  intro hexplains
  have hchange := hexplains.changes path (List.prefix_refl _)
  rw [hb, hh] at hchange
  exact hne (change_eq_none_iff.mp hchange.symm)

theorem kindsMatch_and_explainable_iff {baseRead headRead : Option MerkleTreeNode}
    (hbase : UniquePaths [] base.tree) (hhead : UniquePaths [] head.tree)
    (hb : ReadsAs base path baseRead) (hh : ReadsAs head path headRead) :
    KindsMatch baseRead headRead ∧
        Explainable env base head path (listingOf path baseRead) (listingOf path headRead) ↔
      Explicable env base head path := by
  cases hb with
  | @file f cs hf hfname =>
      have hlookup := lookup_of_file hbase hf (List.prefix_refl _)
      rw [if_pos rfl] at hlookup
      cases hh with
      | @file g ds hg hgname =>
          have hiff : Explainable env base head path (listFile path f) (listFile path g) ↔
              Explicable env base head path :=
            explainable_iff_of_file hbase hhead hf hfname hg hgname
          rw [← hiff]
          exact and_iff_right rfl
      | below hfile hkind hlength hlisted =>
          have hne : base.identities.lookup path ≠ head.identities.lookup path := by
            rw [lookup_identities, lookup_identities, hlookup, hfile]
            exact Option.some_ne_none _
          refine iff_of_false ?_ fun hexplicable => hne hexplicable.same
          rintro ⟨-, hexplains⟩
          exact not_explainable_of_missing (fileAt_self_of_file hf hfname)
            (fileAt_self_of_below hfile hhead hlisted) hne hexplains
  | below hbfile hbkind hblength hblisted =>
      cases hh with
      | @file g ds hg hgname =>
          have hlookup := lookup_of_file hhead hg (List.prefix_refl _)
          rw [if_pos rfl] at hlookup
          have hne : base.identities.lookup path ≠ head.identities.lookup path := by
            rw [lookup_identities, lookup_identities, hlookup, hbfile]
            exact (Option.some_ne_none _).symm
          refine iff_of_false ?_ fun hexplicable => hne hexplicable.same
          rintro ⟨-, hexplains⟩
          exact not_explainable_of_missing (fileAt_self_of_below hbfile hbase hblisted)
            (fileAt_self_of_file hg hgname) hne hexplains
      | below hhfile hhkind hhlength hhlisted =>
          have hsame : base.identities.lookup path = head.identities.lookup path := by
            rw [lookup_identities, lookup_identities, hbfile, hhfile]
          have hmatch : KindsMatch baseRead headRead := by
            rw [KindsMatch]
            rcases hbkind with hb | hb
            · rcases hhkind with hh | hh
              · rw [hb, hh]
                rfl
              · rw [hb, hh]
                rfl
            · rcases hhkind with hh | hh
              · rw [hb, hh]
                rfl
              · rw [hb, hh]
                rfl
          rw [and_iff_right hmatch]
          exact explainable_iff_of_listsBelow hbase hhead hblisted hhlisted hsame

namespace DiffExample

open Oxen.Example

def before : List MerkleTreeNode :=
  [dir [] 0x10 [file "a" [1] 1]]

def newDir : MerkleTreeNode :=
  .mk (.directory { name := ["d"], hash := 0x30, dataTypeCounts := AList.insert "text" 1 ∅ })
    [.mk (.vnode { hash := 0x31 }) [file "x" [3] 3]]

/-- The file `a` has changed, and `d/x` is new. -/
def after : List MerkleTreeNode :=
  [dir [] 0x20 [file "a" [2] 2, newDir]]

def trees : List MerkleTreeNode :=
  [.mk (.commit { hash := 0x1 }) before, .mk (.commit { hash := 0x2 }) after]

def baseTree : CommitTree (.ofTrees trees) where
  commit := { hash := 0x1 }
  children := before
  stored := by decide
  shape := by decide

def headTree : CommitTree (.ofTrees trees) where
  commit := { hash := 0x2 }
  children := after
  stored := by decide
  shape := by decide

def dirIndex (commit : MerkleHash) : DirHashes :=
  if commit = 0x1 then AList.insert [] 0x10 ∅ else AList.insert [] 0x20 (AList.insert ["d"] 0x30 ∅)

def diffEnv : DiffEnv where
  toLocalRepository := repo
  tabularSize _ := none
  ceilQuotient := (· ⌈/⌉ ·)
  buffered := id
  buffered_perm _ := .rfl

theorem leafNames_trees : LeafNames (.ofTrees trees) :=
  leafNames_ofTrees (by decide)

/-- A commit is placed as its root is. -/
theorem wellPlaced_commit {c : CommitNode} {d : DirNode} {vnodes : List MerkleTreeNode}
    (hname : d.name = []) (h : WellPlaced diffEnv.toHost [] (.mk (.directory d) vnodes)) :
    WellPlaced diffEnv.toHost [] (.mk (.commit c) [.mk (.directory d) vnodes]) := by
  refine wellPlaced_mk_iff.mpr ⟨⟨by simpa [localShape] using hname, nofun⟩, fun t ht => ?_⟩
  obtain rfl := List.mem_singleton.mp ht
  exact h

theorem entries_base : baseTree.tree.entries [] =
    [([], .directory { name := [], hash := 0x10 }), (["a"], .file (fileNode "a" [1] 1))] := by
  decide

theorem entries_head : headTree.tree.entries [] =
    [([], .directory { name := [], hash := 0x20 }), (["a"], .file (fileNode "a" [2] 2)),
      (["d"], newDir.node), (["d", "x"], .file (fileNode "x" [3] 3))] := by
  decide

theorem current_base : baseTree.CurrentIndex diffEnv.toHost dirIndex where
  placed := by
    refine wellPlaced_commit rfl (wellPlaced_single (by decide) (by decide) fun c hc => ?_)
    obtain rfl := List.mem_singleton.mp hc
    exact CommitWriter.wellPlaced_file _ _
  lookup path hash := by
    have hindex : KeyedMap.toList (dirIndex baseTree.id) = [([], 0x10)] := rfl
    rw [entries_base, ← KeyedMap.mem_toList, hindex]
    simp [eq_comm]

theorem current_head : headTree.CurrentIndex diffEnv.toHost dirIndex where
  placed := by
    refine wellPlaced_commit rfl (wellPlaced_single (by decide) (by decide) fun c hc => ?_)
    rcases List.mem_cons.mp hc with rfl | hc
    · exact CommitWriter.wellPlaced_file _ _
    · obtain rfl := List.mem_singleton.mp hc
      refine wellPlaced_single (by decide) (by decide) fun c hc => ?_
      obtain rfl := List.mem_singleton.mp hc
      exact CommitWriter.wellPlaced_file _ _
  lookup path hash := by
    have hindex : KeyedMap.toList (dirIndex headTree.id) = [([], 0x20), (["d"], 0x30)] := rfl
    rw [entries_head, ← KeyedMap.mem_toList, hindex]
    constructor
    · intro h
      rcases List.mem_cons.mp h with heq | h
      · obtain ⟨rfl, rfl⟩ := Prod.mk.inj heq
        exact ⟨{ name := [], hash := 0x20 }, List.mem_cons_self, rfl⟩
      · obtain ⟨rfl, rfl⟩ := Prod.mk.inj (List.mem_singleton.mp h)
        exact ⟨_, List.mem_cons_of_mem _ (List.mem_cons_of_mem _ List.mem_cons_self), rfl⟩
    · rintro ⟨d, hd, rfl⟩
      simp only [List.mem_cons, Prod.mk.injEq, List.not_mem_nil, or_false] at hd
      rcases hd with ⟨rfl, hd⟩ | ⟨-, hd⟩ | ⟨rfl, hd⟩ | ⟨-, hd⟩
      · obtain rfl := EMerkleTreeNode.directory.inj hd
        exact List.mem_cons_self
      · cases hd
      · obtain rfl := EMerkleTreeNode.directory.inj hd
        exact List.mem_cons_of_mem _ List.mem_cons_self
      · cases hd

/-- No file has metadata or is tabular. -/
theorem plain_files {p : PathBuf} {f : FileNode}
    (h : baseTree.fileMap.lookup p = some f ∨ headTree.fileMap.lookup p = some f) :
    f.metadataHash = none ∧ f.dataType ≠ .tabular := by
  have hbase : ∀ x ∈ baseTree.tree.files [], x.2.metadataHash = none ∧ x.2.dataType ≠ .tabular := by
    decide
  have hhead : ∀ x ∈ headTree.tree.files [], x.2.metadataHash = none ∧ x.2.dataType ≠ .tabular := by
    decide
  rcases h with h | h
  · exact hbase (p, f) ((baseTree.lookup_fileMap_iff current_base.uniquePaths).mp h)
  · exact hhead (p, f) ((headTree.lookup_fileMap_iff current_head.uniquePaths).mp h)

theorem explicable_root : Explicable diffEnv baseTree headTree [] where
  same := by decide
  metadata p hp f g hf hg hhash := by
    rw [(plain_files (.inl hf)).1, (plain_files (.inr hg)).1]
  sizes p hp hne ht := by
    rcases Option.map_eq_some_iff.mp ht with ⟨f, hf, htabular⟩
    rcases Option.or_eq_some_iff.mp hf with hhead | ⟨-, hbase⟩
    · exact absurd htabular (plain_files (.inr hhead)).2
    · exact absurd htabular (plain_files (.inl hbase)).2
  added p d hp hne hd hnone := by
    rw [entries_head] at hd
    simp only [List.mem_cons, Prod.mk.injEq, List.not_mem_nil, or_false] at hd
    rcases hd with ⟨rfl, -⟩ | ⟨-, hd⟩ | ⟨rfl, hd⟩ | ⟨-, hd⟩
    · exact absurd rfl hne
    · cases hd
    · obtain rfl := EMerkleTreeNode.directory.inj hd
      decide
    · cases hd
  removed p d hp hne hd hnone := by
    rw [entries_base] at hd
    simp only [List.mem_cons, Prod.mk.injEq, List.not_mem_nil, or_false] at hd
    rcases hd with ⟨rfl, -⟩ | ⟨-, hd⟩
    · exact absurd rfl hne
    · cases hd

end DiffExample

end Diff

end Oxen
