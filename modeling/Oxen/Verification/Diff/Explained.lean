import Oxen.Verification.Diff.Entries

/-! The entries of a listing explain the change from one commit to another. -/

namespace Oxen

open Changes

namespace CommitTree

variable {db : NodeStore}

/-- What the files of the commit are. -/
def identities (t : CommitTree db) : KeyedMap.Map PathBuf Identity :=
  KeyedMap.mapValues (fun _ f => f.identity) t.fileMap

/-- The files of the commit at or below a path. -/
def identitiesBelow (t : CommitTree db) (path : PathBuf) : PathBuf → Option Identity := fun p =>
  if path <+: p then t.identities.lookup p else none

end CommitTree

namespace Diff

variable {db : NodeStore} {base head : CommitTree db} {path : PathBuf} {b h : Listing}

/-- The change that an entry stands for. -/
def DiffEntry.change (entry : DiffEntry) : Option (PathBuf × Change Identity) :=
  match entry.status, entry.headEntry with
  | .added, some head => some (entry.filename, .added (head.hash, head.metadata))
  | .removed, none => some (entry.filename, .removed)
  | .modified, some head => some (entry.filename, .modified (head.hash, head.metadata))
  | _, _ => none

/-- The changes below a directory, by their kinds. -/
def changesBelow (base head : CommitTree db) (dir : PathBuf) : AddRemoveModifyCounts :=
  countChanges ((changesBetween base.identities head.identities).filter fun x => isBelow dir x.1)

/-- What the pages of a listing should come to. The entries of the files are changes that fit
the files of one commit at or below the path and give those of the other, each path changed at
most once, and the counts are their numbers; the summaries of the directories are the numbers
of changes below them. -/
structure Explains (base head : CommitTree db) (path : PathBuf)
    (pages : List DiffEntriesCounts) : Prop where
  files : ∃ changes : List (PathBuf × Change Identity),
    ((allEntries pages).filter fun e => !e.isDir).map DiffEntry.change = changes.map some ∧
      (changes.map Prod.fst).Nodup ∧
      applyAll changes (base.identitiesBelow path) = some (head.identitiesBelow path) ∧
      ∀ shown ∈ pages, shown.counts = countChanges changes
  dirs : ∀ e ∈ allEntries pages, e.isDir = true →
    e.diffSummary = some (.dir (changesBelow base head e.filename))

/-! ## What the trees that are read have to be -/

/-- The sizes of the data frames that a changed file has, if it is tabular. -/
def SizesKnown (env : DiffEnv) (base head : Option FileNode) : Prop :=
  (head.or base).map (·.dataType) = some .tabular →
    (∀ f, base = some f → (env.tabularSize f).isSome) ∧
      ∀ f, head = some f → (env.tabularSize f).isSome

/-- Wherever the files that are read differ in their contents, the commits differ in the same
way, and nowhere else; the files that differ have summaries, and the directories that only one
side has count the files below them. -/
structure Explainable (env : DiffEnv) (base head : CommitTree db) (path : PathBuf)
    (b h : Listing) : Prop where
  changes : ∀ p, path <+: p → contentChange (b.fileAt path p) (h.fileAt path p) =
    change (base.identities.lookup p) (head.identities.lookup p)
  sizes : ∀ p, contentChange (b.fileAt path p) (h.fileAt path p) ≠ none →
    SizesKnown env (b.fileAt path p) (h.fileAt path p)
  counters : CountersRight b h

/-- Where the files of the commits are read, the contents tell them apart unless only the
metadata of one has changed. -/
theorem contentChange_eq_change_iff (base head : Option FileNode) :
    contentChange base head = change (base.map FileNode.identity) (head.map FileNode.identity) ↔
      ∀ f g, base = some f → head = some g → f.hash = g.hash → f.metadataHash = g.metadataHash := by
  cases base with
  | none =>
      cases head with
      | none => simp [contentChange, change]
      | some g => simp [contentChange, change]
  | some f =>
      cases head with
      | none => simp [contentChange, change]
      | some g =>
          by_cases hhash : f.hash = g.hash
          · simp [contentChange, change, hhash, FileNode.identity]
          · simp [contentChange, change, hhash, Ne.symm hhash, FileNode.identity]

/-! ## The changes -/

theorem changes_iff_perm : (∀ p, path <+: p →
      contentChange (b.fileAt path p) (h.fileAt path p) =
        change (base.identities.lookup p) (head.identities.lookup p)) ↔
    (listedChanges b h path).Perm
      ((changesBetween base.identities head.identities).filter fun x => path <+: x.1) := by
  have hlisted := (nodup_listedChanges b h path).of_map Prod.fst
  have hbetween := ((nodup_changesBetween base.identities head.identities).of_map Prod.fst).filter
    fun x => decide (path <+: x.1)
  rw [List.perm_ext_iff_of_nodup hlisted hbetween]
  simp only [Prod.forall, mem_listedChanges, List.mem_filter, mem_changesBetween,
    decide_eq_true_eq]
  constructor
  · intro hall p c
    by_cases hp : path <+: p
    · rw [hall p hp, and_iff_left hp]
    · rw [Listing.fileAt, Listing.fileAt, if_neg hp, if_neg hp]
      simp [contentChange, hp]
  · intro hall p hp
    apply Option.ext
    intro c
    rw [hall, and_iff_left hp]

/-- Where the listing has the files of both commits, only changes of nothing but the metadata
are missed. -/
theorem changes_iff_of_files (hbase : ∀ p, path <+: p → b.fileAt path p = base.fileMap.lookup p)
    (hhead : ∀ p, path <+: p → h.fileAt path p = head.fileMap.lookup p) :
    (∀ p, path <+: p → contentChange (b.fileAt path p) (h.fileAt path p) =
        change (base.identities.lookup p) (head.identities.lookup p)) ↔
      ∀ p, path <+: p → ∀ f g, base.fileMap.lookup p = some f → head.fileMap.lookup p = some g →
        f.hash = g.hash → f.metadataHash = g.metadataHash := by
  refine forall₂_congr fun p hp => ?_
  rw [hbase p hp, hhead p hp, CommitTree.identities, CommitTree.identities,
    KeyedMap.lookup_mapValues, KeyedMap.lookup_mapValues]
  exact contentChange_eq_change_iff _ _

theorem applyAll_iff {changes : List (PathBuf × Change Identity)}
    (hperm : changes.Perm (listedChanges b h path)) :
    applyAll changes (base.identitiesBelow path) = some (head.identitiesBelow path) ↔
      ∀ p, path <+: p → contentChange (b.fileAt path p) (h.fileAt path p) =
        change (base.identities.lookup p) (head.identities.lookup p) := by
  have hn := ((hperm.map Prod.fst).nodup_iff).mpr (nodup_listedChanges b h path)
  rw [applyAll_eq_some_iff hn]
  simp only [hperm.mem_iff, mem_listedChanges]
  constructor
  · intro hall p hp
    apply Option.ext
    intro c
    rw [hall, CommitTree.identitiesBelow, CommitTree.identitiesBelow, if_pos hp, if_pos hp]
  · intro hall p c
    by_cases hp : path <+: p
    · rw [hall p hp, CommitTree.identitiesBelow, CommitTree.identitiesBelow, if_pos hp, if_pos hp]
    · rw [Listing.fileAt, Listing.fileAt, CommitTree.identitiesBelow, CommitTree.identitiesBelow,
        if_neg hp, if_neg hp, if_neg hp, if_neg hp]
      rfl

/-- Where the listing has the changes at or below the path, it has those below a directory. -/
theorem changesBelow_eq (hchanges : ∀ p, path <+: p →
      contentChange (b.fileAt path p) (h.fileAt path p) =
        change (base.identities.lookup p) (head.identities.lookup p)) {dir : PathBuf}
    (hdir : path <+: dir) :
    changesBelow base head dir =
      countChanges ((listedChanges b h path).filter fun x => isBelow dir x.1) := by
  have hperm := (changes_iff_perm.mp hchanges).filter fun x => isBelow dir x.1
  rw [changesBelow, countChanges_perm hperm, List.filter_filter]
  refine congrArg countChanges (List.filter_congr fun x _ => ?_)
  cases hbelow : isBelow dir x.1 with
  | false => rfl
  | true =>
      rw [isBelow, Bool.and_eq_true, decide_eq_true_iff] at hbelow
      rw [decide_eq_true (hdir.trans hbelow.1)]
      rfl

/-! ## The summaries of the files -/

theorem change_shownEntry {env : DiffEnv} {baseCommit headCommit : CommitNode}
    (entry : DiffFileNode) :
    (shownEntry env baseCommit headCommit entry).change = entry.change := by
  obtain ⟨path, baseEntry, headEntry, status⟩ := entry
  cases status <;> cases headEntry <;> rfl

theorem summarized_of_dataType {env : DiffEnv} {entry : DiffFileNode}
    (h : entry.dataType ≠ .tabular) : Summarized env entry := by
  refine ⟨none, ?_⟩
  cases hdata : entry.dataType <;> first | rfl | exact absurd hdata h

theorem summarized_iff {env : DiffEnv} {entry : DiffFileNode}
    (h : contentChange entry.baseEntry entry.headEntry ≠ none) :
    Summarized env entry ↔ SizesKnown env entry.baseEntry entry.headEntry := by
  obtain ⟨path, baseEntry, headEntry, status⟩ := entry
  by_cases ht : (headEntry.or baseEntry).map (·.dataType) = some .tabular
  · have hdata : DiffFileNode.dataType ⟨path, baseEntry, headEntry, status⟩ = .tabular := by
      rw [DiffFileNode.dataType, DiffFileNode.currentEntry, ht, Option.getD_some]
    rw [Summarized, hdata, SizesKnown, forall_prop_of_true ht]
    cases baseEntry with
    | none =>
        cases headEntry with
        | none => exact absurd rfl h
        | some head =>
            cases hsize : env.tabularSize head <;>
              simp [DiffEntry.diffSummaryFromFileNodes, TabularDiffWrapper.fromFileNodes, hsize,
                Except.map]
    | some base =>
        cases headEntry with
        | none =>
            cases hsize : env.tabularSize base <;>
              simp [DiffEntry.diffSummaryFromFileNodes, TabularDiffWrapper.fromFileNodes, hsize,
                Except.map]
        | some head =>
            cases hbase : env.tabularSize base <;> cases hhead : env.tabularSize head <;>
              simp [DiffEntry.diffSummaryFromFileNodes, TabularDiffWrapper.fromFileNodes, hbase,
                hhead, Except.map]
  · have hdata : DiffFileNode.dataType ⟨path, baseEntry, headEntry, status⟩ ≠ .tabular := by
      intro heq
      rw [DiffFileNode.dataType, DiffFileNode.currentEntry] at heq
      cases hcurrent : headEntry.or baseEntry with
      | none =>
          rw [hcurrent] at heq
          cases heq
      | some f =>
          rw [hcurrent] at heq ht
          exact ht (congrArg some heq)
    constructor
    · intro _ ht'
      exact absurd ht' ht
    · intro _
      exact summarized_of_dataType hdata

/-- All files that differ have summaries. -/
theorem summarized_sortedFiles_iff {env : DiffEnv} :
    (∀ entry ∈ sortedFiles b h path, Summarized env entry) ↔
      ∀ p, contentChange (b.fileAt path p) (h.fileAt path p) ≠ none →
        SizesKnown env (b.fileAt path p) (h.fileAt path p) := by
  constructor
  · intro hall p hp
    rcases exists_mem_sortedFiles hp with ⟨entry, hentry, rfl⟩
    rcases files_of_mem_sortedFiles hentry with ⟨hbase, hhead, hchange⟩
    have hsummarized := (summarized_iff hchange).mp (hall entry hentry)
    rwa [hbase, hhead] at hsummarized
  · intro hall entry hentry
    rcases files_of_mem_sortedFiles hentry with ⟨hbase, hhead, hchange⟩
    apply (summarized_iff hchange).mpr
    rw [hbase, hhead]
    rw [hbase, hhead] at hchange
    exact hall entry.path hchange

/-! ## The listing explains the change -/

variable {env : DiffEnv} {dirHashes : MerkleHash → DirHashes} {fuel pageSize : ℕ}

/-- All pages together explain the change exactly when the changes and the counters are right. -/
theorem AllPages.explains_iff_changes {pages : List DiffEntriesCounts} (hlisted : WellListed b h)
    (hlength : b.length + h.length < 2 ^ 63) (hsize : 1 ≤ pageSize)
    (hpages : AllPages (fun page => pageOf env base.commit head.commit
      (sortedDirs b h base.commit head.commit path) (sortedFiles b h path)
      (countChanges (listedChanges b h path)) page pageSize) pageSize pages) :
    Explains base head path pages ↔
      (∀ p, path <+: p → contentChange (b.fileAt path p) (h.fileAt path p) =
        change (base.identities.lookup p) (head.identities.lookup p)) ∧ CountersRight b h := by
  rcases hpages.entries ((length_sortedDirs_le _ _ _ _ _).trans_lt hlength)
    ((length_sortedFiles_le _ _ _).trans_lt hlength) hsize
    (fun e he => (isDir_of_mem_sortedDirs he).1) with ⟨hcounts, -, hdirs, hfiles⟩
  rcases exists_changes_sortedFiles b h path with ⟨changes, hmap, hperm⟩
  have hshown : (((allEntries pages).filter fun e => !e.isDir).map DiffEntry.change).Perm
      (changes.map some) := by
    have hcomp : DiffEntry.change ∘ shownEntry env base.commit head.commit =
        DiffFileNode.change := funext change_shownEntry
    have hchange := hfiles.map DiffEntry.change
    rwa [List.map_map, hcomp, hmap] at hchange
  have hsummaries : (∀ p, path <+: p → contentChange (b.fileAt path p) (h.fileAt path p) =
      change (base.identities.lookup p) (head.identities.lookup p)) →
      ((∀ e ∈ allEntries pages, e.isDir = true →
        e.diffSummary = some (.dir (changesBelow base head e.filename))) ↔ CountersRight b h) := by
    intro hchanges
    rw [← summaries_iff hlisted base.commit head.commit path]
    constructor
    · intro hall e he
      rw [← changesBelow_eq hchanges (isDir_of_mem_sortedDirs he).2]
      exact hall e ((hdirs e).mpr he).1 (isDir_of_mem_sortedDirs he).1
    · intro hall e he hdir
      have hmem := (hdirs e).mp ⟨he, hdir⟩
      rw [changesBelow_eq hchanges (isDir_of_mem_sortedDirs hmem).2]
      exact hall e hmem
  constructor
  · rintro ⟨⟨shownChanges, hshownMap, -, happly, -⟩, hdirSummaries⟩
    rw [hshownMap, List.map_perm_map_iff (Option.some_injective _)] at hshown
    have hchanges := (applyAll_iff (hshown.trans hperm)).mp happly
    exact ⟨hchanges, (hsummaries hchanges).mp hdirSummaries⟩
  · rintro ⟨hchanges, hcounters⟩
    refine ⟨?_, (hsummaries hchanges).mpr hcounters⟩
    rcases exists_of_perm_map_some hshown with ⟨shownChanges, hshownMap, hshownPerm⟩
    have hall := hshownPerm.trans hperm
    refine ⟨shownChanges, hshownMap, ?_, (applyAll_iff hall).mpr hchanges, fun shown hmem => ?_⟩
    · exact ((hall.map Prod.fst).nodup_iff).mpr (nodup_listedChanges b h path)
    · rw [hcounts shown hmem, countChanges_perm hall]

/-- The tree that is read at a path of a commit. -/
def readAt (env : DiffEnv) (dirHashes : MerkleHash → DirHashes) (fuel : ℕ) (t : CommitTree db)
    (path : PathBuf) : Option MerkleTreeNode :=
  readFromPathMaybe env.toHost db dirHashes fuel t.commit path

theorem namedRead_readAt (hnames : LeafNames db) (t : CommitTree db) :
    NamedRead (readAt env dirHashes fuel t path) :=
  fun _ hu => named_readFromPathMaybe hnames hu

theorem listDiffEntries_eq (h : KindsMatch (readAt env dirHashes fuel base path)
      (readAt env dirHashes fuel head path)) (page : ℕ) :
    listDiffEntries env db dirHashes fuel base.commit head.commit path path page pageSize =
      pageOf env base.commit head.commit
        (sortedDirs (listingOf path (readAt env dirHashes fuel base path))
          (listingOf path (readAt env dirHashes fuel head path)) base.commit head.commit path)
        (sortedFiles (listingOf path (readAt env dirHashes fuel base path))
          (listingOf path (readAt env dirHashes fuel head path)) path)
        (countChanges (listedChanges (listingOf path (readAt env dirHashes fuel base path))
          (listingOf path (readAt env dirHashes fuel head path)) path)) page pageSize := by
  have hsides := @listSides_eq_ok_iff base.commit head.commit path path
    (readAt env dirHashes fuel base path) (readAt env dirHashes fuel head path) _ _
    |>.mpr ⟨h, rfl, rfl⟩
  rw [← counts_eq]
  unfold readAt at hsides ⊢
  unfold listDiffEntries
  rw [hsides]

/-- Other kinds of trees are an error on every page. -/
theorem kindsMatch_of_allPages {pages : List DiffEntriesCounts}
    (hpages : AllPages (fun page => listDiffEntries env db dirHashes fuel base.commit head.commit
      path path page pageSize) pageSize pages) :
    KindsMatch (readAt env dirHashes fuel base path) (readAt env dirHashes fuel head path) := by
  rcases hsides : listSides base.commit head.commit path path
      (readAt env dirHashes fuel base path) (readAt env dirHashes fuel head path) with e | ⟨b, h⟩
  · have herror : listDiffEntries env db dirHashes fuel base.commit head.commit path path (0 + 1)
        pageSize = some (.error e) := by
      unfold readAt at hsides
      unfold listDiffEntries
      rw [hsides]
    have hfirst := hpages.shown 0 (List.length_pos_iff.mpr hpages.ne_nil)
    cases herror.symm.trans hfirst
  · exact (listSides_eq_ok_iff.mp hsides).1

theorem explainable_of_allPages (hnames : LeafNames db) (hsize : 1 ≤ pageSize)
    (hlength : (listingOf path (readAt env dirHashes fuel base path)).length +
      (listingOf path (readAt env dirHashes fuel head path)).length < 2 ^ 63) {pages : List DiffEntriesCounts}
    (hpages : AllPages (fun page => listDiffEntries env db dirHashes fuel base.commit head.commit
      path path page pageSize) pageSize pages) (hexplains : Explains base head path pages) :
    Explainable env base head path (listingOf path (readAt env dirHashes fuel base path))
      (listingOf path (readAt env dirHashes fuel head path)) := by
  have hmatch := kindsMatch_of_allPages hpages
  have hlisted := @wellListed_listingOf path path _ _ hmatch (namedRead_readAt hnames base)
    (namedRead_readAt hnames head)
  simp only [listDiffEntries_eq hmatch] at hpages
  rcases (hpages.explains_iff_changes hlisted hlength hsize).mp hexplains with
    ⟨hchanges, hcounters⟩
  rcases hpages.entries ((length_sortedDirs_le _ _ _ _ _).trans_lt hlength)
    ((length_sortedFiles_le _ _ _).trans_lt hlength) hsize
    (fun e he => (isDir_of_mem_sortedDirs he).1) with ⟨-, hsummarized, -, -⟩
  exact ⟨hchanges, summarized_sortedFiles_iff.mp hsummarized, hcounters⟩

theorem exists_explains (hnames : LeafNames db) (hsize : 1 ≤ pageSize)
    (hlength : (listingOf path (readAt env dirHashes fuel base path)).length +
      (listingOf path (readAt env dirHashes fuel head path)).length < 2 ^ 63)
    (hmatch : KindsMatch (readAt env dirHashes fuel base path)
      (readAt env dirHashes fuel head path))
    (h : Explainable env base head path (listingOf path (readAt env dirHashes fuel base path))
      (listingOf path (readAt env dirHashes fuel head path))) :
    ∃ pages, AllPages (fun page => listDiffEntries env db dirHashes fuel base.commit head.commit
      path path page pageSize) pageSize pages ∧ Explains base head path pages := by
  have hlisted := @wellListed_listingOf path path _ _ hmatch (namedRead_readAt hnames base)
    (namedRead_readAt hnames head)
  simp only [listDiffEntries_eq hmatch]
  rcases exists_allPages ((length_sortedDirs_le _ _ _ _ _).trans_lt hlength)
    ((length_sortedFiles_le _ _ _).trans_lt hlength) _ hsize
    (summarized_sortedFiles_iff.mpr h.sizes) with ⟨pages, hpages⟩
  exact ⟨pages, hpages,
    (hpages.explains_iff_changes hlisted hlength hsize).mpr ⟨h.changes, h.counters⟩⟩

/-- The pages of a listing explain the change exactly when the trees that are read at the path
are of one kind and differ as the commits do. -/
theorem explains_iff_explainable (hnames : LeafNames db) (hsize : 1 ≤ pageSize)
    (hlength : (listingOf path (readAt env dirHashes fuel base path)).length +
      (listingOf path (readAt env dirHashes fuel head path)).length < 2 ^ 63) :
    (∃ pages, AllPages (fun page => listDiffEntries env db dirHashes fuel base.commit head.commit
        path path page pageSize) pageSize pages ∧ Explains base head path pages) ↔
      KindsMatch (readAt env dirHashes fuel base path) (readAt env dirHashes fuel head path) ∧
        Explainable env base head path
          (listingOf path (readAt env dirHashes fuel base path))
          (listingOf path (readAt env dirHashes fuel head path)) := by
  constructor
  · rintro ⟨pages, hpages, hexplains⟩
    exact ⟨kindsMatch_of_allPages hpages,
      explainable_of_allPages hnames hsize hlength hpages hexplains⟩
  · rintro ⟨hmatch, hexplainable⟩
    exact exists_explains hnames hsize hlength hmatch hexplainable

end Diff

end Oxen
