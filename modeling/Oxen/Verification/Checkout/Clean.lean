import Oxen.Verification.Checkout.Restore
import Oxen.Verification.Checkout.Run
import Oxen.Verification.Tree.FileMap

/-! A checkout that starts from a clean working tree. Files of the target that
the walks pass over are shared with the from tree, and all others are compared
with a disk that holds the from tree's files. -/

namespace Oxen

open MerkleTreeNode

variable {db : NodeStore}

/-- The disk has exactly the files of the commit, with their recorded contents,
sizes and modification times. -/
structure CleanAt (state : RepoState) (t : CommitTree db) : Prop where
  file : ∀ path f, (path, f) ∈ t.tree.files [] → ∃ content,
    state.disk.lookup path = some (.file content f.lastModified) ∧
      content.length = f.numBytes ∧ state.versions f.hash = some content
  only : ∀ path content mtime, state.disk.lookup path = some (.file content mtime) →
    ∃ f, (path, f) ∈ t.tree.files []

/-- A file on disk whose size and time match the commit's has its content. -/
def StatFaithful (repo : LocalRepository) (state : RepoState) (t : CommitTree db) : Prop :=
  ∀ path f content mtime, (path, f) ∈ t.tree.files [] →
    state.disk.lookup path = some (.file content mtime) →
      StatMatches repo state.disk path f.lastModified f.numBytes → state.versions f.hash = some content

/-- The version store has every file of the commit. -/
def HasVersions (state : RepoState) (t : CommitTree db) : Prop :=
  ∀ path f, (path, f) ∈ t.tree.files [] → ∃ content, state.versions f.hash = some content

theorem CleanAt.of_forall {state : RepoState} {t : CommitTree db}
    (hfile : ∀ x ∈ t.tree.files [], ∃ content ∈ state.versions x.2.hash,
      state.disk.lookup x.1 = some (.file content x.2.lastModified) ∧
        content.length = x.2.numBytes)
    (honly : ∀ path ∈ state.disk.entries.keys,
      state.disk.lookup path = some .dir ∨ path ∈ (t.tree.files []).map Prod.fst) :
    CleanAt state t where
  file path f hf := by
    obtain ⟨content, hv, hl, hlen⟩ := hfile (path, f) hf
    exact ⟨content, hl, hlen, hv⟩
  only path content mtime hl := by
    have hne : path ≠ [] := by
      rintro rfl
      simp at hl
    have hmem : path ∈ state.disk.entries := by
      rw [WorkingTree.lookup_of_ne_nil _ hne] at hl
      exact AList.lookup_isSome.mp (by simp [hl])
    rcases honly path (AList.mem_keys.mp hmem) with hdir | hfiles
    · exact absurd (hl.symm.trans hdir) (by simp)
    · obtain ⟨⟨_, f⟩, hf, rfl⟩ := List.mem_map.mp hfiles
      exact ⟨f, hf⟩

theorem StatFaithful.of_forall {repo : LocalRepository} {state : RepoState} {t : CommitTree db}
    (h : ∀ x ∈ t.tree.files [], ∀ content ∈ state.disk.content x.1,
      state.versions x.2.hash = some content) : StatFaithful repo state t :=
  fun path f content mtime hf hl _ =>
    h (path, f) hf content (WorkingTree.content_eq_some_iff.mpr ⟨mtime, hl⟩)

theorem HasVersions.of_forall {state : RepoState} {t : CommitTree db}
    (h : ∀ x ∈ t.tree.files [], (state.versions x.2.hash).isSome) : HasVersions state t :=
  fun path f hf => Option.isSome_iff_exists.mp (h (path, f) hf)

/-- The checkout succeeds and leaves exactly the target's files. -/
def ChecksOut (repo : LocalRepository) (fuel : ℕ) (s t : CommitTree db) (state : RepoState) : Prop :=
  ∀ onConflict, ∃ state',
    (setWorkingRepoToCommit repo db fuel t.id (some s.id) onConflict).run state = .ok () state' ∧
      ∀ path content, (∃ mtime, state'.disk.lookup path = some (.file content mtime)) ↔
        ∃ f, (path, f) ∈ t.tree.files [] ∧ state.versions f.hash = some content

/-- The code can compute the time that either commit records for a file outside of the
directories and virtual nodes that they share. -/
def TimesInRange (s t : CommitTree db) : Prop :=
  ∀ parent f cs,
    FromReaches t.tree.containerHashes s.tree parent (.mk (.file f) cs) ∨
      FromReaches s.tree.containerHashes t.tree parent (.mk (.file f) cs) → f.hasTime = true

theorem mem_commonNodes {s t : CommitTree db} {h : MerkleHash}
    (hh : h ∈ commonNodes (some s) t) : h ∈ s.tree.containerHashes ∧ h ∈ t.tree.containerHashes := by
  simp only [commonNodes, Option.map_some, Option.getD_some, loaded, List.mem_filter,
    decide_eq_true_eq] at hh
  exact ⟨mem_containerHashes_of_prune hh.1, hh.2⟩

theorem CleanAt.statMatches {repo : LocalRepository} {state : RepoState} {t : CommitTree db}
    (h : CleanAt state t) {path : PathBuf} {f : FileNode} (hf : (path, f) ∈ t.tree.files []) :
    StatMatches repo state.disk path f.lastModified f.numBytes := by
  obtain ⟨content, hl, hlen, -⟩ := h.file path f hf
  exact ⟨_, metadata_file repo hl, withinTolerance_self _ _, hlen⟩

section Clean

variable {repo : LocalRepository} {state : RepoState} {s t : CommitTree db}

/-- A walk of the target that passes over common nodes only gets to a file, or the
file is one of the from tree that the from walk passes over too. -/
theorem reached_or_shared {pass : PathBuf → MerkleHash → Prop}
    (hpass : ∀ path hash, ¬ pass path hash → hash ∈ commonNodes (some s) t)
    (huniq : UniquePaths [] s.tree) (hplace : SharedInPlace s t) (hid : s.id ≠ t.id) {q : PathBuf}
    {f : FileNode} (h : (q, mk (.file f) []) ∈ t.tree.subtrees []) :
    Reaches pass t.tree q (.mk (.file f) []) ∨
      (q, mk (.file f) []) ∈ s.tree.subtrees [] ∧
        ¬ FromReaches t.tree.containerHashes s.tree q (.mk (.file f) []) := by
  rcases occurs_or_hidden (fun path n => pass (n.ownPath path) n.hash) h with
    ho | ⟨r, u, hu, hnot, hne, hf⟩
  · exact .inl (Reaches.of_occurs ho)
  · right
    obtain ⟨hs, ht⟩ := mem_commonNodes (hpass _ _ hnot)
    have hc := t.hasChildren_of_mem hu hne
    have hus := hplace.mem_subtrees hu hc hs
    refine ⟨mem_subtrees_trans hus hf, fun hr => ?_⟩
    exact (hr.occurs (CommitTree.mem_containerHashes_commit.mt hid)).pass_of_mem huniq hus hf hc ht

/-- A file of the target is compared, or it is a file of the from tree that the
from walk passes over too. -/
theorem compared_or_shared (huniq : UniquePaths [] s.tree) (hplace : SharedInPlace s t)
    (hid : s.id ≠ t.id) {q : PathBuf} {f : FileNode}
    (h : (q, mk (.file f) []) ∈ t.tree.subtrees []) :
    Compared state.disk (some s) t q (.mk (.file f) []) ∨
      (q, mk (.file f) []) ∈ s.tree.subtrees [] ∧
        ¬ FromReaches t.tree.containerHashes s.tree q (.mk (.file f) []) :=
  reached_or_shared (fun _ _ hnot => not_not.mp (Classical.not_imp.mp hnot).2) huniq hplace hid h

/-- A file of the from tree is within reach of the from walk or is the target's. -/
theorem fromReaches_or_shared (hplace : SharedInPlace s t) {q : PathBuf} {f : FileNode}
    (h : (q, mk (.file f) []) ∈ s.tree.subtrees []) :
    FromReaches t.tree.containerHashes s.tree q (.mk (.file f) []) ∨
      (q, mk (.file f) []) ∈ t.tree.subtrees [] := by
  rcases occurs_or_hidden (fun _ n => n.hash ∉ t.tree.containerHashes) h with
    ho | ⟨r, u, hu, hnot, hne, hf⟩
  · exact .inl (Reaches.of_occurs ho)
  · have hut := hplace.symm.mem_subtrees hu (s.hasChildren_of_mem hu hne) (not_not.mp hnot)
    exact .inr (mem_subtrees_trans hut hf)

/-- A file of the from tree lies outside of the containers that the target has too, or
both trees have it below a common container. -/
theorem outside_or_common (hplace : SharedInPlace s t) {q : PathBuf} {f : FileNode}
    (h : (q, mk (.file f) []) ∈ s.tree.subtrees []) :
    Occurs (fun _ n => n.hasChildren = true ∧ n.hash ∉ t.tree.containerHashes) [] s.tree q
        (.mk (.file f) []) ∨
      ∃ r u, (r, u) ∈ t.tree.subtrees [] ∧ u.node.hasChildren = true ∧
        u.hash ∈ commonNodes (some s) t ∧ (q, mk (.file f) []) ∈ u.subtrees r := by
  rcases occurs_or_hidden (fun _ n => n.hash ∉ commonNodes (some s) t) h with
    ho | ⟨r, u, hu, hnot, hne, hf⟩
  · exact .inl (ho.avoids_seen s.stored_tree fun _ hmem => hmem)
  · have hc := s.hasChildren_of_mem hu hne
    have hut := hplace.symm.mem_subtrees hu hc (mem_commonNodes (not_not.mp hnot)).2
    exact .inr ⟨r, u, hut, hc, not_not.mp hnot, hf⟩

/-- On a clean disk, a file of the target that is compared lies outside of the shared
containers of one of the trees. -/
theorem fromReaches_of_compared (ht : UniquePaths [] t.tree) (hplace : SharedInPlace s t)
    (hid : s.id ≠ t.id) (hclean : CleanAt state s) {q : PathBuf} {f : FileNode}
    (h : Compared state.disk (some s) t q (.mk (.file f) [])) :
    FromReaches t.tree.containerHashes s.tree q (.mk (.file f) []) ∨
      FromReaches s.tree.containerHashes t.tree q (.mk (.file f) []) := by
  rcases occurs_or_hidden (fun _ n => n.hash ∉ s.tree.containerHashes) h.mem_subtrees with
    ho | ⟨r, u, hu, hnot, hne, hf⟩
  · exact .inr (Reaches.of_occurs ho)
  left
  have hus := hplace.mem_subtrees hu (t.hasChildren_of_mem hu hne) (not_not.mp hnot)
  have hqs := mem_subtrees_trans hus hf
  rcases outside_or_common hplace hqs with ho | ⟨r', u', hu', hc', hcommon, hf'⟩
  · exact Reaches.of_occurs (ho.mono fun _ _ hout => hout.2)
  -- the walk of the target passes over a common container that is on disk
  exfalso
  have hroot : state.disk.isDir [] = true → t.id ∉ commonNodes (some s) t := fun _ hmem =>
    hid (CommitTree.mem_containerHashes_commit (mem_commonNodes hmem).1).symm
  have hpass := (h.occurs hroot).pass_of_mem ht hu' hf' hc'
  obtain ⟨rest, hrest⟩ := ownPath_prefix_of_mem hf' hc'
  obtain ⟨content, hl, -⟩ := hclean.file (q ++ f.name) f (mem_files_iff.mpr ⟨q, [], hqs, rfl⟩)
  have hname := s.length_file_name hqs
  have hbelow : rest ++ f.name ≠ [] := by
    intro hnil
    rw [(List.append_eq_nil_iff.mp hnil).2] at hname
    cases hname
  have hdir : state.disk.lookup (u'.node.ownPath r') = some .dir := by
    apply state.disk.isDir_of_isPrefix hbelow
    rw [← List.append_assoc, hrest, hl]
    exact Option.some_ne_none _
  exact hpass (by simp [WorkingTree.isDir, hdir]) hcommon

theorem file_of_partialNodes {path : PathBuf} {node : PartialNode}
    (h : (partialNodes (some s) t).lookup path = some node) :
    ∃ f, (path, f) ∈ s.tree.files [] ∧ node = f.toPartialNode := by
  simp only [partialNodes, Option.map_some, Option.getD_some, loaded] at h
  rcases KeyedMap.mem_of_lookup_insertAll h with hm | hm
  · simp at hm
  · obtain ⟨⟨p, f⟩, hf, heq⟩ := List.mem_map.mp hm
    obtain ⟨rfl, rfl⟩ := Prod.mk.inj heq
    obtain ⟨q, cs, hq, rfl⟩ := mem_files_iff.mp hf
    obtain ⟨⟨n, ds⟩, hfull, hn⟩ := mem_subtrees_of_prune hq
    obtain rfl : EMerkleTreeNode.file f = n := by simpa using congrArg node hn
    exact ⟨f, mem_files_iff.mpr ⟨q, ds, hfull, rfl⟩, rfl⟩

/-- A file of the from tree outside of the shared containers leaves a partial node. -/
theorem partialNodes_of_outside (huniq : UniquePaths [] s.tree) {q : PathBuf} {f : FileNode}
    (ho : Occurs (fun _ n => n.hasChildren = true ∧ n.hash ∉ t.tree.containerHashes) [] s.tree q
      (.mk (.file f) [])) :
    (partialNodes (some s) t).lookup (q ++ f.name) = some f.toPartialNode := by
  have hmem : (q ++ f.name, f) ∈ (s.tree.prune t.tree.containerHashes).files [] := by
    have := ho.mem_subtrees_prune
    rw [prune_mk, if_neg (by simp [EMerkleTreeNode.hasChildren])] at this
    exact mem_files_iff.mpr ⟨q, [], this, rfl⟩
  cases hl : (partialNodes (some s) t).lookup (q ++ f.name) with
  | none =>
      simp only [partialNodes, Option.map_some, Option.getD_some, loaded] at hl
      rw [KeyedMap.lookup_insertAll_empty_eq_none, List.map_map] at hl
      exact absurd (List.mem_map.mpr ⟨_, hmem, rfl⟩) hl
  | some node =>
      obtain ⟨g, hg, rfl⟩ := file_of_partialNodes hl
      rw [huniq.file_eq (mem_files_iff.mpr ⟨q, [], ho.mem_subtrees, rfl⟩) hg]

/-- A file of the from tree left a partial node or is the target's. -/
theorem partialNodes_or_shared (huniq : UniquePaths [] s.tree) (hplace : SharedInPlace s t)
    {path : PathBuf} {f : FileNode} (h : (path, f) ∈ s.tree.files []) :
    (partialNodes (some s) t).lookup path = some f.toPartialNode ∨
      (path, f) ∈ t.tree.files [] := by
  obtain ⟨q, cs, hq, rfl⟩ := mem_files_iff.mp h
  obtain rfl := s.children_file hq
  rcases outside_or_common hplace hq with ho | ⟨r, u, hu, -, -, hf⟩
  · exact .inl (partialNodes_of_outside huniq ho)
  · exact .inr (mem_files_iff.mpr ⟨q, [], mem_subtrees_trans hu hf, rfl⟩)

/-- A clean file is where the from tree has it, so it never looks edited. -/
theorem isModified_of_clean (hclean : CleanAt state s) {path : PathBuf} {f : FileNode}
    (hf : (path, f) ∈ s.tree.files []) (htime : f.hasTime = true) {disk : WorkingTree}
    (hl : disk.lookup path = none ∨ disk.lookup path = state.disk.lookup path) :
    repo.isModifiedFromNode disk path f = .ok false := by
  rcases hl with hl | hl
  · exact isModifiedFromNode_none hl f
  · obtain ⟨content, hfile, hlen, -⟩ := hclean.file path f hf
    rw [isModifiedFromNode_congr hl]
    simp [LocalRepository.isModifiedFromNode, LocalRepository.classifyModifiedFromNode,
      LocalRepository.metadata, hfile, hlen, htime, LocalRepository.mtimeMatches, bind, Except.bind]

section Target

variable (hs : UniquePaths [] s.tree) (ht : UniquePaths [] t.tree) (hplace : SharedInPlace s t)
  (hclean : CleanAt state s)

variable (repo) in
include hclean in
theorem partialNode_matches {path : PathBuf} {node : PartialNode}
    (hn : (partialNodes (some s) t).lookup path = some node) :
    ∃ f, (path, f) ∈ s.tree.files [] ∧
      StatMatches repo state.disk path node.lastModified node.size := by
  obtain ⟨f, hf, rfl⟩ := file_of_partialNodes hn
  exact ⟨f, hf, hclean.statMatches hf⟩

include hs ht hplace hclean

variable (repo) in
/-- A file of the target that a clean file stands in for has its size and time,
or the clean file is known to come from the from tree. -/
theorem matches_of_clean {path : PathBuf} {f : FileNode} (hf : (path, f) ∈ t.tree.files [])
    {content : Content} {mtime : FileTime}
    (hl : state.disk.lookup path = some (.file content mtime)) :
    StatMatches repo state.disk path f.lastModified f.numBytes ∨
      ∃ node, (partialNodes (some s) t).lookup path = some node ∧
        StatMatches repo state.disk path node.lastModified node.size := by
  obtain ⟨g, hg⟩ := hclean.only path content mtime hl
  rcases partialNodes_or_shared hs hplace hg with hn | hgt
  · exact .inr ⟨_, hn, hclean.statMatches hg⟩
  · left
    rw [ht.file_eq hf hgt]
    exact hclean.statMatches hg

theorem not_fileDiverged_of_clean (onConflict : OnConflict) {path : PathBuf} {f : FileNode}
    (hf : (path, f) ∈ t.tree.files []) :
    ¬ FileDiverged (checkoutContext repo state.disk (some s) t onConflict) path f := by
  rintro (⟨hl, node, hn, -⟩ | ⟨content, mtime, hl, hstat, -, hnode⟩)
  · obtain ⟨g, hg, -⟩ := partialNode_matches repo hclean hn
    obtain ⟨content, hfile, -⟩ := hclean.file path g hg
    exact absurd (hl.symm.trans hfile) (by simp)
  · rcases matches_of_clean repo hs ht hplace hclean hf hl with hm | ⟨node, hn, hm⟩
    · exact hstat hm
    · exact (hnode node hn).1 hm

omit hs ht hplace in
theorem not_dirDiverged_of_clean (onConflict : OnConflict) (path : PathBuf) :
    ¬ DirDiverged (checkoutContext repo state.disk (some s) t onConflict) path := by
  rintro ⟨content, mtime, node, hl, hn, hstat, -⟩
  obtain ⟨g, hg, hm⟩ := partialNode_matches repo hclean hn
  exact hstat hm

omit hs in
variable (repo) in
theorem not_overflows_of_clean (hid : s.id ≠ t.id) (htimes : TimesInRange s t)
    (hdir : ∀ path f, (path, f) ∈ t.tree.files [] → ¬ state.disk.isDir path) {q : PathBuf}
    {f : FileNode} (h : Compared state.disk (some s) t q (.mk (.file f) [])) :
    ¬ TimeOverflows repo state.disk (q ++ f.name) f := by
  have hf : (q ++ f.name, f) ∈ t.tree.files [] := mem_files_iff.mpr ⟨_, _, h.mem_subtrees, rfl⟩
  have htime : f.hasTime = true :=
    htimes q f [] (fromReaches_of_compared ht hplace hid hclean h)
  rintro ⟨hl, hnot⟩
  refine hnot ⟨htime, fun metadata hm => .inr ?_⟩
  cases hentry : state.disk.lookup (q ++ f.name) with
  | none => exact absurd hentry hl
  | some entry =>
      cases entry with
      | dir => exact absurd (by simp [WorkingTree.isDir, hentry]) (hdir _ f hf)
      | file content mtime =>
          obtain ⟨g, hg⟩ := hclean.only _ content mtime hentry
          obtain ⟨content', hl', -⟩ := hclean.file _ g hg
          obtain rfl := Option.some.inj ((metadata_file repo hl').symm.trans hm)
          apply FileNode.lastModified_nonneg
          obtain ⟨q', cs, hq', hpath⟩ := mem_files_iff.mp hg
          obtain rfl := s.children_file hq'
          rcases fromReaches_or_shared hplace hq' with hr | hshared
          · exact htimes q' g [] (.inl hr)
          · have hgt : (q ++ f.name, g) ∈ t.tree.files [] :=
              mem_files_iff.mpr ⟨q', [], hshared, hpath⟩
            rwa [← ht.file_eq hf hgt]

omit hs ht hplace in
theorem not_dirUnreadable_of_clean (onConflict : OnConflict) (path : PathBuf) :
    ¬ DirUnreadable (checkoutContext repo state.disk (some s) t onConflict) path := by
  rintro ⟨content, mtime, node, hl, hn, hne, -⟩
  obtain ⟨g, hg, rfl⟩ := file_of_partialNodes hn
  obtain ⟨content', hl', -⟩ := hclean.file path g hg
  exact hne (FsEntry.file.inj (Option.some.inj (hl.symm.trans hl'))).2

/-- The target walk on a clean disk fails only on directories in place of files and
on times that overflow. -/
theorem walkTargetTree_of_clean (onConflict : OnConflict) (hid : s.id ≠ t.id)
    (htimes : TimesInRange s t)
    (hdir : ∀ path f, (path, f) ∈ t.tree.files [] → ¬ state.disk.isDir path) :
    ∃ results, walkTargetTree (checkoutContext repo state.disk (some s) t onConflict) t.tree =
      .ok results ∧ results.cannotOverwriteEntries = [] := by
  have hfile : ∀ {path f cs}, Compared state.disk (some s) t path (.mk (.file f) cs) →
      (path ++ f.name, f) ∈ t.tree.files [] :=
    fun hr => mem_files_iff.mpr ⟨_, _, hr.mem_subtrees, rfl⟩
  cases hw : walkTargetTree (checkoutContext repo state.disk (some s) t onConflict) t.tree with
  | error e =>
      rcases exists_unreadable_of_walk_error hw with
        ⟨path, f, cs, hr, hover | hu⟩ | ⟨path, d, vnodes, -, hu⟩
      · obtain rfl := t.children_file hr.mem_subtrees
        exact absurd hover (not_overflows_of_clean repo ht hplace hclean hid htimes hdir hr)
      · have hl : state.disk.lookup (path ++ f.name) = some .dir := hu.1
        exact absurd (by simp [WorkingTree.isDir, hl]) (hdir _ _ (hfile hr))
      · exact absurd hu (not_dirUnreadable_of_clean hclean onConflict _)
  | ok results =>
      refine ⟨results, rfl, ?_⟩
      by_contra hne
      rcases diverged_of_conflict hw hne with ⟨path, f, cs, hr, hd⟩ | ⟨path, d, vnodes, hr, hd⟩
      · exact not_fileDiverged_of_clean hs ht hplace hclean onConflict (hfile hr) hd
      · exact not_dirDiverged_of_clean hclean onConflict _ hd

/-- A compared file is restored exactly when the disk does not match it already. -/
theorem mem_filesToRestore_of_clean {onConflict : OnConflict} {results : CheckoutResult}
    (hw : walkTargetTree (checkoutContext repo state.disk (some s) t onConflict) t.tree =
      .ok results)
    (hc : results.cannotOverwriteEntries = []) {path : PathBuf} {f : FileNode} :
    ⟨f, path⟩ ∈ results.filesToRestore ↔
      (∃ parent cs, Compared state.disk (some s) t parent (.mk (.file f) cs) ∧
        path = parent ++ f.name) ∧
      ¬ StatMatches repo state.disk path f.lastModified f.numBytes := by
  rw [mem_filesToRestore_iff hw]
  have hreads : ∀ {path verdict}, targetFileVerdict (checkoutContext repo state.disk (some s) t
      onConflict) path f = .ok verdict →
        ¬ FileUnreadable (checkoutContext repo state.disk (some s) t onConflict) path f := by
    intro path verdict hverdict hu
    obtain ⟨e, he⟩ := targetFileVerdict_error_iff.mpr hu
    exact absurd (he.symm.trans hverdict) (by simp)
  constructor
  · rintro ⟨parent, cs, hv, rfl, hverdict⟩
    refine ⟨⟨parent, cs, TargetVisits.reaches hv, rfl⟩, fun hm => ?_⟩
    have hkeep : targetFileVerdict (checkoutContext repo state.disk (some s) t onConflict)
        (parent ++ f.name) f = .ok .keep :=
      targetFileVerdict_keep (fun hover => hreads hverdict (.inl hover)) hm
    rw [hkeep] at hverdict
    cases hverdict
  · rintro ⟨⟨parent, cs, hr, rfl⟩, hstat⟩
    have hv := visits_of_reaches hw hc hr
    refine ⟨parent, cs, hv, rfl, ?_⟩
    have hf : (parent ++ f.name, f) ∈ t.tree.files [] :=
      mem_files_iff.mpr ⟨_, _, hr.mem_subtrees, rfl⟩
    obtain ⟨verdict, hverdict⟩ := fileVerdict_of_walk hw hv
    cases hl : state.disk.lookup (parent ++ f.name) with
    | none =>
        rw [targetFileVerdict_none (show (checkoutContext repo state.disk (some s) t
          onConflict).disk.lookup _ = none from hl)]
        cases hn : (checkoutContext repo state.disk (some s) t onConflict).partialNodes.lookup
          (parent ++ f.name) with
        | none => rfl
        | some node =>
            obtain ⟨g, hg, -⟩ := partialNode_matches repo hclean hn
            obtain ⟨content, hfile, -⟩ := hclean.file _ g hg
            exact absurd (hl.symm.trans hfile) (by simp)
    | some entry =>
        cases entry with
        | file content mtime =>
            obtain ⟨node, hn, hm⟩ := (matches_of_clean repo hs ht hplace hclean hf
              hl).resolve_left hstat
            exact targetFileVerdict_restore (fun hover => hreads hverdict (.inl hover)) hstat hn hm
        | dir =>
            exfalso
            refine hreads hverdict (.inr ⟨hl, hstat, fun node hn _ => ?_⟩)
            obtain ⟨g, hg, -⟩ := partialNode_matches repo hclean hn
            obtain ⟨content, hfile, -⟩ := hclean.file _ g hg
            exact absurd (hl.symm.trans hfile) (by simp)

end Target

/-- What a clean disk looks like once replaced and removed files are gone. -/
structure CleanedUp (state state₂ : RepoState) (s t : CommitTree db) : Prop where
  versions : state.versions.Extends state₂.versions
  lookup : ∀ path, state₂.disk.lookup path = state.disk.lookup path ∨
    state₂.disk.lookup path = none
  replaced : ∀ path, BlocksDir state.disk (some s) t path → state₂.disk.lookup path = none
  removed : ∀ path f, Leftover state.disk (some s) t s path f → state₂.disk.lookup path = none
  kept : ∀ path f, (path, f) ∈ s.tree.files [] → ¬ BlocksDir state.disk (some s) t path →
    ¬ Leftover state.disk (some s) t s path f → state₂.disk.lookup path = state.disk.lookup path

section Cleanup

variable (hs : UniquePaths [] s.tree) (hid : s.id ≠ t.id) (hclean : CleanAt state s)
  (hload : ¬ loadPanics (some s) t = true)
  {onConflict : OnConflict} {results : CheckoutResult}
  (hw : walkTargetTree (checkoutContext repo state.disk (some s) t onConflict) t.tree =
    .ok results)
  (hc : results.cannotOverwriteEntries = []) {state₁ : RepoState}
  (hlook : ∀ path,
    (BlocksDir state.disk (some s) t path ∧ state₁.disk.lookup path = none) ∨
      (¬ BlocksDir state.disk (some s) t path ∧
        state₁.disk.lookup path = state.disk.lookup path))

include hid hclean hlook hload

/-- The from walk on a clean disk finds no conflict, and every file it wants to
back up is there. -/
private theorem visitFromFile_of_clean (seenPaths : List PathBuf) {parent : PathBuf} {f : FileNode}
    {cs : List MerkleTreeNode}
    (hr : FromReaches (commonNodes (some s) t) (s.tree.prune t.tree.containerHashes) parent
      (.mk (.file f) cs)) :
    ∃ event, visitFromFile
        { repo, disk := state₁.disk, commonNodes := commonNodes (some s) t, seenPaths, onConflict }
        (parent ++ f.name) f = .ok event ∧
      event.cannotOverwriteEntries = [] ∧
      (∀ file ∈ event.filesToStore, ∃ content, state₁.disk.content file.2 = some content) ∧
      event.pathsToRemove =
        if parent ++ f.name ∉ seenPaths ∧ state₁.disk.pathExists (parent ++ f.name) then
          [parent ++ f.name] else [] := by
  have hseen := CommitTree.mem_containerHashes_commit.mt hid
  obtain ⟨cs', hr'⟩ := (fromReaches_file_prune_iff s hseen).mp ⟨cs, hr⟩
  have hf : (parent ++ f.name, f) ∈ s.tree.files [] :=
    mem_files_iff.mpr ⟨_, _, hr'.mem_subtrees, rfl⟩
  have htime : f.hasTime = true := by
    by_contra htime
    exact hload ((@loadPanics_iff db (some s) t fun h => hid (Option.some.inj h)).mpr
      ⟨s, parent, f, cs', rfl, hr', Bool.eq_false_iff.mpr htime⟩)
  have hmod : repo.isModifiedFromNode state₁.disk (parent ++ f.name) f = .ok false := by
    refine isModified_of_clean hclean hf htime ?_
    rcases hlook (parent ++ f.name) with ⟨-, hl⟩ | ⟨-, hl⟩
    · exact .inl hl
    · exact .inr hl
  have hcontent : state₁.disk.pathExists (parent ++ f.name) = true →
      ∃ content, state₁.disk.content (parent ++ f.name) = some content := by
    intro hex
    obtain ⟨content, hl, -⟩ := hclean.file _ f hf
    rcases hlook (parent ++ f.name) with ⟨-, hnone⟩ | ⟨-, hsame⟩
    · simp [WorkingTree.pathExists, hnone] at hex
    · exact ⟨content, WorkingTree.content_eq_some_iff.mpr ⟨_, hsame.trans hl⟩⟩
  by_cases hex : state₁.disk.pathExists (parent ++ f.name) = true
  · by_cases hin : parent ++ f.name ∈ seenPaths
    · cases hr : repo.isRemoteMode <;>
        simp [visitFromFile, hin, hex, hmod, hr, Except.map, hcontent hex]
    · cases hr : repo.isRemoteMode <;>
        simp [visitFromFile, hin, hex, hmod, hr, Except.map, hcontent hex]
  · by_cases hin : parent ++ f.name ∈ seenPaths <;> simp [visitFromFile, hin, hex]

include hs hw hc

theorem cleanupRemovedFiles_of_clean (hver : state.versions.Extends state₁.versions) :
    ∃ state₂, (cleanupRemovedFiles repo (s.tree.prune t.tree.containerHashes)
        (commonNodes (some s) t) results.seenPaths onConflict).run state₁ = .ok () state₂ ∧
      CleanedUp state state₂ s t := by
  have hseen := CommitTree.mem_containerHashes_commit.mt hid
  have hvisit := fun {parent f cs} => @visitFromFile_of_clean db repo state s t hid hclean
    hload onConflict state₁ hlook results.seenPaths parent f cs
  obtain ⟨candidates, hcand⟩ := @walkFromTree_isOk
    { repo, disk := state₁.disk, commonNodes := commonNodes (some s) t,
      seenPaths := results.seenPaths, onConflict } (s.tree.prune t.tree.containerHashes)
    (fun parent c cs hr => root_of_reaches_prune s hseen hr)
    (fun parent f cs hr => (hvisit hr).imp fun _ h => h.1)
  have hnone : candidates.cannotOverwriteEntries = [] := by
    rw [List.eq_nil_iff_forall_not_mem]
    intro conflict hmem
    obtain ⟨parent, f, cs, event, hr, hok, hx⟩ := (mem_conflicts_iff hcand).mp hmem
    obtain ⟨event', hok', hempty, -⟩ := hvisit hr
    obtain rfl := Except.ok.inj (hok.symm.trans hok')
    simp [hempty] at hx
  have hstore : ∀ file ∈ candidates.filesToStore,
      ∃ content, state₁.disk.content file.2 = some content := by
    intro file hmem
    obtain ⟨parent, f, cs, event, hr, hok, hx⟩ := (mem_filesToStore_iff hcand).mp hmem
    obtain ⟨event', hok', -, hfiles, -⟩ := hvisit hr
    obtain rfl := Except.ok.inj (hok.symm.trans hok')
    exact hfiles file hx
  have hfile : ∀ path f, Leftover state.disk (some s) t s path f → (path, f) ∈ s.tree.files [] := by
    rintro _ f ⟨⟨parent, cs, hr, rfl⟩, -⟩
    exact mem_files_iff.mpr ⟨_, _, hr.mem_subtrees, rfl⟩
  have hremoved : ∀ path f, Leftover state.disk (some s) t s path f →
      state₁.disk.pathExists path = true → path ∈ candidates.pathsToRemove := by
    rintro path f ⟨⟨parent, cs, hr, rfl⟩, hnot⟩ hex
    obtain ⟨cs', hr'⟩ := (fromReaches_file_prune_iff s hseen).mpr ⟨cs, hr⟩
    obtain ⟨event, hok, -, -, hpaths⟩ := hvisit hr'
    refine mem_pathsToRemove_of_file hcand hr' hok ?_
    rw [← mem_seenPaths_iff_compared hw hc] at hnot
    rw [hpaths, if_pos ⟨hnot, hex⟩]
    exact List.mem_singleton.mpr rfl
  have hkept : ∀ path f, (path, f) ∈ s.tree.files [] →
      ¬ Leftover state.disk (some s) t s path f → path ∉ candidates.pathsToRemove := by
    intro path f hf hleft hmem
    rcases pathsToRemove_cases hcand hmem with ⟨parent, g, cs, event, hr, hok, hx⟩ | ⟨q, d, vnodes, hr, rfl⟩
    · obtain ⟨event', hok', -, -, hpaths⟩ := hvisit hr
      obtain rfl := Except.ok.inj (hok.symm.trans hok')
      rw [hpaths] at hx
      split at hx
      · rename_i hout
        obtain rfl := List.mem_singleton.mp hx
        obtain ⟨cs', hr'⟩ := (fromReaches_file_prune_iff s hseen).mp ⟨cs, hr⟩
        obtain rfl := hs.file_eq hf (mem_files_iff.mpr ⟨_, _, hr'.mem_subtrees, rfl⟩)
        refine hleft ⟨⟨parent, cs', hr', rfl⟩, ?_⟩
        rw [← mem_seenPaths_iff_compared hw hc]
        exact hout.1
      · cases hx
    · obtain ⟨⟨n, ds⟩, heq, hr'⟩ := (fromReaches_prune_iff s hseen).mp hr
      obtain rfl : EMerkleTreeNode.directory d = n := by simpa using congrArg node heq
      exact hs.not_directory hf hr'.mem_subtrees rfl
  obtain ⟨state₂, hrun₂, hver₂, hlook₂, hgone⟩ := applyCleanup_run repo hstore
  have hnone₂ : ∀ path, state₁.disk.lookup path = none → state₂.disk.lookup path = none := by
    intro path h
    rcases hlook₂ path with h₂ | h₂
    · rw [h₂, h]
    · exact h₂.2
  refine ⟨state₂, ?_, ⟨?_, fun path => ?_, fun path hb => ?_, fun path f hl => ?_,
    fun path f hf hb hl => ?_⟩⟩
  · rw [cleanupRemovedFiles_run, hcand]
    simpa only [hnone, ne_eq, not_true_eq_false, if_false] using hrun₂
  · exact hver.trans hver₂
  · rcases hlook path with ⟨-, hl⟩ | ⟨-, hl⟩
    · exact .inr (hnone₂ path hl)
    · rw [← hl]
      exact (hlook₂ path).imp_right And.right
  · rcases hlook path with ⟨-, hl⟩ | ⟨hnb, -⟩
    · exact hnone₂ path hl
    · exact absurd hb hnb
  · cases hl₁ : state₁.disk.lookup path with
    | none => exact hnone₂ path hl₁
    | some entry =>
        have hex : state₁.disk.pathExists path = true := by simp [WorkingTree.pathExists, hl₁]
        refine hgone path (hremoved path f hl hex) ?_
        obtain ⟨content, hfile, -⟩ := hclean.file path f (hfile path f hl)
        rcases hlook path with ⟨-, hnone⟩ | ⟨-, hsame⟩
        · simp [hnone]
        · simp [hsame, hfile]
  · have hl₁ := ((hlook path).resolve_left fun h => hb h.1).2
    rcases hlook₂ path with h₂ | ⟨hmem, -⟩
    · exact h₂.trans hl₁
    · exact absurd hmem (hkept path f hf hl)

end Cleanup

end Clean

end Oxen
