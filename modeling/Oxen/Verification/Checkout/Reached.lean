import Oxen.Verification.Checkout.Clean

/-! From a clean working tree a checkout reaches its target unless a directory
is in the place of a file or a time overflows. -/

namespace Oxen

open MerkleTreeNode

variable {db : NodeStore} {repo : LocalRepository} {state : RepoState} {s t : CommitTree db}

theorem file_path_ne_nil {path : PathBuf} {f : FileNode} (h : (path, f) ∈ t.tree.files []) :
    path ≠ [] := by
  obtain ⟨q, cs, hq, rfl⟩ := mem_files_iff.mp h
  have := t.length_file_name hq
  rintro hnil
  rw [(List.append_eq_nil_iff.mp hnil).2] at this
  cases this

/-- The parent of a file is determined by the file's path. -/
theorem parent_eq {u : CommitTree db} {q q' : PathBuf} {f g : FileNode} {cs cs' : List MerkleTreeNode}
    (h : (q, mk (.file f) cs) ∈ t.tree.subtrees []) (h' : (q', mk (.file g) cs') ∈ u.tree.subtrees [])
    (heq : q ++ f.name = q' ++ g.name) : q = q' := by
  have hlen := (t.length_file_name h).trans (u.length_file_name h').symm
  exact (List.append_inj' heq hlen).1

/-- Above a compared file there are compared directories. -/
theorem compared_directory_of_prefix {parent : PathBuf} {f : FileNode} {cs : List MerkleTreeNode}
    (h : Compared state.disk (some s) t parent (.mk (.file f) cs)) {q rest : PathBuf} (hq : q ≠ [])
    (hrest : rest ≠ []) (hp : parent ++ f.name = q ++ rest) :
    ∃ dirParent d vnodes, Compared state.disk (some s) t dirParent (.mk (.directory d) vnodes) ∧
      q = dirParent ++ d.name := by
  obtain ⟨name, hname⟩ := List.length_eq_one_iff.mp (t.length_file_name h.mem_subtrees)
  refine @Reaches.exists_directory_of_isPrefix _ _ _ _ _ h q rest.dropLast hq ?_
  have := congrArg List.dropLast hp
  rwa [hname, List.dropLast_concat, List.dropLast_append_of_ne_nil hrest] at this

section Outcome

variable (hs : UniquePaths [] s.tree) (ht : UniquePaths [] t.tree) (hplace : SharedInPlace s t)
  (hid : s.id ≠ t.id) (hclean : CleanAt state s) (hfaithful : StatFaithful repo state t)
  (hversions : HasVersions state t) {onConflict : OnConflict} {results : CheckoutResult}
  (hw : walkTargetTree (checkoutContext repo state.disk (some s) t onConflict) t.tree =
    .ok results)
  (hc : results.cannotOverwriteEntries = []) {state₂ : RepoState}
  (hcleaned : CleanedUp state state₂ s t)

include hs ht hplace hclean hw hc

theorem file_of_mem_filesToRestore {path : PathBuf} {f : FileNode}
    (h : ⟨f, path⟩ ∈ results.filesToRestore) : (path, f) ∈ t.tree.files [] := by
  obtain ⟨⟨parent, cs, hr, rfl⟩, -⟩ :=
    (mem_filesToRestore_of_clean hs ht hplace hclean hw hc).mp h
  exact mem_files_iff.mpr ⟨_, _, hr.mem_subtrees, rfl⟩

theorem separate_filesToRestore : Separate results.filesToRestore := by
  rintro ⟨f, path⟩ hr ⟨f', path'⟩ hr'
  have hf := file_of_mem_filesToRestore hs ht hplace hclean hw hc hr
  have hf' := file_of_mem_filesToRestore hs ht hplace hclean hw hc hr'
  refine ⟨?_, fun rest hrest heq => ?_⟩
  · rintro rfl
    rw [ht.file_eq hf hf']
  · obtain ⟨⟨parent, cs, hcmp, hpath⟩, -⟩ :=
      (mem_filesToRestore_of_clean hs ht hplace hclean hw hc).mp hr'
    obtain ⟨dirParent, d, vnodes, hd, hp⟩ :=
      compared_directory_of_prefix hcmp (file_path_ne_nil hf) hrest (hpath.symm.trans heq)
    exact ht.not_directory hf hd.mem_subtrees hp

include hversions hcleaned

theorem canRestore_of_clean
    (htimes : TimesInRange s t) (hid : s.id ≠ t.id)
    (hdir : ∀ path f, (path, f) ∈ t.tree.files [] → ¬ state.disk.isDir path) :
    ∀ r ∈ results.filesToRestore, CanRestore state₂ repo r := by
  rintro ⟨f, path⟩ hr
  have hf := file_of_mem_filesToRestore hs ht hplace hclean hw hc hr
  obtain ⟨⟨parent, cs, hcmp, hpath⟩, hstat⟩ :=
    (mem_filesToRestore_of_clean hs ht hplace hclean hw hc).mp hr
  obtain rfl := t.children_file hcmp.mem_subtrees
  refine ⟨file_path_ne_nil hf, fun hl => ?_, fun q rest hrest heq content mtime hl => ?_, ?_,
    fun hm => ?_, htimes parent f [] (fromReaches_of_compared ht hplace hid hclean hcmp)⟩
  · rcases hcleaned.lookup path with h | h
    · exact hdir path f hf (by simpa [WorkingTree.isDir] using h.symm.trans hl)
    · exact absurd (h.symm.trans hl) (by simp)
  · have hq : q ≠ [] := by
      rintro rfl
      simp at hl
    obtain ⟨dirParent, d, vnodes, hd, rfl⟩ :=
      compared_directory_of_prefix hcmp hq hrest (hpath.symm.trans heq)
    rcases hcleaned.lookup (dirParent ++ d.name) with h | h
    · have hb : BlocksDir state.disk (some s) t (dirParent ++ d.name) :=
        ⟨⟨dirParent, d, vnodes, hd, rfl⟩, content, mtime, h.symm.trans hl⟩
      exact absurd (hl.symm.trans (hcleaned.replaced _ hb)) (by simp)
    · exact absurd (h.symm.trans hl) (by simp)
  · obtain ⟨content, h⟩ := hversions path f hf
    exact ⟨content, hcleaned.versions _ _ h⟩
  · exfalso
    obtain ⟨metadata, hmeta, hmatch⟩ := hm
    rcases hcleaned.lookup path with h | h
    · refine hstat ⟨metadata, ?_, hmatch⟩
      rw [← hmeta]
      simp only [LocalRepository.metadata, h]
    · rw [metadata_none _ h] at hmeta
      cases hmeta

include hid hfaithful

omit hversions in
/-- A file of the target that the checkout leaves alone was on disk already. -/
theorem untouched_of_clean
    (hdir : ∀ path f, (path, f) ∈ t.tree.files [] → ¬ state.disk.isDir path) {path : PathBuf}
    {f : FileNode} (hf : (path, f) ∈ t.tree.files [])
    (hnot : ⟨f, path⟩ ∉ results.filesToRestore) :
    ∃ content mtime, state.disk.lookup path = some (.file content mtime) ∧
      state.versions f.hash = some content ∧ state₂.disk.lookup path = state.disk.lookup path := by
  obtain ⟨q, cs, hq, rfl⟩ := mem_files_iff.mp hf
  obtain rfl := t.children_file hq
  have hnb : ¬ BlocksDir state.disk (some s) t (q ++ f.name) := by
    rintro ⟨⟨parent, d, vnodes, hd, hp⟩, -⟩
    exact ht.not_directory hf hd.mem_subtrees hp
  rcases compared_or_shared hs hplace hid hq with hcmp | ⟨hsq, hnr⟩
  · rw [mem_filesToRestore_of_clean hs ht hplace hclean hw hc] at hnot
    have hstat : StatMatches repo state.disk (q ++ f.name) f.lastModified f.numBytes := by
      by_contra hstat
      exact hnot ⟨⟨q, [], hcmp, rfl⟩, hstat⟩
    obtain ⟨content, mtime, hl⟩ : ∃ content mtime,
        state.disk.lookup (q ++ f.name) = some (.file content mtime) := by
      cases hl : state.disk.lookup (q ++ f.name) with
      | none => exact absurd hstat (not_statMatches_of_none hl _ _)
      | some entry =>
          cases entry with
          | file content mtime => exact ⟨content, mtime, rfl⟩
          | dir => exact absurd (by simp [WorkingTree.isDir, hl]) (hdir _ f hf)
    obtain ⟨g, hg⟩ := hclean.only _ _ _ hl
    exact ⟨content, mtime, hl, hfaithful _ f content mtime hf hl hstat,
      hcleaned.kept _ g hg hnb fun hleft => hleft.2 ⟨q, f, [], hcmp, rfl⟩⟩
  · have hsf : (q ++ f.name, f) ∈ s.tree.files [] := mem_files_iff.mpr ⟨q, [], hsq, rfl⟩
    obtain ⟨content, hl, -, hcontent⟩ := hclean.file _ f hsf
    refine ⟨content, _, hl, hcontent, hcleaned.kept _ f hsf hnb ?_⟩
    rintro ⟨⟨parent, cs, hr, hp⟩, -⟩
    obtain rfl := parent_eq hsq hr.mem_subtrees hp
    obtain rfl := s.children_file hr.mem_subtrees
    exact hnr hr

variable {state₃ : RepoState} (hver : state₃.versions = state₂.versions)
  (hrestored : ∀ r ∈ results.filesToRestore, HasVersion state₃ r.path r.fileNode)
  (hothers : ∀ path ∉ results.filesToRestore.map (·.path),
    state₃.disk.lookup path = state₂.disk.lookup path ∨
      state₂.disk.lookup path = none ∧ state₃.disk.lookup path = some .dir)

include hver hrestored hothers

theorem restored_iff_of_clean
    (hdir : ∀ path f, (path, f) ∈ t.tree.files [] → ¬ state.disk.isDir path) (path : PathBuf)
    (content : Content) :
    (∃ mtime, state₃.disk.lookup path = some (.file content mtime)) ↔
      ∃ f, (path, f) ∈ t.tree.files [] ∧ state.versions f.hash = some content := by
  have hpresent : ∀ f, (path, f) ∈ t.tree.files [] → ∃ content mtime,
      state₃.disk.lookup path = some (.file content mtime) ∧
        state.versions f.hash = some content := by
    intro f hf
    by_cases hr : ⟨f, path⟩ ∈ results.filesToRestore
    · obtain ⟨content, mtime, hl, hv⟩ := hrestored _ hr
      obtain ⟨content', hv'⟩ := hversions path f hf
      rw [hver, hcleaned.versions _ _ hv'] at hv
      exact ⟨content, mtime, hl, hv'.trans hv⟩
    · obtain ⟨content, mtime, hl, hv, hsame⟩ := untouched_of_clean hs ht hplace hid hclean
        hfaithful hw hc hcleaned hdir hf hr
      have hout : path ∉ results.filesToRestore.map (·.path) := by
        rintro hmem
        obtain ⟨⟨g, _⟩, hg, rfl⟩ := List.mem_map.mp hmem
        have := file_of_mem_filesToRestore hs ht hplace hclean hw hc hg
        rw [ht.file_eq hf this] at hr
        exact hr hg
      rcases hothers path hout with h | ⟨h, -⟩
      · exact ⟨content, mtime, h.trans (hsame.trans hl), hv⟩
      · exact absurd (h.symm.trans (hsame.trans hl)) (by simp)
  constructor
  · rintro ⟨mtime, hl⟩
    have hf : ∃ f, (path, f) ∈ t.tree.files [] := by
      by_cases hin : path ∈ results.filesToRestore.map (·.path)
      · obtain ⟨⟨f, _⟩, hr, rfl⟩ := List.mem_map.mp hin
        exact ⟨f, file_of_mem_filesToRestore hs ht hplace hclean hw hc hr⟩
      · have hl₂ : state₂.disk.lookup path = some (.file content mtime) := by
          rcases hothers path hin with h | ⟨-, h⟩
          · exact h.symm.trans hl
          · exact absurd (h.symm.trans hl) (by simp)
        have hl₀ : state.disk.lookup path = some (.file content mtime) := by
          rcases hcleaned.lookup path with h | h
          · exact h.symm.trans hl₂
          · exact absurd (h.symm.trans hl₂) (by simp)
        obtain ⟨g, hg⟩ := hclean.only _ _ _ hl₀
        obtain ⟨q, cs, hq, rfl⟩ := mem_files_iff.mp hg
        obtain rfl := s.children_file hq
        rcases fromReaches_or_shared hplace hq with hr | hshared
        · by_contra hnone
          have hleft : Leftover state.disk (some s) t s (q ++ g.name) g := by
            refine ⟨⟨q, [], hr, rfl⟩, ?_⟩
            rintro ⟨parent, f, cs, hcmp, hp⟩
            exact hnone ⟨f, mem_files_iff.mpr ⟨parent, cs, hcmp.mem_subtrees, hp⟩⟩
          exact absurd (hl₂.symm.trans (hcleaned.removed _ g hleft)) (by simp)
        · exact ⟨g, mem_files_iff.mpr ⟨q, [], hshared, rfl⟩⟩
    obtain ⟨f, hf⟩ := hf
    obtain ⟨content', mtime', hl', hv⟩ := hpresent f hf
    obtain ⟨rfl, rfl⟩ := FsEntry.file.inj (Option.some.inj (hl.symm.trans hl'))
    exact ⟨f, hf, hv⟩
  · rintro ⟨f, hf, hv⟩
    obtain ⟨content', mtime, hl, hv'⟩ := hpresent f hf
    obtain rfl := Option.some.inj (hv.symm.trans hv')
    exact ⟨mtime, hl⟩

end Outcome

/-! ## Directories in place of files -/

section Blocked

variable (hs : UniquePaths [] s.tree) (ht : UniquePaths [] t.tree) (hplace : SharedInPlace s t)
  (hclean : CleanAt state s) {onConflict : OnConflict} {results : CheckoutResult}
  (hw : walkTargetTree (checkoutContext repo state.disk (some s) t onConflict) t.tree =
    .ok results)
  (hc : results.cannotOverwriteEntries = [])

include hs ht hplace hclean hw hc

/-- The walk succeeds on a directory in place of a file only when its size and
time pass for the file's, and then the file is not restored. -/
theorem not_restored_of_isDir {path : PathBuf} {f : FileNode} (hf : (path, f) ∈ t.tree.files [])
    (hl : state.disk.lookup path = some .dir) : path ∉ results.filesToRestore.map (·.path) := by
  rintro hmem
  obtain ⟨⟨g, _⟩, hg, rfl⟩ := List.mem_map.mp hmem
  obtain rfl := ht.file_eq hf (file_of_mem_filesToRestore hs ht hplace hclean hw hc hg)
  obtain ⟨⟨parent, cs, hcmp, rfl⟩, hstat⟩ :=
    (mem_filesToRestore_of_clean hs ht hplace hclean hw hc).mp hg
  obtain ⟨verdict, hverdict⟩ := fileVerdict_of_walk hw (visits_of_reaches hw hc hcmp)
  obtain ⟨e, he⟩ := targetFileVerdict_error_iff.mpr
    (show FileUnreadable (checkoutContext repo state.disk (some s) t onConflict)
        (parent ++ f.name) f from .inr ⟨hl, hstat, fun node hn => by
      obtain ⟨g, hg, -⟩ := partialNode_matches repo hclean hn
      obtain ⟨content, hfile, -⟩ := hclean.file _ g hg
      exact absurd (hl.symm.trans hfile) (by simp)⟩)
  exact absurd (he.symm.trans hverdict) (by simp)

end Blocked

/-- Up to the restores, a checkout from a clean tree only removes files. -/
theorem applyCheckout_of_clean (hs : UniquePaths [] s.tree) (hid : s.id ≠ t.id)
    (hclean : CleanAt state s) (hload : ¬ loadPanics (some s) t = true) {onConflict : OnConflict}
    {results : CheckoutResult}
    (hw : walkTargetTree (checkoutContext repo state.disk (some s) t onConflict) t.tree =
      .ok results)
    (hc : results.cannotOverwriteEntries = []) :
    ∃ state₂, CleanedUp state state₂ s t ∧
      (applyCheckout repo (some s) t onConflict results).run state =
        (restoreFiles repo results.filesToRestore).run state₂ := by
  obtain ⟨state₁, hreplace, hlook, hver⟩ := applyDirReplacements_of_walk hw hc
  obtain ⟨state₂, hcleanup, hcleaned⟩ :=
    cleanupRemovedFiles_of_clean hs hid hclean hload hw hc hlook hver
  refine ⟨state₂, hcleaned, ?_⟩
  rw [applyCheckout, EStateM.run_bind, hreplace]
  simp only [EStateM.run_bind, hcleanup]

/-- A clean disk has exactly the files of its commit. -/
theorem CleanAt.files_iff (h : CleanAt state s) (path : PathBuf) (content : Content) :
    (∃ mtime, state.disk.lookup path = some (.file content mtime)) ↔
      ∃ f, (path, f) ∈ s.tree.files [] ∧ state.versions f.hash = some content := by
  constructor
  · rintro ⟨mtime, hl⟩
    obtain ⟨f, hf⟩ := h.only path content mtime hl
    obtain ⟨content', hl', -, hv⟩ := h.file path f hf
    obtain ⟨rfl, -⟩ := FsEntry.file.inj (Option.some.inj (hl.symm.trans hl'))
    exact ⟨f, hf, hv⟩
  · rintro ⟨f, hf, hv⟩
    obtain ⟨content', hl, -, hv'⟩ := h.file path f hf
    obtain rfl := Option.some.inj (hv.symm.trans hv')
    exact ⟨_, hl⟩

/-- On a clean disk a file of the target that the walk compares, without a computable
time, is missing on disk, so that the walk wants to restore it. -/
theorem restored_of_no_time (hs : UniquePaths [] s.tree) (ht : UniquePaths [] t.tree)
    (hplace : SharedInPlace s t) (hclean : CleanAt state s) {onConflict : OnConflict}
    {results : CheckoutResult}
    (hw : walkTargetTree (checkoutContext repo state.disk (some s) t onConflict) t.tree =
      .ok results)
    (hc : results.cannotOverwriteEntries = []) {q : PathBuf} {f : FileNode}
    {cs : List MerkleTreeNode} (hcmp : Compared state.disk (some s) t q (.mk (.file f) cs))
    (htime : f.hasTime = false) : ⟨f, q ++ f.name⟩ ∈ results.filesToRestore := by
  obtain ⟨verdict, hverdict⟩ := fileVerdict_of_walk hw (visits_of_reaches hw hc hcmp)
  have hover : ¬ TimeOverflows repo state.disk (q ++ f.name) f := by
    intro hover
    have he : targetFileVerdict (checkoutContext repo state.disk (some s) t onConflict)
        (q ++ f.name) f = .error .panicked := targetFileVerdict_overflows hover
    exact absurd (he.symm.trans hverdict) (by simp)
  have hnone : state.disk.lookup (q ++ f.name) = none := by
    by_contra hne
    exact hover ⟨hne, fun h => by simp [htime] at h⟩
  rw [mem_filesToRestore_of_clean hs ht hplace hclean hw hc]
  exact ⟨⟨q, cs, hcmp, rfl⟩, not_statMatches_of_none hnone _ _⟩

/-- A checkout from a clean tree reaches its target exactly when the disk has no
directory at the path of a target file and no time that it needs overflows. -/
theorem checksOut_iff (repo : LocalRepository) (s t : CommitTree db) (state : RepoState) {fuel : ℕ}
    (hfs : s.tree.size ≤ fuel) (hft : t.tree.size ≤ fuel) (hs : UniquePaths [] s.tree)
    (ht : UniquePaths [] t.tree) (hplace : SharedInPlace s t) (hclean : CleanAt state s)
    (hfaithful : StatFaithful repo state t) (hversions : HasVersions state t) :
    ChecksOut repo fuel s t state ↔
      (∀ path f, (path, f) ∈ t.tree.files [] → ¬ state.disk.isDir path) ∧ TimesInRange s t := by
  by_cases hid : s.id = t.id
  · have htree : s.tree = t.tree := s.stored_tree.eq_of_hash t.stored_tree rfl rfl hid
    refine iff_of_true ?_ ⟨?_, ?_⟩
    · intro onConflict
      refine ⟨state, @setWorkingRepoToCommit_same db repo (some s) t fuel onConflict state hft
        (congrArg some hid), ?_⟩
      rw [← htree]
      exact hclean.files_iff
    · intro path f hf hdir
      obtain ⟨content, hl, -⟩ := hclean.file path f (htree ▸ hf)
      simp [WorkingTree.isDir, hl] at hdir
    · rintro parent f cs (hr | hr)
      · exact absurd hr (not_fromReaches_of_id_eq hid)
      · exact absurd hr (not_fromReaches_of_id_eq hid.symm)
  have hids : (some s).map (·.id) ≠ some t.id := fun h => hid (Option.some.inj h)
  have hrun : ∀ onConflict, _ := fun onConflict =>
    @setWorkingRepoToCommit_run db repo (some s) t fuel onConflict state hft
      (by rintro _ ⟨⟩; exact hfs) hids
  rw [Option.map_some] at hrun
  constructor
  · intro h
    obtain ⟨state', hok, hfiles⟩ := h .overwrite
    rw [hrun] at hok
    by_cases hload : loadPanics (some s) t = true
    · simp [hload] at hok
    rw [if_neg hload] at hok
    cases hw : walkTargetTree (checkoutContext repo state.disk (some s) t .overwrite) t.tree with
    | error e => simp [hw] at hok
    | ok results =>
        simp only [hw] at hok
        by_cases hc : results.cannotOverwriteEntries = []
        · obtain ⟨state₂, hcleaned, happly⟩ := applyCheckout_of_clean hs hid hclean hload hw hc
          simp only [hc, ne_eq, not_true_eq_false, if_false, happly] at hok
          refine ⟨fun path f hf hdir => ?_, ?_⟩
          · have hdirl : state.disk.lookup path = some .dir := by
              simpa [WorkingTree.isDir] using hdir
            obtain ⟨content, hv⟩ := hversions path f hf
            obtain ⟨mtime, hl⟩ := (hfiles path content).mpr ⟨f, hf, hv⟩
            have hl₂ := restoreFiles_addsNoFile hok
              (not_restored_of_isDir hs ht hplace hclean hw hc hf hdirl) content mtime hl
            rcases hcleaned.lookup path with h₂ | h₂
            · exact absurd (hl₂.symm.trans (h₂.trans hdirl)) (by simp)
            · exact absurd (hl₂.symm.trans h₂) (by simp)
          · rintro parent f cs (hr | hr)
            · by_contra htime
              exact hload ((loadPanics_iff hids).mpr
                ⟨s, parent, f, cs, rfl, hr, Bool.eq_false_iff.mpr htime⟩)
            · by_contra htime
              have hcmp : Compared state.disk (some s) t parent (.mk (.file f) cs) :=
                hr.mono fun _ _ hnot _ hmem => hnot (mem_commonNodes hmem).1
              exact htime (hasTime_of_restoreFiles hok _ (restored_of_no_time hs ht hplace hclean
                hw hc hcmp (Bool.eq_false_iff.mpr htime)))
        · simp [hc] at hok
  · rintro ⟨hdir, htimes⟩ onConflict
    have hload : ¬ loadPanics (some s) t = true := by
      intro hload
      obtain ⟨_, parent, f, cs, ⟨⟩, hr, htime⟩ := (loadPanics_iff hids).mp hload
      simp [htimes parent f cs (.inl hr)] at htime
    obtain ⟨results, hw, hc⟩ :=
      @walkTargetTree_of_clean db repo state s t hs ht hplace hclean onConflict hid htimes hdir
    obtain ⟨state₂, hcleaned, happly⟩ := applyCheckout_of_clean hs hid hclean hload hw hc
    obtain ⟨state₃, hrestore, hver, hrestored, hothers⟩ :=
      restoreFiles_run (separate_filesToRestore hs ht hplace hclean hw hc)
        (canRestore_of_clean hs ht hplace hclean hversions hw hc hcleaned htimes hid hdir)
    refine ⟨state₃, ?_, restored_iff_of_clean hs ht hplace hid hclean hfaithful hversions hw hc
      hcleaned hver hrestored hothers hdir⟩
    rw [hrun, if_neg hload]
    simp only [hw, hc, ne_eq, not_true_eq_false, if_false, happly, hrestore]

namespace CleanExample

open Example

/-- The files `a` and `d` as committed. -/
def fileDisk : WorkingTree where
  entries := KeyedMap.insertAll ∅ [(["a"], .file [1] 1), (["d"], .file [2] 2)]
  parent_isDir := by
    intro path name h
    have hp : path ++ [name] = ["a"] ∨ path ++ [name] = ["d"] := by
      simpa [KeyedMap.mem_insertAll] using h
    rcases hp with hp | hp <;> simp_all [List.append_eq_cons_iff]

/-- The directory `d` with its file as committed. -/
def dirDisk : WorkingTree where
  entries := KeyedMap.insertAll ∅ [(["d"], .dir), (["d", "x"], .file [3] 3)]
  parent_isDir := by
    intro path name h
    have hp : path ++ [name] = ["d"] ∨ path ++ [name] = ["d", "x"] := by
      simpa [KeyedMap.mem_insertAll] using h
    rcases hp with hp | hp
    · simp_all [List.append_eq_cons_iff]
    · obtain rfl : path = ["d"] := by simpa using congrArg List.dropLast hp
      exact .inr (by decide)

def versions : VersionStore := fun hash =>
  [[1], [2], [3]].find? (host.xxh3 · = hash)

def fileState : RepoState := { disk := fileDisk, versions }

def dirState : RepoState := { disk := dirDisk, versions }

theorem fileState_clean : CleanAt fileState fileCommit :=
  .of_forall (by decide) (by decide)

theorem dirState_clean : CleanAt dirState dirCommit :=
  .of_forall (by decide) (by decide)

end CleanExample

/-- A file gives way to a directory. -/
theorem checksOut_iff_example :
    ChecksOut Example.repo 10 Example.fileCommit Example.dirCommit CleanExample.fileState ↔
      (∀ path f, (path, f) ∈ Example.dirCommit.tree.files [] →
        ¬ CleanExample.fileState.disk.isDir path) ∧
        TimesInRange Example.fileCommit Example.dirCommit :=
  checksOut_iff Example.repo Example.fileCommit Example.dirCommit CleanExample.fileState
    (by decide) (by decide) (by decide) (by decide) (by decide)
    CleanExample.fileState_clean (.of_forall (by decide)) (.of_forall (by decide))

/-- A directory does not give way to a file: the checkout of a clean tree fails. -/
theorem not_checksOut :
    (UniquePaths [] Example.dirCommit.tree ∧ UniquePaths [] Example.fileCommit.tree ∧
      SharedInPlace Example.dirCommit Example.fileCommit ∧
      CleanAt CleanExample.dirState Example.dirCommit ∧
      StatFaithful Example.repo CleanExample.dirState Example.fileCommit ∧
      HasVersions CleanExample.dirState Example.fileCommit) ∧
    ¬ ChecksOut Example.repo 10 Example.dirCommit Example.fileCommit CleanExample.dirState := by
  refine ⟨⟨by decide, by decide, by decide, CleanExample.dirState_clean,
    .of_forall (by decide), .of_forall (by decide)⟩, fun h => ?_⟩
  obtain ⟨state', hrun, -⟩ := h .overwrite
  have hfails : (match (setWorkingRepoToCommit Example.repo Example.nodes 10 Example.fileCommit.id
      (some Example.dirCommit.id) .overwrite).run CleanExample.dirState with
    | .error _ _ => true
    | .ok _ _ => false) = true := by decide
  rw [hrun] at hfails
  cases hfails

end Oxen
