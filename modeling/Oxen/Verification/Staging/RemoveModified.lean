import Oxen.Lib.Runs
import Oxen.Verification.Checkout.Verdicts
import Oxen.Verification.Staging.Remove

/-! A removal is stopped by modified files that are listed or lie directly in a listed directory,
and not by those further below. A committed file without a time stops it too, wherever it is. -/

namespace Oxen

namespace Remove

open FirstFailure Runs

variable {env : Env} {dirHashes : DirHashes} {recursive : Bool} {s : State}
  {path search c f : PathBuf} {paths : List PathBuf} {answer : Except OxenError Bool}

/-! ## One file -/

theorem isModifiedFromNode_of_none (h : s.disk.lookup path = none) (node : FileNode) :
    isModifiedFromNode env s path node = .ok false := by
  rw [isModifiedFromNode, LocalRepository.isModifiedFromNode, h]

/-- Away from directories a comparison with a file that has a time returns. -/
theorem isModifiedFromNode_returns (h : s.disk.isDir path = false) {node : FileNode}
    (ht : node.hasTime = true) :
    ∃ isModified, isModifiedFromNode env s path node = .ok isModified := by
  cases hentry : s.disk.lookup path with
  | none => exact ⟨false, isModifiedFromNode_of_none hentry node⟩
  | some entry =>
      cases entry with
      | dir => exact absurd hentry (by simpa [WorkingTree.isDir] using h)
      | file content mtime =>
          have hcontent : s.disk.content path = some content := by
            simp [WorkingTree.content, hentry]
          have hmatches := @mtimeMatches_eq { env.toLocalRepository with mtimeTolerance := 0 } mtime
            (.inl rfl) node.lastModified
          rw [isModifiedFromNode, LocalRepository.isModifiedFromNode, hentry,
            metadata_file _ hentry]
          simp only [FileNode.computeTime_eq, ht, if_true, hmatches,
            LocalRepository.classifyModifiedFromNode, LocalRepository.getHashGivenMetadata, hcontent,
            Except.map, Runs.ok_bind]
          split
          · exact ⟨_, rfl⟩
          · split
            · exact ⟨_, rfl⟩
            · split
              · split
                · exact ⟨_, rfl⟩
                · exact ⟨_, rfl⟩
              · exact ⟨_, rfl⟩

theorem isModifiedFromNode_panics {entry : FsEntry} (h : s.disk.lookup path = some entry)
    {node : FileNode} (ht : node.hasTime = false) :
    isModifiedFromNode env s path node = .error .panicked := by
  rcases @exists_metadata { env.toLocalRepository with mtimeTolerance := 0 } s.disk path
    (by rw [h]; exact Option.some_ne_none entry) with ⟨metadata, hmetadata⟩
  rw [isModifiedFromNode, LocalRepository.isModifiedFromNode, h, hmetadata]
  simp [ht, bind, Except.bind]

/-- Away from directories the only failure is a time that cannot be computed. -/
theorem isModifiedFromNode_cases (h : s.disk.isDir path = false) (node : FileNode) :
    (∃ isModified, isModifiedFromNode env s path node = .ok isModified) ∨
      isModifiedFromNode env s path node = .error .panicked := by
  cases ht : node.hasTime with
  | true => exact .inl (isModifiedFromNode_returns h ht)
  | false =>
      cases hentry : s.disk.lookup path with
      | none => exact .inl ⟨false, isModifiedFromNode_of_none hentry node⟩
      | some entry => exact .inr (isModifiedFromNode_panics hentry ht)

section

variable (env dirHashes s answer)

/-- How the file compares with the committed one that the search finds for it. -/
def Compares (search path : PathBuf) : Prop :=
  ∃ node, committedFile (maybeGetNode env dirHashes search) (path.drop search.length) = some node ∧
    isModifiedFromNode env s path node = answer

/-- A file that compares so with the committed one, in a walk from a path down. -/
structure Reported (search f : PathBuf) : Prop where
  below : search <+: f
  notDir : s.disk.isDir f = false
  visible : ∀ q, search <+: q → q <+: f → (q = search → s.disk.isDir search = false) →
    isIgnored env q (s.disk.isDir q) = false
  unstaged : f ∉ s.staged
  compares : Compares env dirHashes s answer (if f = search then f else f.dropLast) f

end

theorem checkFile_spec (h : s.disk.isDir path = false) (search : PathBuf) :
    ListsOr (fun f => f = path ∧ Compares env dirHashes s (.ok true) search path)
      (Compares env dirHashes s (.error .panicked) search path)
      (checkFile env dirHashes s search path) := by
  unfold checkFile Compares
  dsimp only
  cases hnode : committedFile (maybeGetNode env dirHashes search) (path.drop search.length) with
  | none => exact listsOr_nil (by simp) (by simp)
  | some node =>
      dsimp only
      rcases @isModifiedFromNode_cases env s path h node with ⟨isModified, hrun⟩ | hrun
      · rw [hrun]
        cases isModified with
        | true => exact ⟨fun f => by simp [hrun], by simp [hrun]⟩
        | false => exact listsOr_nil (by simp [hrun]) (by simp [hrun])
      · rw [hrun]
        exact ⟨node, rfl, hrun⟩

/-! ## The walk -/

theorem Compares.lookup_ne_none (hanswer : answer ≠ .ok false)
    (h : Compares env dirHashes s answer search f) : s.disk.lookup f ≠ none := by
  rcases h with ⟨node, -, hcompared⟩
  intro hnone
  exact hanswer (hcompared.symm.trans (isModifiedFromNode_of_none hnone node))

theorem mem_readDir_iff : c ∈ s.disk.readDir search ↔
    ∃ name, c = search ++ [name] ∧ s.disk.lookup c ≠ none := by
  unfold WorkingTree.readDir
  simp only [List.mem_filter, decide_eq_true_eq]
  constructor
  · rintro ⟨hkey, hne, rfl⟩
    refine ⟨c.getLast hne, (List.dropLast_append_getLast hne).symm, ?_⟩
    rw [s.disk.lookup_of_ne_nil hne, ne_eq, AList.lookup_eq_none, not_not]
    exact AList.mem_keys.mpr hkey
  · rintro ⟨name, rfl, hlookup⟩
    have hne : search ++ [name] ≠ [] := by simp
    rw [s.disk.lookup_of_ne_nil hne, ne_eq, AList.lookup_eq_none, not_not] at hlookup
    exact ⟨AList.mem_keys.mp hlookup, hne, List.dropLast_concat⟩

theorem length_le_height (h : s.disk.lookup f ≠ none) (hne : f ≠ []) : f.length ≤ s.disk.height := by
  rw [s.disk.lookup_of_ne_nil hne, ne_eq, AList.lookup_eq_none, not_not, AList.mem_keys] at h
  have hfold : ∀ lengths : List ℕ, ∀ n ∈ lengths, n ≤ lengths.foldr max 0 := by
    intro lengths n hn
    induction lengths with
    | nil => cases hn
    | cons m lengths ih =>
        rcases List.mem_cons.mp hn with rfl | hn
        · exact le_max_left _ _
        · exact (ih hn).trans (le_max_right _ _)
  exact hfold _ _ (List.mem_map_of_mem h)

theorem Reported.ne_nil (h : Reported env dirHashes s answer search f) : f ≠ [] := by
  rintro rfl
  have hdir := h.notDir
  simp [WorkingTree.isDir] at hdir

/-- What is reported from a directory is in one of its entries. -/
theorem reported_of_isDir (hanswer : answer ≠ .ok false) (hdir : s.disk.isDir search = true) :
    Reported env dirHashes s answer search f ↔ ∃ c ∈ s.disk.readDir search,
      isIgnored env c (s.disk.isDir c) = false ∧
        (s.disk.isDir c = true ∧ Reported env dirHashes s answer c f ∨
          s.disk.isDir c = false ∧ c ∉ s.staged ∧ f = c ∧
            Compares env dirHashes s answer search c) := by
  constructor
  · intro h
    have hne : f ≠ search := by
      rintro rfl
      rw [h.notDir] at hdir
      cases hdir
    have hcompares := h.compares
    rw [if_neg hne] at hcompares
    have hlookup := hcompares.lookup_ne_none hanswer
    rcases h.below with ⟨rest, heq⟩
    cases rest with
    | nil => exact absurd heq.symm (by rwa [List.append_nil])
    | cons name rest =>
        rw [List.append_cons] at heq
        subst heq
        have hc : search ++ [name] ∈ s.disk.readDir search := by
          refine mem_readDir_iff.mpr ⟨name, rfl, fun hnone => hlookup ?_⟩
          by_cases hrest : rest = []
          · rw [hrest, List.append_nil, hnone]
          · exact WorkingTree.lookup_eq_none_of_isPrefix (by rw [hnone]; decide)
              (List.prefix_append _ _) (by simpa using hrest)
        have hsearch : search ++ [name] ≠ search := by simp
        refine ⟨search ++ [name], hc, h.visible _ (List.prefix_append _ _) (List.prefix_append _ _)
          fun heq => absurd heq hsearch, ?_⟩
        by_cases hrest : rest = []
        · subst hrest
          rw [List.append_nil] at h hcompares ⊢
          rw [List.dropLast_concat] at hcompares
          exact .inr ⟨h.notDir, h.unstaged, rfl, hcompares⟩
        · left
          have hcdir := s.disk.isDir_of_isPrefix hrest hlookup
          refine ⟨by simpa [WorkingTree.isDir] using hcdir, List.prefix_append _ _, h.notDir,
            fun q hcq hqf _ => ?_, h.unstaged, ?_⟩
          · apply h.visible q ((List.prefix_append _ _).trans hcq) hqf
            rintro rfl
            exact absurd (hcq.length_le) (by simp)
          · rwa [if_neg (by simpa using hrest)]
  · rintro ⟨c, hc, hvisible, h⟩
    rcases mem_readDir_iff.mp hc with ⟨name, rfl, hlookup⟩
    have hbelow : ∀ q, search <+: q → q <+: search ++ [name] →
        (q = search → s.disk.isDir search = false) → q = search ++ [name] := by
      intro q hsq hqc hq
      rcases hsq with ⟨rest, rfl⟩
      rw [List.prefix_append_right_inj] at hqc
      cases rest with
      | nil =>
          have hno := hq (List.append_nil search)
          rw [hdir] at hno
          cases hno
      | cons a rest =>
          obtain ⟨rfl, hrest⟩ := List.cons_prefix_cons.mp hqc
          rw [List.prefix_nil.mp hrest]
    rcases h with ⟨hcdir, h⟩ | ⟨hcfile, hunstaged, rfl, hcompares⟩
    · refine ⟨(List.prefix_append _ _).trans h.below, h.notDir, fun q hsq hqf hq => ?_, h.unstaged, ?_⟩
      · rcases List.prefix_or_prefix_of_prefix hqf h.below with hqc | hcq
        · rw [hbelow q hsq hqc hq]
          exact hvisible
        · by_cases heq : q = search ++ [name]
          · rw [heq]
            exact hvisible
          · exact h.visible q hcq hqf fun hno => absurd hno heq
      · have hcompares := h.compares
        have hfc : f ≠ search ++ [name] := by
          rintro rfl
          rw [h.notDir] at hcdir
          cases hcdir
        have hfs : f ≠ search := by
          rintro rfl
          exact absurd h.below.length_le (by simp)
        rw [if_neg hfc] at hcompares
        rwa [if_neg hfs]
    · refine ⟨List.prefix_append _ _, hcfile, fun q hsq hqf hq => ?_, hunstaged, ?_⟩
      · rw [hbelow q hsq hqf hq]
        exact hvisible
      · rwa [if_neg (by simp), List.dropLast_concat]

/-- From anything else only the path itself is reported. -/
theorem reported_of_not_isDir (hanswer : answer ≠ .ok false)
    (hdir : s.disk.isDir search = false) :
    Reported env dirHashes s answer search f ↔ f = search ∧ isIgnored env search false = false ∧
      search ∉ s.staged ∧ Compares env dirHashes s answer search search := by
  constructor
  · intro h
    obtain rfl : f = search := by
      by_contra hne
      refine h.compares.lookup_ne_none hanswer (WorkingTree.lookup_eq_none_of_isPrefix ?_ h.below
        (Ne.symm hne))
      simpa [WorkingTree.isDir] using hdir
    have hcompares := h.compares
    rw [if_pos rfl] at hcompares
    have hvisible := h.visible f (List.prefix_refl f) (List.prefix_refl f) fun _ => hdir
    rw [hdir] at hvisible
    exact ⟨rfl, hvisible, h.unstaged, hcompares⟩
  · rintro ⟨rfl, hvisible, hunstaged, hcompares⟩
    refine ⟨List.prefix_refl f, hdir, fun q hfq hqf _ => ?_, hunstaged, ?_⟩
    · obtain rfl := hqf.eq_of_length_le hfq.length_le
      rwa [hdir]
    · rwa [if_pos rfl]

theorem ok_true_ne : (.ok true : Except OxenError Bool) ≠ .ok false := by
  simp

theorem panicked_ne : (.error .panicked : Except OxenError Bool) ≠ .ok false := by
  simp

theorem not_reported_of_height (hanswer : answer ≠ .ok false)
    (hheight : s.disk.height < search.length) : ¬ Reported env dirHashes s answer search f := by
  intro h
  have hne : (if f = search then f else f.dropLast).length ≤ f.length := by
    split
    · exact le_rfl
    · simp
  have hlength := length_le_height (h.compares.lookup_ne_none hanswer) h.ne_nil
  have hbelow := h.below.length_le
  omega

/-- With height for the longest path, a walk finds what is reported, unless a time panics. -/
theorem findChanges_spec (height : ℕ) (search : PathBuf)
    (hheight : s.disk.height < search.length + height) :
    ListsOr (Reported env dirHashes s (.ok true) search)
      (∃ f, Reported env dirHashes s (.error .panicked) search f)
      (findChanges env dirHashes s height search) := by
  induction height generalizing search with
  | zero =>
      exact listsOr_nil (fun f => not_reported_of_height ok_true_ne hheight)
        (not_exists.mpr fun f => not_reported_of_height panicked_ne hheight)
  | succ height ih =>
      unfold findChanges
      dsimp only
      cases hdir : s.disk.isDir search with
      | false =>
          rw [if_neg (by decide)]
          refine (listsOr_mapM (P := fun path f => isIgnored env path false = false ∧
              path ∉ s.staged ∧ f = path ∧ Compares env dirHashes s (.ok true) search path)
            (Q := fun path => isIgnored env path false = false ∧ path ∉ s.staged ∧
              Compares env dirHashes s (.error .panicked) search path)
            fun path hpath => ?_).congr (fun f => ?_) ?_
          · obtain rfl := List.mem_singleton.mp hpath
            rw [hdir]
            cases hignored : isIgnored env path false with
            | true => exact listsOr_nil (by simp) (by simp)
            | false =>
                rw [if_neg Bool.false_ne_true, if_neg Bool.false_ne_true]
                by_cases hstaged : path ∈ s.staged
                · rw [if_pos hstaged]
                  exact listsOr_nil (by simp [hstaged]) (by simp [hstaged])
                · rw [if_neg hstaged]
                  exact (checkFile_spec hdir path).congr (fun f => by simp [hstaged])
                    (by simp [hstaged])
          · rw [reported_of_not_isDir ok_true_ne hdir]
            simp only [List.mem_singleton, exists_eq_left]
            tauto
          · simp only [reported_of_not_isDir panicked_ne hdir, List.mem_singleton, exists_eq_left]
      | true =>
          rw [if_pos rfl]
          refine (listsOr_mapM (P := fun c f => isIgnored env c (s.disk.isDir c) = false ∧
              (s.disk.isDir c = true ∧ Reported env dirHashes s (.ok true) c f ∨
                s.disk.isDir c = false ∧ c ∉ s.staged ∧ f = c ∧
                  Compares env dirHashes s (.ok true) search c))
            (Q := fun c => ∃ f, isIgnored env c (s.disk.isDir c) = false ∧
              (s.disk.isDir c = true ∧ Reported env dirHashes s (.error .panicked) c f ∨
                s.disk.isDir c = false ∧ c ∉ s.staged ∧ f = c ∧
                  Compares env dirHashes s (.error .panicked) search c))
            fun c hc => ?_).congr (fun f => (reported_of_isDir ok_true_ne hdir).symm) ?_
          · rcases mem_readDir_iff.mp hc with ⟨name, hname, -⟩
            cases hignored : isIgnored env c (s.disk.isDir c) with
            | true => exact listsOr_nil (by simp) (by simp)
            | false =>
                rw [if_neg Bool.false_ne_true]
                cases hcdir : s.disk.isDir c with
                | true =>
                    rw [if_pos rfl]
                    refine (ih c ?_).congr (fun f => by simp) (by simp)
                    rw [hname, List.length_append, List.length_singleton]
                    omega
                | false =>
                    rw [if_neg Bool.false_ne_true]
                    by_cases hstaged : c ∈ s.staged
                    · rw [if_pos hstaged]
                      exact listsOr_nil (by simp [hstaged]) (by simp [hstaged])
                    · rw [if_neg hstaged]
                      exact (checkFile_spec hcdir search).congr (fun f => by simp [hstaged])
                        (by simp [hstaged])
          · simp only [reported_of_isDir panicked_ne hdir]
            constructor
            · rintro ⟨c, hc, f, h⟩
              exact ⟨f, c, hc, h⟩
            · rintro ⟨f, c, hc, h⟩
              exact ⟨c, hc, f, h⟩

/-! ## The check -/

section

variable (env dirHashes s paths)

/-- A modified file that is listed or lies directly in a listed directory. -/
def Noticed : Prop :=
  ∃ f, (∃ p ∈ paths, Reported env dirHashes s (.ok true) p f) ∧
    isStagedFile s paths f = false ∧ (f.dropLast ∈ paths ∨ f ∈ paths)

/-- At or below one of the paths is a file whose committed time cannot be computed. -/
def Timeless : Prop :=
  ∃ p ∈ paths, ∃ f, Reported env dirHashes s (.error .panicked) p f

theorem statusModifiedFiles_spec :
    ListsOr (fun f => (∃ p ∈ paths, Reported env dirHashes s (.ok true) p f) ∧
        isStagedFile s paths f = false)
      (Timeless env dirHashes s paths) (statusModifiedFiles env dirHashes s paths) := by
  have hwalks := listsOr_mapM fun p (_ : p ∈ paths) =>
    @findChanges_spec env dirHashes s (s.disk.height + 1) p (by omega)
  unfold statusModifiedFiles
  rcases hrun : paths.mapM (findChanges env dirHashes s (s.disk.height + 1)) with e | lists
  · rw [hrun] at hwalks
    exact hwalks
  · rw [hrun] at hwalks
    refine ⟨fun f => ?_, hwalks.2⟩
    rw [List.mem_filter, hwalks.1]
    simp

theorem hasModifiedFiles_spec :
    (∃ modified, hasModifiedFiles env dirHashes s paths = .ok modified ∧
      (modified = true ↔ Noticed env dirHashes s paths) ∧ ¬ Timeless env dirHashes s paths) ∨
    (∃ e, hasModifiedFiles env dirHashes s paths = .error e) ∧
      Timeless env dirHashes s paths := by
  have hstatus := statusModifiedFiles_spec env dirHashes s paths
  unfold hasModifiedFiles listModifiedFiles
  rcases hrun : statusModifiedFiles env dirHashes s paths with e | found
  · rw [hrun] at hstatus
    exact .inr ⟨⟨e, rfl⟩, hstatus⟩
  · rw [hrun] at hstatus
    refine .inl ⟨_, rfl, ?_, hstatus.2⟩
    rw [Bool.not_eq_true', List.isEmpty_eq_false_iff_exists_mem]
    simp only [List.mem_filter, hstatus.1, decide_eq_true_eq, Noticed, and_assoc]

end

/-! ## The whole call -/

/-- A committed file below the directory has other contents in the working tree. -/
def ModifiedBelow (t : CommitTree env.db) (s : State) (d f : PathBuf) : Prop :=
  d <+: f ∧ d ≠ f ∧ ∃ node content, t.fileMap.lookup f = some node ∧
    s.disk.content f = some content ∧ env.xxh3 content ≠ node.hash

/-- If a file below one of the paths is modified, the call fails and removes no file. -/
def KeepsWork (env : Env) (recursive : Bool) (t : CommitTree env.db) (s : State)
    (paths : List PathBuf) : Prop :=
  ∀ d ∈ paths, ∀ f, ModifiedBelow t s d f →
    (∃ e, (rm env recursive s paths).2 = .error e) ∧
      ∀ x content mtime, s.disk.lookup x = some (.file content mtime) →
        (rm env recursive s paths).1.disk.lookup x = some (.file content mtime)

section

variable (env dirHashes recursive s paths)

/-- The call fails at a path, and the paths before it took no file out of the working tree. -/
def FailsInTime : Prop :=
  ∃ before path rest, paths = before ++ path :: rest ∧
    FirstFails (Fails env dirHashes recursive s) before path ∧
      ∀ q ∈ before, ∀ x, Takes env dirHashes recursive q x →
        ∀ content mtime, s.disk.lookup x ≠ some (.file content mtime)

end

/-- A call that fails at a path keeps all files exactly when those before it took none. -/
theorem After.keepsFiles_iff {before : List PathBuf} {t : State}
    (h : After env dirHashes recursive s before t) :
    (∀ x content mtime, s.disk.lookup x = some (.file content mtime) →
        t.disk.lookup x = some (.file content mtime)) ↔
      ∀ q ∈ before, ∀ x, Takes env dirHashes recursive q x →
        ∀ content mtime, s.disk.lookup x ≠ some (.file content mtime) := by
  constructor
  · intro hkeep q hq x htakes content mtime hfile
    have hlookup := hkeep x content mtime hfile
    rw [h.disk, if_pos ⟨q, hq, htakes⟩] at hlookup
    cases hlookup
  · intro hnone x content mtime hfile
    rw [h.disk, if_neg]
    · exact hfile
    · rintro ⟨q, hq, htakes⟩
      exact hnone q hq x htakes content mtime hfile

namespace RemoveExample

def head : CommitTree committed.db where
  commit := { hash := 0x1 }
  children := root
  stored := by decide
  shape := by decide

theorem noticed_sub : Noticed committed (committed.dirHashes 0x1) state [["d", "sub"]] := by
  have hcheck : hasModifiedFiles committed (committed.dirHashes 0x1) state [["d", "sub"]] =
      .ok true := by
    decide
  rcases hasModifiedFiles_spec committed (committed.dirHashes 0x1) state [["d", "sub"]] with
    ⟨modified, hrun, hnoticed, -⟩ | ⟨⟨e, hrun⟩, -⟩
  · exact hnoticed.mp (Except.ok.inj (hrun.symm.trans hcheck))
  · cases hcheck.symm.trans hrun

theorem modifiedBelow_d : ModifiedBelow head state ["d"] ["d", "sub", "x"] :=
  ⟨by decide, by decide, Oxen.Example.fileNode "x" [2] 2, [9, 9], by decide,
    by decide, by decide⟩

end RemoveExample

end Remove

end Oxen
