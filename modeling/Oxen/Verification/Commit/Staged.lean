import Oxen.Verification.Commit.Splits

/-! The entries that are staged for a commit, and the children that a directory has
once they are applied. -/

namespace Oxen

namespace CommitWriter

open MerkleTreeNode

/-- The entry is staged under the path, among the entries of the parent directory. -/
def Staged (dirEntries : DirEntries) (path : PathBuf) (entry : StagedMerkleTreeNode) : Prop :=
  path ≠ [] ∧ entry.path = path ∧
    ∃ newChildren, dirEntries.lookup path.dropLast = some newChildren ∧ entry ∈ newChildren

/-- Staged entries of which a commit upon the index makes a tree: they lie under their
full paths, one for each path; a directory with entries of its own is staged itself, from
the root down; a directory is replaced by a directory only, and removed together with
everything below it; a file is staged because it is new, changed or removed. -/
structure WholeStaging (dirHashes : DirHashes) (dirEntries : DirEntries) : Prop where
  parent : ∀ directory newChildren, dirEntries.lookup directory = some newChildren →
    ∀ child ∈ newChildren, child.path ≠ [] ∧ child.path.dropLast = directory
  unique : ∀ path entry entry', Staged dirEntries path entry → Staged dirEntries path entry' →
    entry = entry'
  root : [] ∈ dirEntries
  listed : ∀ directory ∈ dirEntries, directory ≠ [] →
    ∃ entry d, Staged dirEntries directory entry ∧ entry.node = .directory d
  keyed : ∀ path entry, Staged dirEntries path entry → entry.status ≠ .removed →
    ∀ d, entry.node = .directory d → path ∈ dirEntries
  kind : ∀ path entry, Staged dirEntries path entry → path ∈ dirHashes →
    ∃ d, entry.node = .directory d
  removed : ∀ path entry, Staged dirEntries path entry → entry.status = .removed →
    ∀ below, below ≠ [] → below.dropLast = path →
      ((∃ entry', Staged dirEntries below entry') ∨ below ∈ dirHashes) →
        ∃ entry', Staged dirEntries below entry' ∧ entry'.status = .removed
  changed : ∀ path entry f, Staged dirEntries path entry → entry.node = .file f →
    entry.status ≠ .unmodified

namespace WholeStaging

variable {dirHashes : DirHashes} {dirEntries : DirEntries} {directory path : PathBuf}
  {newChildren : List StagedMerkleTreeNode} {child entry : StagedMerkleTreeNode}

theorem fullPath_eq (h : WholeStaging dirHashes dirEntries)
    (hdir : dirEntries.lookup directory = some newChildren) (hchild : child ∈ newChildren) :
    fullPath directory child = child.path := by
  have hparent := (h.parent directory newChildren hdir child hchild).2
  rw [fullPath, if_neg]
  rintro ⟨-, hprefix⟩
  apply hprefix
  rw [← hparent]
  exact List.dropLast_prefix _

theorem completed_eq (h : WholeStaging dirHashes dirEntries)
    (hdir : dirEntries.lookup directory = some newChildren) (hchild : child ∈ newChildren) :
    completed directory child = child := by
  have hparent := (h.parent directory newChildren hdir child hchild).2
  rw [completed, if_neg]
  rintro ⟨-, hprefix⟩
  apply hprefix
  rw [← hparent]
  exact List.dropLast_prefix _

theorem staged_of_mem (h : WholeStaging dirHashes dirEntries)
    (hdir : dirEntries.lookup directory = some newChildren) (hchild : child ∈ newChildren) :
    Staged dirEntries child.path child := by
  rcases h.parent directory newChildren hdir child hchild with ⟨hne, hparent⟩
  exact ⟨hne, rfl, newChildren, by rwa [hparent], hchild⟩

theorem placed (h : WholeStaging dirHashes dirEntries) : PlacedEntries dirEntries := by
  constructor
  · intro directory newChildren hdir child hchild _
    rw [h.fullPath_eq hdir hchild]
    exact (h.parent directory newChildren hdir child hchild).2
  · intro directory newChildren hdir child hchild hstatus d hd
    rw [h.fullPath_eq hdir hchild]
    exact h.keyed _ _ (h.staged_of_mem hdir hchild) hstatus d hd

/-- A directory with entries of its own lies in such a directory. -/
theorem parent_mem (h : WholeStaging dirHashes dirEntries) (hdir : directory ∈ dirEntries) :
    directory.dropLast ∈ dirEntries := by
  by_cases hnil : directory = []
  · rwa [hnil] at hdir ⊢
  · rcases h.listed directory hdir hnil with ⟨entry, d, ⟨-, -, newChildren, hlookup, -⟩, -⟩
    exact AList.lookup_isSome.mp (by rw [hlookup]; rfl)

theorem prefix_mem (h : WholeStaging dirHashes dirEntries) {rest : PathBuf}
    (hdir : directory ++ rest ∈ dirEntries) : directory ∈ dirEntries := by
  induction rest using List.reverseRecOn with
  | nil => rwa [List.append_nil] at hdir
  | append_singleton rest name ih =>
      apply ih
      have hparent := h.parent_mem hdir
      rwa [← List.append_assoc, List.dropLast_concat] at hparent

end WholeStaging

/-! ## What is staged in a directory decides its children -/

section Children

variable {directory path : PathBuf} {newChildren : List StagedMerkleTreeNode}
  {dir : DirChildren} {entry : StagedMerkleTreeNode}

/-- The last entry that is staged under the path counts. -/
theorem lookup_foldl_of_stagedIn (h : StagedIn directory newChildren path)
    (huniq : ∀ child ∈ newChildren, child.path ≠ [] → fullPath directory child = path →
      completed directory child = entry) :
    (newChildren.foldl (updateChildren directory) dir).children.lookup path =
      if entry.status = .removed then none else some entry := by
  induction newChildren generalizing dir with
  | nil =>
      rcases h with ⟨child, hchild, -⟩
      cases hchild
  | cons child rest ih =>
      have hrest : ∀ c ∈ rest, c.path ≠ [] → fullPath directory c = path →
          completed directory c = entry := fun c hc => huniq c (List.mem_cons_of_mem child hc)
      rw [List.foldl_cons]
      by_cases hlater : StagedIn directory rest path
      · exact ih hlater hrest
      · rw [lookup_foldl_of_not_stagedIn hlater]
        rcases h with ⟨c, hc, hne, hpath⟩
        rcases List.mem_cons.mp hc with rfl | hc
        · rw [lookup_updateChildren dir hne, if_pos hpath.symm,
            huniq c List.mem_cons_self hne hpath]
        · exact absurd ⟨c, hc, hne, hpath⟩ hlater

theorem mem_removed_of_lookup
    (h : (newChildren.foldl (updateChildren directory) dir).removed.lookup path = some entry) :
    dir.removed.lookup path = some entry ∨ ∃ child ∈ newChildren, child.path ≠ [] ∧
      fullPath directory child = path ∧ child.status = .removed ∧
        completed directory child = entry := by
  induction newChildren generalizing dir with
  | nil => exact .inl h
  | cons child rest ih =>
      rcases ih h with hold | ⟨c, hc, hstaged⟩
      · by_cases hnil : child.path = []
        · rw [updateChildren, if_pos hnil] at hold
          exact .inl hold
        · rw [updateChildren_eq dir hnil] at hold
          split at hold
          · rename_i hstatus
            rw [status_completed] at hstatus
            simp only at hold
            unfold KeyedMap.insertNew at hold
            split at hold
            · exact .inl hold
            · rcases KeyedMap.lookup_insert_eq_some.mp hold with ⟨rfl, rfl⟩ | ⟨-, hold⟩
              · exact .inr ⟨child, List.mem_cons_self, hnil, rfl, hstatus, rfl⟩
              · exact .inl hold
          · exact .inl hold
      · exact .inr ⟨c, List.mem_cons_of_mem child hc, hstaged⟩

theorem mem_removed_foldl (h : path ∈ dir.removed) :
    path ∈ (newChildren.foldl (updateChildren directory) dir).removed := by
  induction newChildren generalizing dir with
  | nil => exact h
  | cons child rest ih =>
      apply ih
      by_cases hnil : child.path = []
      · rwa [updateChildren, if_pos hnil]
      · rw [updateChildren_eq dir hnil]
        split
        · unfold KeyedMap.insertNew
          split
          · exact h
          · exact (AList.mem_insert _).mpr (.inr h)
        · exact h

theorem mem_removed_of_mem {child : StagedMerkleTreeNode} (hchild : child ∈ newChildren)
    (hne : child.path ≠ []) (hstatus : child.status = .removed) :
    fullPath directory child ∈ (newChildren.foldl (updateChildren directory) dir).removed := by
  induction newChildren generalizing dir with
  | nil => cases hchild
  | cons c rest ih =>
      rw [List.foldl_cons]
      rcases List.mem_cons.mp hchild with rfl | hmem
      · apply mem_removed_foldl
        rw [updateChildren_eq dir hne, if_pos (by rw [status_completed, hstatus])]
        unfold KeyedMap.insertNew
        split
        · assumption
        · exact (AList.mem_insert _).mpr (.inl rfl)
      · exact ih hmem

end Children

namespace WholeStaging

variable {db : NodeStore} {dirHashes : DirHashes} {dirEntries : DirEntries} {path : PathBuf}
  {newChildren : List StagedMerkleTreeNode} {entry : StagedMerkleTreeNode}

theorem stagedIn_iff (h : WholeStaging dirHashes dirEntries)
    (hdir : dirEntries.lookup path.dropLast = some newChildren) :
    StagedIn path.dropLast newChildren path ↔ ∃ entry, Staged dirEntries path entry := by
  constructor
  · rintro ⟨child, hchild, -, hpath⟩
    rw [h.fullPath_eq hdir hchild] at hpath
    have hstaged := h.staged_of_mem hdir hchild
    rw [hpath] at hstaged
    exact ⟨child, hstaged⟩
  · rintro ⟨child, hne, hpath, children, hlookup, hchild⟩
    obtain rfl := Option.some.inj (hdir.symm.trans hlookup)
    exact ⟨child, hchild, by rwa [hpath], by rw [h.fullPath_eq hdir hchild, hpath]⟩

/-- A child is what is staged under its path, or it was stored and nothing is staged. -/
theorem lookup_dirChildren (h : WholeStaging dirHashes dirEntries)
    (hdir : dirEntries.lookup path.dropLast = some newChildren) :
    (dirChildren db dirHashes path.dropLast newChildren).children.lookup path = some entry ↔
      (Staged dirEntries path entry ∧ entry.status ≠ .removed) ∨
        ((∀ entry', ¬ Staged dirEntries path entry') ∧
          (storedChildren db dirHashes path.dropLast).lookup path = some entry) := by
  change (newChildren.foldl (updateChildren path.dropLast)
    { children := storedChildren db dirHashes path.dropLast }).children.lookup path = _ ↔ _
  by_cases hstaged : ∃ entry', Staged dirEntries path entry'
  · rcases hstaged with ⟨entry', hentry'⟩
    have huniq : ∀ child ∈ newChildren, child.path ≠ [] → fullPath path.dropLast child = path →
        completed path.dropLast child = entry' := by
      intro child hchild _ hpath
      rw [h.fullPath_eq hdir hchild] at hpath
      have hstaged := h.staged_of_mem hdir hchild
      rw [hpath] at hstaged
      rw [h.completed_eq hdir hchild]
      exact h.unique path child entry' hstaged hentry'
    rw [lookup_foldl_of_stagedIn ((h.stagedIn_iff hdir).mpr ⟨entry', hentry'⟩) huniq]
    constructor
    · intro hlookup
      split at hlookup
      · cases hlookup
      · rename_i hstatus
        obtain rfl := Option.some.inj hlookup
        exact .inl ⟨hentry', hstatus⟩
    · rintro (⟨hentry, hstatus⟩ | ⟨hnone, -⟩)
      · obtain rfl := h.unique path entry entry' hentry hentry'
        rw [if_neg hstatus]
      · exact absurd hentry' (hnone entry')
  · rw [lookup_foldl_of_not_stagedIn fun hin => hstaged ((h.stagedIn_iff hdir).mp hin)]
    constructor
    · intro hlookup
      exact .inr ⟨fun entry' hentry' => hstaged ⟨entry', hentry'⟩, hlookup⟩
    · rintro (⟨hentry, -⟩ | ⟨-, hlookup⟩)
      · exact absurd ⟨entry, hentry⟩ hstaged
      · exact hlookup

/-- The removed children are those that are staged so. -/
theorem mem_removed_iff (h : WholeStaging dirHashes dirEntries) {directory : PathBuf}
    (hdir : dirEntries.lookup directory = some newChildren) :
    (∃ pair ∈ KeyedMap.toList (dirChildren db dirHashes directory newChildren).removed,
      pair.2 = entry) ↔ entry ∈ newChildren ∧ entry.status = .removed := by
  constructor
  · rintro ⟨⟨path, child⟩, hpair, rfl⟩
    rcases mem_removed_of_lookup (KeyedMap.mem_toList.mp hpair) with hold | hnew
    · cases hold
    · rcases hnew with ⟨c, hc, -, -, hstatus, hcompleted⟩
      rw [h.completed_eq hdir hc] at hcompleted
      rw [← hcompleted]
      exact ⟨hc, hstatus⟩
  · rintro ⟨hentry, hstatus⟩
    have hne := (h.parent directory newChildren hdir entry hentry).1
    have hmem : fullPath directory entry ∈
        (dirChildren db dirHashes directory newChildren).removed :=
      mem_removed_of_mem hentry hne hstatus
    rcases Option.isSome_iff_exists.mp (AList.lookup_isSome.mpr hmem) with ⟨child, hchild⟩
    refine ⟨(_, child), KeyedMap.mem_toList.mpr hchild, ?_⟩
    -- the child under this path is the only one that is staged there
    rcases mem_removed_of_lookup hchild with hold | hnew
    · cases hold
    · rcases hnew with ⟨c, hc, -, hpath, -, hcompleted⟩
      rw [h.completed_eq hdir hc] at hcompleted
      rw [h.fullPath_eq hdir hc, h.fullPath_eq hdir hentry] at hpath
      have hstaged := h.staged_of_mem hdir hc
      rw [hpath] at hstaged
      rw [← hcompleted]
      exact h.unique _ _ _ hstaged (h.staged_of_mem hdir hentry)

end WholeStaging

/-! ## The staged database -/

section Read

variable {dirEntries : DirEntries} {directory path : PathBuf} {entry child : StagedMerkleTreeNode}
  {staged : StagedDb}

/-- What one entry of the staged database adds. -/
def putStaged (dirEntries : DirEntries) (pair : PathBuf × StagedMerkleTreeNode) : DirEntries :=
  let dirEntries :=
    match pair.2.node with
    | .directory _ => KeyedMap.insertNew dirEntries pair.1 []
    | _ => dirEntries
  if pair.1 = [] then dirEntries
  else dirEntries.insert pair.1.dropLast
    ((dirEntries.lookup pair.1.dropLast).getD [] ++ [pair.2])

theorem readStagedEntries_eq (staged : StagedDb) :
    readStagedEntries staged = (KeyedMap.toList staged).foldl putStaged ∅ :=
  rfl

/-- The entry is listed under the directory. -/
def ListedIn (dirEntries : DirEntries) (directory : PathBuf) (entry : StagedMerkleTreeNode) :
    Prop :=
  ∃ newChildren, dirEntries.lookup directory = some newChildren ∧ entry ∈ newChildren

theorem listedIn_insertNew : ListedIn (KeyedMap.insertNew dirEntries path []) directory entry ↔
    ListedIn dirEntries directory entry := by
  unfold ListedIn
  rw [KeyedMap.lookup_insertNew]
  by_cases hpath : directory = path
  · subst hpath
    rw [if_pos rfl]
    cases dirEntries.lookup directory with
    | none => simp
    | some newChildren => simp
  · rw [if_neg hpath]

theorem mem_insertNew {newChildren : List StagedMerkleTreeNode} :
    directory ∈ KeyedMap.insertNew dirEntries path newChildren ↔
      directory = path ∨ directory ∈ dirEntries := by
  rw [← AList.lookup_isSome, KeyedMap.lookup_insertNew]
  by_cases hpath : directory = path
  · simp [hpath]
  · rw [if_neg hpath, AList.lookup_isSome]
    simp [hpath]

theorem listedIn_append : ListedIn (dirEntries.insert path
    ((dirEntries.lookup path).getD [] ++ [child])) directory entry ↔
      ListedIn dirEntries directory entry ∨ (path = directory ∧ entry = child) := by
  unfold ListedIn
  by_cases hpath : directory = path
  · subst hpath
    rw [AList.lookup_insert]
    cases dirEntries.lookup directory with
    | none => simp
    | some newChildren => simp
  · rw [AList.lookup_insert_ne hpath]
    simp [Ne.symm hpath]

theorem listedIn_putStaged {pair : PathBuf × StagedMerkleTreeNode} :
    ListedIn (putStaged dirEntries pair) directory entry ↔
      ListedIn dirEntries directory entry ∨
        (pair.1 ≠ [] ∧ pair.1.dropLast = directory ∧ entry = pair.2) := by
  obtain ⟨path, child⟩ := pair
  have hput : ∀ entries : DirEntries, (ListedIn entries directory entry ↔
      ListedIn dirEntries directory entry) →
      (ListedIn (if path = [] then entries else entries.insert path.dropLast
        ((entries.lookup path.dropLast).getD [] ++ [child])) directory entry ↔
      ListedIn dirEntries directory entry ∨
        (path ≠ [] ∧ path.dropLast = directory ∧ entry = child)) := by
    intro entries hsame
    by_cases hnil : path = []
    · simp [hnil, hsame]
    · simp [hnil, listedIn_append, hsame]
  unfold putStaged
  cases hnode : child.node with
  | directory d => exact hput _ listedIn_insertNew
  | file f => exact hput _ Iff.rfl
  | vnode v => exact hput _ Iff.rfl
  | commit c => exact hput _ Iff.rfl

theorem mem_putStaged {pair : PathBuf × StagedMerkleTreeNode} :
    directory ∈ putStaged dirEntries pair ↔ directory ∈ dirEntries ∨
      (∃ d, pair.2.node = .directory d ∧ directory = pair.1) ∨
        (pair.1 ≠ [] ∧ pair.1.dropLast = directory) := by
  obtain ⟨path, child⟩ := pair
  have hput : ∀ entries : DirEntries, (directory ∈ (if path = [] then entries
      else entries.insert path.dropLast
        ((entries.lookup path.dropLast).getD [] ++ [child])) ↔
      directory ∈ entries ∨ (path ≠ [] ∧ path.dropLast = directory)) := by
    intro entries
    by_cases hnil : path = []
    · simp [hnil]
    · rw [if_neg hnil, AList.mem_insert]
      constructor
      · rintro (rfl | hmem)
        · exact .inr ⟨hnil, rfl⟩
        · exact .inl hmem
      · rintro (hmem | ⟨-, rfl⟩)
        · exact .inr hmem
        · exact .inl rfl
  unfold putStaged
  cases hnode : child.node with
  | directory d =>
      refine (hput _).trans ?_
      rw [mem_insertNew]
      simp [or_assoc, or_comm, or_left_comm]
  | file f => simpa using hput dirEntries
  | vnode v => simpa using hput dirEntries
  | commit c => simpa using hput dirEntries

/-- The entries that are read under a directory are those of the staged database whose
parent it is. -/
theorem listedIn_readStagedEntries : ListedIn (readStagedEntries staged) directory entry ↔
    ∃ path, staged.lookup path = some entry ∧ path ≠ [] ∧ path.dropLast = directory := by
  have hfold : ∀ (pairs : List (PathBuf × StagedMerkleTreeNode)) (dirEntries : DirEntries),
      ListedIn (pairs.foldl putStaged dirEntries) directory entry ↔
        ListedIn dirEntries directory entry ∨
          ∃ pair ∈ pairs, pair.1 ≠ [] ∧ pair.1.dropLast = directory ∧ entry = pair.2 := by
    intro pairs
    induction pairs with
    | nil => simp
    | cons pair pairs ih =>
        intro dirEntries
        rw [List.foldl_cons, ih, listedIn_putStaged]
        simp only [List.mem_cons, exists_eq_or_imp, or_assoc]
  rw [readStagedEntries_eq, hfold]
  constructor
  · rintro (⟨newChildren, hnew, -⟩ | ⟨pair, hpair, hne, hparent, rfl⟩)
    · cases hnew
    · exact ⟨pair.1, KeyedMap.mem_toList.mp hpair, hne, hparent⟩
  · rintro ⟨path, hlookup, hne, hparent⟩
    exact .inr ⟨(path, entry), KeyedMap.mem_toList.mpr hlookup, hne, hparent, rfl⟩

theorem mem_readStagedEntries : directory ∈ readStagedEntries staged ↔
    (∃ entry d, staged.lookup directory = some entry ∧ entry.node = .directory d) ∨
      ∃ path ∈ staged, path ≠ [] ∧ path.dropLast = directory := by
  have hfold : ∀ (pairs : List (PathBuf × StagedMerkleTreeNode)) (dirEntries : DirEntries),
      directory ∈ pairs.foldl putStaged dirEntries ↔ directory ∈ dirEntries ∨
        ∃ pair ∈ pairs, (∃ d, pair.2.node = .directory d ∧ directory = pair.1) ∨
          (pair.1 ≠ [] ∧ pair.1.dropLast = directory) := by
    intro pairs
    induction pairs with
    | nil => simp
    | cons pair pairs ih =>
        intro dirEntries
        rw [List.foldl_cons, ih, mem_putStaged]
        simp only [List.mem_cons, exists_eq_or_imp, or_assoc]
  rw [readStagedEntries_eq, hfold]
  constructor
  · rintro (hnew | ⟨⟨path, entry⟩, hpair, ⟨d, hnode, rfl⟩ | ⟨hne, hparent⟩⟩)
    · cases hnew
    · exact .inl ⟨entry, d, KeyedMap.mem_toList.mp hpair, hnode⟩
    · have hlookup := KeyedMap.mem_toList.mp hpair
      exact .inr ⟨path, AList.lookup_isSome.mp (by rw [hlookup]; rfl), hne, hparent⟩
  · rintro (⟨entry, d, hlookup, hnode⟩ | ⟨path, hmem, hne, hparent⟩)
    · exact .inr ⟨(directory, entry), KeyedMap.mem_toList.mpr hlookup, .inl ⟨d, hnode, rfl⟩⟩
    · rcases Option.isSome_iff_exists.mp (AList.lookup_isSome.mpr hmem) with ⟨entry, hlookup⟩
      exact .inr ⟨(path, entry), KeyedMap.mem_toList.mpr hlookup, .inr ⟨hne, hparent⟩⟩

/-- A staged database of which a commit upon the index makes a tree. -/
structure WholeDb (dirHashes : DirHashes) (staged : StagedDb) : Prop where
  keyed : ∀ path entry, staged.lookup path = some entry → entry.path = path
  any : ∃ path ∈ staged, path ≠ []
  parent : ∀ path ∈ staged, path ≠ [] → path.dropLast ≠ [] →
    ∃ entry d, staged.lookup path.dropLast = some entry ∧ entry.node = .directory d
  kind : ∀ path entry, path ≠ [] → staged.lookup path = some entry → path ∈ dirHashes →
    ∃ d, entry.node = .directory d
  removed : ∀ path entry, path ≠ [] → staged.lookup path = some entry → entry.status = .removed →
    ∀ below, below ≠ [] → below.dropLast = path → (below ∈ staged ∨ below ∈ dirHashes) →
      ∃ entry', staged.lookup below = some entry' ∧ entry'.status = .removed
  changed : ∀ path entry f, staged.lookup path = some entry → entry.node = .file f →
    entry.status ≠ .unmodified

theorem staged_readStagedEntries (hkeyed : ∀ path entry, staged.lookup path = some entry →
    entry.path = path) :
    Staged (readStagedEntries staged) path entry ↔ path ≠ [] ∧ staged.lookup path = some entry := by
  have hlisted := @listedIn_readStagedEntries path.dropLast entry staged
  constructor
  · rintro ⟨hne, rfl, hin⟩
    rcases hlisted.mp hin with ⟨path, hlookup, -, -⟩
    rw [hkeyed path entry hlookup]
    exact ⟨by rwa [hkeyed path entry hlookup] at hne, hlookup⟩
  · rintro ⟨hne, hlookup⟩
    exact ⟨hne, hkeyed path entry hlookup, hlisted.mpr ⟨path, hlookup, hne, rfl⟩⟩

/-- Above every staged path there are directories with entries of their own, up to the root. -/
theorem WholeDb.root_mem {dirHashes : DirHashes} (h : WholeDb dirHashes staged)
    (hmem : path ∈ staged) (hne : path ≠ []) : [] ∈ readStagedEntries staged := by
  induction path using List.reverseRecOn with
  | nil => exact absurd rfl hne
  | append_singleton directory name ih =>
      by_cases hnil : directory = []
      · subst hnil
        exact mem_readStagedEntries.mpr (.inr ⟨_, hmem, hne, rfl⟩)
      · rcases h.parent _ hmem hne (by rwa [List.dropLast_concat]) with ⟨entry, d, hlookup, -⟩
        rw [List.dropLast_concat] at hlookup
        exact ih (AList.lookup_isSome.mp (by rw [hlookup]; rfl)) hnil

/-- What is read from such a database makes a tree. -/
theorem WholeDb.wholeStaging {dirHashes : DirHashes} (h : WholeDb dirHashes staged) :
    WholeStaging dirHashes (readStagedEntries staged) := by
  have hstaged : ∀ {path entry}, Staged (readStagedEntries staged) path entry ↔
      path ≠ [] ∧ staged.lookup path = some entry := staged_readStagedEntries h.keyed
  constructor
  · intro directory newChildren hdir child hchild
    rcases listedIn_readStagedEntries.mp ⟨newChildren, hdir, hchild⟩ with
      ⟨path, hlookup, hne, hparent⟩
    rw [h.keyed path child hlookup]
    exact ⟨hne, hparent⟩
  · intro path entry entry' hentry hentry'
    exact Option.some.inj ((hstaged.mp hentry).2.symm.trans (hstaged.mp hentry').2)
  · rcases h.any with ⟨path, hmem, hne⟩
    exact h.root_mem hmem hne
  · intro directory hmem hne
    rcases mem_readStagedEntries.mp hmem with
      ⟨entry, d, hlookup, hnode⟩ | ⟨path, hpath, hpathNe, rfl⟩
    · exact ⟨entry, d, hstaged.mpr ⟨hne, hlookup⟩, hnode⟩
    · rcases h.parent path hpath hpathNe hne with ⟨entry, d, hlookup, hnode⟩
      exact ⟨entry, d, hstaged.mpr ⟨hne, hlookup⟩, hnode⟩
  · intro path entry hentry _ d hnode
    exact mem_readStagedEntries.mpr (.inl ⟨entry, d, (hstaged.mp hentry).2, hnode⟩)
  · intro path entry hentry hindex
    exact h.kind path entry hentry.1 (hstaged.mp hentry).2 hindex
  · intro path entry hentry hstatus below hne hparent hbelow
    have hknown : below ∈ staged ∨ below ∈ dirHashes := by
      rcases hbelow with ⟨entry', hentry'⟩ | hmem
      · exact .inl (AList.lookup_isSome.mp (by rw [(hstaged.mp hentry').2]; rfl))
      · exact .inr hmem
    rcases h.removed path entry hentry.1 (hstaged.mp hentry).2 hstatus below hne hparent hknown with
      ⟨entry', hlookup, hremoved⟩
    exact ⟨entry', hstaged.mpr ⟨hne, hlookup⟩, hremoved⟩
  · intro path entry f hentry hnode
    exact h.changed path entry f (hstaged.mp hentry).2 hnode

end Read

end CommitWriter

end Oxen
