import Oxen.Lib.Subtrees
import Oxen.Model.Staging

/-! Restoring staged paths takes out what it should where the texts of the
staged paths tell them apart. -/

namespace Oxen

namespace RestoreStaged

open Subtrees

/-! ## Texts of paths -/

/-- A path of names, none of them empty or with a separator. -/
def Relative (path : PathBuf) : Prop :=
  ∀ name ∈ path, name ≠ "" ∧ '/' ∉ name.toList

theorem Relative.of_prefix {path q : PathBuf} (h : Relative path) (hq : q <+: path) : Relative q :=
  fun name hname => h name (hq.subset hname)

theorem keyText_eq (path : PathBuf) : keyText path = ['/'].intercalate (path.map String.toList) := by
  rw [keyText, PathBuf.display, String.toList_intercalate]
  rfl

theorem keyText_append {p rest : PathBuf} (hp : p ≠ []) (hrest : rest ≠ []) :
    keyText (p ++ rest) = keyText p ++ '/' :: keyText rest := by
  simp [keyText, PathBuf.display, String.intercalate_append_of_ne_nil hp hrest]

theorem keyText_isPrefix {p k : PathBuf} (h : p <+: k) : keyText p <+: keyText k := by
  rcases h with ⟨rest, rfl⟩
  by_cases hp : p = []
  · rw [hp]
    exact List.nil_prefix
  · by_cases hrest : rest = []
    · rw [hrest, List.append_nil]
    · rw [keyText_append hp hrest]
      exact List.prefix_append _ _

theorem keyText_ne_nil {path : PathBuf} (h : Relative path) (hne : path ≠ []) :
    keyText path ≠ [] := by
  rcases List.exists_cons_of_ne_nil hne with ⟨name, rest, rfl⟩
  have hname : name.toList ≠ [] := by
    intro hnil
    exact (h name (by simp)).1 (String.toList_eq_nil_iff.mp hnil)
  by_cases hrest : rest = []
  · rw [hrest]
    simpa [keyText, PathBuf.display] using hname
  · rw [← List.singleton_append, keyText_append (by simp) hrest]
    simp

theorem keyText_injective {p k : PathBuf} (hp : Relative p) (hk : Relative k)
    (h : keyText p = keyText k) : p = k := by
  by_cases hpnil : p = []
  · by_contra hne
    have hknil : k ≠ [] := fun heq => hne (hpnil.trans heq.symm)
    rw [hpnil] at h
    exact keyText_ne_nil hk hknil h.symm
  · by_cases hknil : k = []
    · rw [hknil] at h
      exact absurd h (keyText_ne_nil hp hpnil)
    · have hsplit : ∀ {q : PathBuf}, Relative q → q ≠ [] →
          (keyText q).splitOn '/' = q.map String.toList := by
        intro q hq hqnil
        rw [keyText_eq]
        apply List.splitOn_intercalate
        · intro name hname
          rcases List.mem_map.mp hname with ⟨s, hs, rfl⟩
          exact (hq s hs).2
        · simpa using hqnil
      have hnames := (hsplit hp hpnil).symm.trans ((congrArg _ h).trans (hsplit hk hknil))
      exact List.map_injective_iff.mpr (fun _ _ => String.toList_injective) hnames

def Starts (key path : PathBuf) : Prop :=
  keyText path <+: keyText key

theorem startsWith_iff {key path : PathBuf} : startsWith key path = true ↔ Starts key path := by
  rw [startsWith, List.isPrefixOf_iff_prefix, Starts]

theorem naming {path : PathBuf} (h : Relative path) : Naming Starts path where
  refl := fun k => List.prefix_refl (keyText k)
  shorter := fun hs hq => (keyText_isPrefix hq).trans hs
  antisymm := by
    intro k hs hk
    have htext := (keyText_isPrefix hk).eq_of_length
      (le_antisymm (keyText_isPrefix hk).length_le hs.length_le)
    exact keyText_injective (h.of_prefix hk) h htext

/-! ## One path -/

variable {db : StagedDb} {path key : PathBuf}

theorem lookup_writeBatch (db : StagedDb) (deleted : List PathBuf) (key : PathBuf) :
    (writeBatch db deleted).lookup key = if key ∈ deleted then none else db.lookup key := by
  rw [writeBatch, KeyedMap.lookup_foldl_erase_keys]
  congr

theorem mem_writeBatch {deleted : List PathBuf} :
    key ∈ writeBatch db deleted ↔ key ∈ db ∧ key ∉ deleted := by
  rw [← AList.lookup_isSome, ← AList.lookup_isSome, lookup_writeBatch]
  by_cases h : key ∈ deleted <;> simp [h]

theorem mem_entriesFrom : key ∈ entriesFrom db path ↔ key ∈ db ∧ Starts key path := by
  have hmem := @KeyScan.mem_takeWhile_scanFrom _ _ _ keyText db.keys (keyText path) key
  rw [AList.mem_keys]
  exact hmem

theorem hasChildren_iff (hdb : ∀ k ∈ db, Relative k) (hpath : Relative path) :
    hasChildren db path = true ↔ ∃ k ∈ db, Starts k path ∧ k ≠ path := by
  have hne : ∀ k ∈ db, (k.display ≠ path.display ↔ k ≠ path) := by
    intro k hk
    rw [not_iff_not]
    constructor
    · intro h
      exact keyText_injective (hdb k hk) hpath (congrArg String.toList h)
    · exact congrArg PathBuf.display
  simp only [hasChildren, List.any_eq_true, KeyScan.mem_scanFrom, Bool.and_eq_true, startsWith_iff,
    bne_iff_ne]
  constructor
  · rintro ⟨k, ⟨hk, -⟩, hs, hdisplay⟩
    have hk : k ∈ db := AList.mem_keys.mpr hk
    exact ⟨k, hk, hs, (hne k hk).mp hdisplay⟩
  · rintro ⟨k, hk, hs, hkne⟩
    exact ⟨k, ⟨AList.mem_keys.mp hk, KeyScan.le_of_isPrefix hs⟩, hs, (hne k hk).mpr hkne⟩

/-- What has children makes the directories above it have some. -/
theorem hasChildren_of_prefix (hdb : ∀ k ∈ db, Relative k) (hpath : Relative path) {q : PathBuf}
    (hq : q <+: path) (h : hasChildren db path = true) : hasChildren db q = true := by
  rcases (hasChildren_iff hdb hpath).mp h with ⟨k, hk, hs, hne⟩
  refine (hasChildren_iff hdb (hpath.of_prefix hq)).mpr ⟨k, hk, (naming hpath).shorter hs hq, ?_⟩
  rintro rfl
  exact hne ((naming hpath).antisymm hs hq)

theorem mem_emptyParents (hdb : ∀ k ∈ db, Relative k) (hpath : Relative path) {q : PathBuf} :
    q ∈ emptyParents db path.length path ↔
      q <+: path ∧ q ≠ path ∧ hasChildren db q = false := by
  induction hn : path.length generalizing path with
  | zero =>
      rw [List.length_eq_zero_iff.mp hn]
      simp +contextual [emptyParents]
  | succ n ih =>
      have hlen : path.dropLast.length = n := by
        rw [List.length_dropLast, hn, Nat.add_sub_cancel]
      have hparent : path.dropLast <+: path := List.dropLast_prefix path
      have hproper : q <+: path ∧ q ≠ path ↔ q <+: path.dropLast := by
        constructor
        · rintro ⟨hq, hne⟩
          apply List.prefix_of_prefix_length_le hq hparent
          have hlt := lt_of_le_of_ne hq.length_le fun h => hne (hq.eq_of_length h)
          omega
        · intro hq
          refine ⟨hq.trans hparent, ?_⟩
          rintro rfl
          have hle := hq.length_le
          omega
      rw [emptyParents, ← and_assoc, hproper]
      split
      · next hchildren =>
        simp only [List.not_mem_nil, false_iff, not_and, Bool.not_eq_false]
        intro hq
        exact hasChildren_of_prefix hdb (hpath.of_prefix hparent) hq hchildren
      · next hchildren =>
        rw [List.mem_cons, ih (hpath.of_prefix hparent) hlen, ← and_assoc]
        by_cases heq : q = path.dropLast
        · subst heq
          simpa using hchildren
        · simp [heq]

/-- A request scans for its own text, and for those of the paths above. -/
theorem mem_restorePath (hdb : ∀ k ∈ db, Relative k) (hpath : Relative path) :
    key ∈ restorePath db path ↔ ScanKeeps (· ∈ db) Starts path key := by
  have hfirst : ∀ k ∈ writeBatch db (entriesFrom db path), Relative k :=
    fun k hk => hdb k (mem_writeBatch.mp hk).1
  have hempty : key <+: path →
      (hasChildren (writeBatch db (entriesFrom db path)) key = false ↔
        ∀ k', k' ∈ db → Starts k' key → k' ≠ key → Starts k' path) := by
    intro hprefix
    rw [← Bool.not_eq_true, hasChildren_iff hfirst (hpath.of_prefix hprefix)]
    simp only [mem_writeBatch, mem_entriesFrom]
    constructor
    · intro h k' hk' hs hne
      by_contra hnot
      exact h ⟨k', ⟨hk', fun hboth => hnot hboth.2⟩, hs, hne⟩
    · rintro h ⟨k', ⟨hk', hnot⟩, hs, hne⟩
      exact hnot ⟨hk', h k' hk' hs hne⟩
  have habove : (key <+: path ∧ key ≠ path ∧
      hasChildren (writeBatch db (entriesFrom db path)) key = false) ↔
      key <+: path ∧ key ≠ path ∧ ∀ k', k' ∈ db → Starts k' key → k' ≠ key → Starts k' path :=
    and_congr_right fun hprefix => and_congr_right fun _ => hempty hprefix
  rw [restorePath, mem_writeBatch, mem_emptyParents hfirst hpath, mem_writeBatch, mem_entriesFrom,
    ScanKeeps, habove, and_assoc]
  exact and_congr_right fun hkey => and_congr_left fun _ => by simp [hkey]

theorem lookup_restorePath (db : StagedDb) (path key : PathBuf) (h : key ∈ restorePath db path) :
    (restorePath db path).lookup key = db.lookup key := by
  rw [restorePath, mem_writeBatch, mem_writeBatch] at h
  rw [restorePath, lookup_writeBatch, if_neg h.2, lookup_writeBatch, if_neg h.1.2]

/-! ## A list of paths -/

def IsDirEntry (db : StagedDb) (path : PathBuf) : Prop :=
  ∃ entry dir, db.lookup path = some entry ∧ entry.node = .directory dir

/-- The entries at and below the paths are deleted, and each directory above that
keeps no entry. -/
def RestoresExactly (db : StagedDb) (paths : List PathBuf) : Prop :=
  ∀ path entry, (restoreStaged db paths).lookup path = some entry ↔
    Remains (· ∈ db) (IsDirEntry db) paths path ∧ db.lookup path = some entry

theorem mem_iff_exists_lookup {db : StagedDb} : key ∈ db ↔ ∃ entry, db.lookup key = some entry := by
  rw [← AList.lookup_isSome, Option.isSome_iff_exists]

theorem restoreStaged_append (db : StagedDb) (paths : List PathBuf) (path : PathBuf) :
    restoreStaged db (paths ++ [path]) = restorePath (restoreStaged db paths) path := by
  rw [restoreStaged, List.foldl_append]
  rfl

theorem lookup_restoreStaged (db : StagedDb) (paths : List PathBuf) (h : key ∈ restoreStaged db paths) :
    (restoreStaged db paths).lookup key = db.lookup key := by
  induction paths using List.reverseRecOn with
  | nil => rfl
  | append_singleton paths path ih =>
      rw [restoreStaged_append] at h ⊢
      have hlookup := lookup_restorePath _ path key h
      have hmem : key ∈ restoreStaged db paths := by
        rw [mem_iff_exists_lookup] at h ⊢
        rwa [hlookup] at h
      rw [hlookup, ih hmem]

/-- No entry is changed, so only what is left matters. -/
theorem restoresExactly_iff_mem {paths : List PathBuf} :
    RestoresExactly db paths ↔
      ∀ k, k ∈ restoreStaged db paths ↔ Remains (· ∈ db) (IsDirEntry db) paths k := by
  constructor
  · intro h k
    constructor
    · intro hk
      rcases mem_iff_exists_lookup.mp hk with ⟨entry, hentry⟩
      exact ((h k entry).mp hentry).1
    · intro hk
      rcases mem_iff_exists_lookup.mp hk.isStaged with ⟨entry, hentry⟩
      exact mem_iff_exists_lookup.mpr ⟨entry, (h k entry).mpr ⟨hk, hentry⟩⟩
  · intro h k entry
    constructor
    · intro hentry
      have hk : k ∈ restoreStaged db paths := mem_iff_exists_lookup.mpr ⟨entry, hentry⟩
      exact ⟨(h k).mp hk, (lookup_restoreStaged db paths hk).symm.trans hentry⟩
    · rintro ⟨hleft, hentry⟩
      rw [lookup_restoreStaged db paths ((h k).mpr hleft), hentry]

/-- Each path is told apart by its text from what the paths before it leave. -/
def TextsSeparate (db : StagedDb) (paths : List PathBuf) : Prop :=
  ∀ n path, paths[n]? = some path →
    Subtrees.Separate (Remains (· ∈ db) (IsDirEntry db) (paths.take n)) (IsDirEntry db) Starts path

theorem relative_restoreStaged (hdb : ∀ k ∈ db, Relative k) (paths : List PathBuf) :
    ∀ k ∈ restoreStaged db paths, Relative k := by
  intro k hk
  rcases mem_iff_exists_lookup.mp hk with ⟨entry, hentry⟩
  rw [lookup_restoreStaged db paths hk] at hentry
  exact hdb k (mem_iff_exists_lookup.mpr ⟨entry, hentry⟩)

/-- One more path is restored exactly when it is told apart from what is left. -/
theorem restoresExactly_append_iff (hdb : ∀ k ∈ db, Relative k) (hpath : Relative path)
    {paths : List PathBuf} (h : RestoresExactly db paths) :
    RestoresExactly db (paths ++ [path]) ↔
      Subtrees.Separate (Remains (· ∈ db) (IsDirEntry db) paths) (IsDirEntry db) Starts path := by
  have hleft : (· ∈ restoreStaged db paths) = Remains (· ∈ db) (IsDirEntry db) paths :=
    funext fun k => propext (restoresExactly_iff_mem.mp h k)
  rw [restoresExactly_iff_mem, ← scanKeeps_iff_remains (naming hpath), restoreStaged_append]
  refine forall_congr' fun k => ?_
  rw [mem_restorePath (relative_restoreStaged hdb paths) hpath, remains_append_singleton, hleft]

theorem restoresExactly_nil (db : StagedDb) : RestoresExactly db [] := by
  rw [restoresExactly_iff_mem]
  intro k
  exact remains_nil.symm

/-- For a list and its beginnings, exactly the requested subtrees are unstaged when
each path is told apart from what the ones before it leave. -/
theorem restoresExactly_take_iff (hdb : ∀ k ∈ db, Relative k) {paths : List PathBuf}
    (hpaths : ∀ p ∈ paths, Relative p) :
    (∀ n, RestoresExactly db (paths.take n)) ↔ TextsSeparate db paths := by
  have hnext : ∀ {n path}, paths[n]? = some path → paths.take (n + 1) = paths.take n ++ [path] := by
    intro n path hn
    rw [List.take_add_one, hn, Option.toList_some]
  constructor
  · intro h n path hn
    have hstep := h (n + 1)
    rw [hnext hn] at hstep
    exact (restoresExactly_append_iff hdb (hpaths path (List.mem_of_getElem? hn)) (h n)).mp hstep
  · intro h n
    induction n with
    | zero => exact restoresExactly_nil db
    | succ n ih =>
        cases hn : paths[n]? with
        | none => rwa [List.take_add_one, hn, Option.toList_none, List.append_nil]
        | some path =>
            rw [hnext hn]
            exact (restoresExactly_append_iff hdb (hpaths path (List.mem_of_getElem? hn)) ih).mpr
              (h n path hn)

namespace DataExample

def stagedFile (path : PathBuf) : StagedMerkleTreeNode where
  status := .added
  node := .file { name := path, hash := 1 }

def stagedDir (path : PathBuf) : StagedMerkleTreeNode where
  status := .added
  node := .directory { name := path, hash := 2 }

/-- What adding `data/x` and `data.csv` stages. -/
def staged : StagedDb :=
  KeyedMap.insertAll ∅ [(["data", "x"], stagedFile ["data", "x"]), (["data"], stagedDir ["data"]),
    (["data.csv"], stagedFile ["data.csv"]), ([], stagedDir [])]

theorem staged_relative : ∀ k ∈ staged, Relative k := by
  intro k hk
  have hkeys : k ∈ [["data", "x"], ["data"], ["data.csv"], []] := by
    rcases KeyedMap.mem_insertAll.mp hk with h | h
    · exact absurd h (AList.notMem_empty k)
    · simpa using h
  simp only [List.mem_cons, List.not_mem_nil, or_false] at hkeys
  rcases hkeys with rfl | rfl | rfl | rfl <;> simp [Relative]

end DataExample

theorem restoresExactly_take_iff_data :
    (∀ n, RestoresExactly DataExample.staged ([["data"]].take n)) ↔
      TextsSeparate DataExample.staged [["data"]] :=
  restoresExactly_take_iff DataExample.staged_relative (by simp [Relative])

/-- Unstaging the directory `data` also unstages the file `data.csv` next to it. -/
theorem not_restoresExactly_data : ¬ RestoresExactly DataExample.staged [["data"]] := by
  intro h
  have hfile : DataExample.staged.lookup ["data.csv"] =
      some (DataExample.stagedFile ["data.csv"]) := by
    decide
  have hleft : Remains (· ∈ DataExample.staged) (IsDirEntry DataExample.staged) [["data"]]
      ["data.csv"] := by
    refine .kept (mem_iff_exists_lookup.mpr ⟨_, hfile⟩) (by simp) ?_
    rintro ⟨⟨entry, dir, hentry, hdir⟩, -⟩
    rw [hfile] at hentry
    cases hentry
    cases hdir
  have hgone : (restoreStaged DataExample.staged [["data"]]).lookup ["data.csv"] = none := by
    decide
  have hstays := (h ["data.csv"] _).mpr ⟨hleft, hfile⟩
  rw [hgone] at hstays
  cases hstays

end RestoreStaged

end Oxen
