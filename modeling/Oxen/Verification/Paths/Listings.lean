import Oxen.Lib.Batches
import Oxen.Lib.Runs
import Oxen.Verification.Diff.Pages
import Oxen.Verification.Paths.DirEntries

/-! When the listing of a directory is exact. -/

namespace Oxen

namespace DirEntries

open MerkleTreeNode CommitMerkleTree Commits
open Status (Entry HeadTree)

section Listings

variable (env : Env) (commit : CommitNode) (revision : PathBuf) (sortOpts : SortOpts)

/-- The children of a directory, each once and in order. -/
structure Listing (nested : PathBuf → Option (List MetadataEntry) → Prop) (path : PathBuf)
    (entries : List MetadataEntry) : Prop where
  ordered : entries.Pairwise fun a b => (compareEntries sortOpts a b).isLE
  once : (entries.map (·.filename)).Nodup
  sound : ∀ e ∈ entries, ∃ name n,
    Entry env.toEnv (env.dirHashes commit.hash) (path ++ [name]) n ∧
      Shows env commit revision nested (path ++ [name]) n e
  complete : ∀ name n, Entry env.toEnv (env.dirHashes commit.hash) (path ++ [name]) n →
    ∃ e ∈ entries, Shows env commit revision nested (path ++ [name]) n e

/-- Down to a depth every directory nests its own listing, if it has entries. -/
def ShownBelow : ℕ → PathBuf → Option (List MetadataEntry) → Prop
  | 0, _, children => children = none
  | depth + 1, path, children =>
      children ≠ some [] ∧
        Listing env commit revision sortOpts (ShownBelow depth) path (children.getD [])

/-- No file has the name of the directory that it lies in, so many levels down. -/
def NamesApart (levels : ℕ) (path : PathBuf) : Prop :=
  ∀ rest name f, rest.length ≤ levels → (path ++ rest).getLast? = some name →
    ¬ Entry env.toEnv (env.dirHashes commit.hash) (path ++ rest ++ [name]) (.file f)

variable {env commit revision sortOpts} {path : PathBuf}
  {nested : PathBuf → Option (List MetadataEntry) → Prop}

theorem exists_of_forall₂ {α β : Type*} {R : α → β → Prop} {as : List α} {bs : List β}
    (h : List.Forall₂ R as bs) : (∀ a ∈ as, ∃ b ∈ bs, R a b) ∧ ∀ b ∈ bs, ∃ a ∈ as, R a b := by
  induction h with
  | nil => simp
  | cons hab _ ih =>
      constructor
      · intro a ha
        rcases List.mem_cons.mp ha with rfl | ha
        · exact ⟨_, List.mem_cons_self, hab⟩
        · rcases ih.1 a ha with ⟨b, hb, hr⟩
          exact ⟨b, List.mem_cons_of_mem _ hb, hr⟩
      · intro b hb
        rcases List.mem_cons.mp hb with rfl | hb
        · exact ⟨_, List.mem_cons_self, hab⟩
        · rcases ih.2 b hb with ⟨a, ha, hr⟩
          exact ⟨a, List.mem_cons_of_mem _ ha, hr⟩

theorem Shows.filename {n : EMerkleTreeNode} {e : MetadataEntry}
    (h : Shows env commit revision nested path n e) {name : String}
    (hname : n.ownPath [] = [name]) : e.filename = name := by
  cases h with
  | @file f latest indexed hcommit hindexed =>
      have hf : f.name = [name] := hname
      rw [fileEntry, hf, PathBuf.display_singleton]
  | @directory d latest children hcommit hchildren =>
      have hd : d.name = [name] := hname
      rw [dirEntry, hd, PathBuf.display_singleton]

theorem Shows.isListable {n : EMerkleTreeNode} {e : MetadataEntry}
    (h : Shows env commit revision nested path n e) : IsListable env n := by
  cases h with
  | file hcommit hindexed =>
      exact ⟨Option.isSome_iff_exists.mpr ⟨_, hcommit⟩, workspaces_isOk_of_isIndexed hindexed⟩
  | directory hcommit hchildren => exact Option.isSome_iff_exists.mpr ⟨_, hcommit⟩

theorem Made.filename {n : EMerkleTreeNode} {e : MetadataEntry}
    (h : Made env commit revision nested path n e) {name : String}
    (hname : n.ownPath [] = [name]) : e.filename = name :=
  Shows.filename h hname

theorem Shows.children {d : DirNode} {e : MetadataEntry}
    (h : Shows env commit revision nested path (.directory d) e) : nested path e.children := by
  cases h with
  | directory hcommit hchildren => exact hchildren

/-- An entry shows a node at one path only. -/
theorem Shows.path_eq {path' : PathBuf} {n : EMerkleTreeNode} {e : MetadataEntry}
    {nested' : PathBuf → Option (List MetadataEntry) → Prop}
    (h : Shows env commit revision nested path n e)
    (h' : Shows env commit revision nested' path' n e) : path = path' := by
  cases h with
  | @file f latest indexed hcommit hindexed =>
      generalize he : fileEntry f latest indexed (resourceAt commit revision path) = e at h'
      cases h' with
      | @file _ latest' indexed' hcommit' hindexed' =>
          have hresource := congrArg MetadataEntry.resource he
          exact congrArg ParsedResource.path (Option.some.inj hresource)
  | @directory d latest children hcommit hchildren =>
      generalize he : ({ dirEntry d latest (resourceAt commit revision path) with
        children := children } : MetadataEntry) = e at h'
      cases h' with
      | @directory _ latest' children' hcommit' hchildren' =>
          have hresource := congrArg MetadataEntry.resource he
          exact congrArg ParsedResource.path (Option.some.inj hresource)

theorem singleton_suffix_iff {name : String} : [name] <:+ path ↔ path.getLast? = some name := by
  constructor
  · rintro ⟨rest, rfl⟩
    rw [List.getLast?_concat]
  · intro h
    exact ⟨path.dropLast, List.dropLast_append_getLast? name h⟩

/-- A file is shown at its own path unless the directory has its name. -/
theorem shows_file_iff {shown : PathBuf → Option (List MetadataEntry) → Prop} {f : FileNode}
    {name : String} (hname : f.name = [name]) {e : MetadataEntry}
    (h : Made env commit revision nested path (.file f) e) :
    Shows env commit revision shown (path ++ [name]) (.file f) e ↔
      path.getLast? ≠ some name := by
  have hlisted : listedPath path (.file f) =
      if path.getLast? = some name then path else path ++ [name] := by
    simp only [listedPath, hname, singleton_suffix_iff]
  rw [Made, hlisted] at h
  constructor
  · intro hshows hlast
    rw [if_pos hlast] at h
    have hlength := congrArg List.length (h.path_eq hshows)
    rw [List.length_append] at hlength
    exact absurd hlength (Nat.ne_of_lt (Nat.lt_succ_self _))
  · intro hlast
    rw [if_neg hlast] at h
    cases h with
    | file hcommit hindexed => exact .file hcommit hindexed

theorem listedPath_directory {d : DirNode} {name : String} (hname : d.name = [name]) :
    listedPath path (.directory d) = path ++ [name] := by
  show path ++ d.name = path ++ [name]
  rw [hname]

theorem shows_directory_iff {shown : PathBuf → Option (List MetadataEntry) → Prop} {d : DirNode}
    {name : String} (hname : d.name = [name]) {e : MetadataEntry}
    (h : Made env commit revision nested path (.directory d) e) :
    Shows env commit revision shown (path ++ [name]) (.directory d) e ↔
      shown (path ++ [name]) e.children := by
  rw [Made, listedPath_directory hname] at h
  cases h with
  | @directory _ latest children hcommit hchildren =>
      constructor
      · intro hshows
        generalize he : ({ dirEntry d latest (resourceAt commit revision (path ++ [name])) with
          children := children } : MetadataEntry) = e at hshows
        cases hshows with
        | @directory _ latest' children' hcommit' hchildren' => exact hchildren'
      · intro hshown
        exact .directory hcommit hshown

theorem filenames_made {ns : List EMerkleTreeNode} {es : List MetadataEntry}
    (h : List.Forall₂ (Made env commit revision nested path) ns es)
    (hname : ∀ n ∈ ns, ∃ name, n.ownPath [] = [name]) :
    (es.map fun e => [e.filename]) = ns.map fun n => n.ownPath [] := by
  induction h with
  | nil => rfl
  | cons hmade _ ih =>
      rcases hname _ List.mem_cons_self with ⟨name, hn⟩
      rw [List.map_cons, List.map_cons, hmade.filename hn, hn,
        ih fun n hn => hname n (List.mem_cons_of_mem _ hn)]

/-- The walk's entries by the children that they are made for. -/
theorem made_spec (head : HeadTree env.toEnv (env.dirHashes commit.hash)) {hash : MerkleHash}
    (hlookup : (env.dirHashes commit.hash).lookup path = some hash) {es : List MetadataEntry}
    (hes : List.Forall₂ (Made env commit revision nested path) (listed env.db hash) es) :
    (es.map (·.filename)).Nodup ∧
      (∀ e ∈ es, ∃ name n, Entry env.toEnv (env.dirHashes commit.hash) (path ++ [name]) n ∧
        Made env commit revision nested path n e) ∧
      ∀ name n, Entry env.toEnv (env.dirHashes commit.hash) (path ++ [name]) n →
        ∃ e ∈ es, Made env commit revision nested path n e := by
  have hlists := Status.lists_of_good head.good hlookup
  have hname : ∀ n ∈ listed env.db hash, ∃ name, n.ownPath [] = [name] := by
    intro n hn
    exact Status.exists_name_of_isEntry (hlists.isEntry (.mk n []) hn)
  refine ⟨?_, fun e he => ?_, fun name n hentry => ?_⟩
  · have hnodup := hlists.names
    rw [← filenames_made hes hname] at hnodup
    have hmap : (es.map fun e => [e.filename]) = (es.map (·.filename)).map fun name => [name] := by
      rw [List.map_map]
      rfl
    rw [hmap] at hnodup
    exact hnodup.of_map _
  · rcases (exists_of_forall₂ hes).2 e he with ⟨n, hn, hmade⟩
    rcases hname n hn with ⟨name, hownPath⟩
    exact ⟨name, n, (Status.entry_concat_iff hlookup).mpr ⟨hn, hownPath⟩, hmade⟩
  · exact (exists_of_forall₂ hes).1 n ((Status.entry_concat_iff hlookup).mp hentry).1

/-- The listing of a directory is exact if and only if no file has the directory's name and
the listings that are nested below it are exact. -/
theorem listing_iff (head : HeadTree env.toEnv (env.dirHashes commit.hash)) {hash : MerkleHash}
    (hlookup : (env.dirHashes commit.hash).lookup path = some hash) {es : List MetadataEntry}
    (hes : List.Forall₂ (Made env commit revision nested path) (listed env.db hash) es)
    {shown : PathBuf → Option (List MetadataEntry) → Prop} {apart : PathBuf → Prop}
    (hnested : ∀ name d, Entry env.toEnv (env.dirHashes commit.hash) (path ++ [name])
      (.directory d) → ∀ children, nested (path ++ [name]) children →
        (shown (path ++ [name]) children ↔ apart (path ++ [name]))) :
    Listing env commit revision sortOpts shown path (sortEntries sortOpts es) ↔
      (∀ name f, path.getLast? = some name →
        ¬ Entry env.toEnv (env.dirHashes commit.hash) (path ++ [name]) (.file f)) ∧
      ∀ name d, Entry env.toEnv (env.dirHashes commit.hash) (path ++ [name]) (.directory d) →
        apart (path ++ [name]) := by
  rcases made_spec head hlookup hes with ⟨honce, hsound, hcomplete⟩
  have hmem : ∀ e, e ∈ sortEntries sortOpts es ↔ e ∈ es :=
    fun e => (perm_sortEntries sortOpts es).mem_iff
  have hname : ∀ {name n}, Entry env.toEnv (env.dirHashes commit.hash) (path ++ [name]) n →
      n.ownPath [] = [name] := by
    intro name n hentry
    rw [hentry.name, CommitWriter.leafName_append_singleton]
  constructor
  · intro hlisting
    -- The entry that shows a child is the one that was made for it.
    have hmade : ∀ name n, Entry env.toEnv (env.dirHashes commit.hash) (path ++ [name]) n →
        ∃ e, Made env commit revision nested path n e ∧
          Shows env commit revision shown (path ++ [name]) n e := by
      intro name n hentry
      rcases hlisting.complete name n hentry with ⟨e, he, hshows⟩
      rcases hsound e ((hmem e).mp he) with ⟨name', n', hentry', hmade⟩
      have hsame : name' = name :=
        (hmade.filename (hname hentry')).symm.trans (hshows.filename (hname hentry))
      subst hsame
      obtain rfl := hentry.unique head.good hentry'
      exact ⟨e, hmade, hshows⟩
    constructor
    · intro name f hlast hentry
      rcases hmade name _ hentry with ⟨e, hmade, hshows⟩
      exact (shows_file_iff (hname hentry) hmade).mp hshows hlast
    · intro name d hentry
      rcases hmade name _ hentry with ⟨e, hmade, hshows⟩
      have hbelow := (shows_directory_iff (hname hentry) hmade).mp hshows
      refine (hnested name d hentry e.children ?_).mp hbelow
      rw [Made, listedPath_directory (hname hentry)] at hmade
      exact hmade.children
  · rintro ⟨hfiles, hdirs⟩
    have hshows : ∀ {name n e}, Entry env.toEnv (env.dirHashes commit.hash) (path ++ [name]) n →
        Made env commit revision nested path n e →
        Shows env commit revision shown (path ++ [name]) n e := by
      intro name n e hentry hmade
      rcases hentry.file_or_directory head.good with ⟨f, rfl⟩ | ⟨d, rfl⟩
      · apply (shows_file_iff (hname hentry) hmade).mpr
        intro hlast
        exact hfiles name f hlast hentry
      · apply (shows_directory_iff (hname hentry) hmade).mpr
        refine (hnested name d hentry e.children ?_).mpr (hdirs name d hentry)
        rw [Made, listedPath_directory (hname hentry)] at hmade
        exact hmade.children
    refine ⟨pairwise_sortEntries sortOpts es, ?_, fun e he => ?_, fun name n hentry => ?_⟩
    · exact (((perm_sortEntries sortOpts es).map _).nodup_iff).mpr honce
    · rcases hsound e ((hmem e).mp he) with ⟨name, n, hentry, hmade⟩
      exact ⟨name, n, hentry, hshows hentry hmade⟩
    · rcases hcomplete name n hentry with ⟨e, he, hmade⟩
      exact ⟨e, (hmem e).mpr he, hshows hentry hmade⟩

/-! ## All depths -/

/-- A path with more below it than a file is a directory. -/
theorem directory_of_below (head : HeadTree env.toEnv (env.dirHashes commit.hash))
    {name : String} {rest : PathBuf} (hne : rest ≠ []) {n : EMerkleTreeNode}
    (h : Entry env.toEnv (env.dirHashes commit.hash) (path ++ name :: rest) n) :
    ∃ d, Entry env.toEnv (env.dirHashes commit.hash) (path ++ [name]) (.directory d) := by
  have hprefix : path ++ [name] <+: path ++ name :: rest :=
    ⟨rest, (List.append_cons path name rest).symm⟩
  have hnil : path ++ [name] ≠ [] := List.append_ne_nil_of_right_ne_nil _ (List.cons_ne_nil _ _)
  have hproper : path ++ [name] ≠ path ++ name :: rest := by
    intro heq
    have htail := List.append_cancel_left heq
    rw [List.cons.injEq] at htail
    exact hne htail.2.symm
  exact (head.mem_iff _ hnil).mp ((h.of_isPrefix head hprefix hnil).2 hproper)

/-- What has to hold where listings are nested. -/
def ApartBelow (env : Env) (commit : CommitNode) : ℕ → PathBuf → Prop
  | 0, _ => True
  | levels + 1, path => NamesApart env commit levels path

theorem namesApart_iff (head : HeadTree env.toEnv (env.dirHashes commit.hash)) {levels : ℕ} :
    NamesApart env commit levels path ↔
      (∀ name f, path.getLast? = some name →
        ¬ Entry env.toEnv (env.dirHashes commit.hash) (path ++ [name]) (.file f)) ∧
      ∀ name d, Entry env.toEnv (env.dirHashes commit.hash) (path ++ [name]) (.directory d) →
        ApartBelow env commit levels (path ++ [name]) := by
  constructor
  · intro h
    constructor
    · intro name f hlast hentry
      refine h [] name f (Nat.zero_le _) ?_ ?_
      · rwa [List.append_nil]
      · rwa [List.append_nil]
    · intro name d _
      cases levels with
      | zero => trivial
      | succ levels =>
          intro rest last f hlength hlast hentry
          rw [← List.append_cons] at hlast hentry
          exact h (name :: rest) last f (Nat.succ_le_succ hlength) hlast hentry
  · rintro ⟨hfiles, hdirs⟩ rest last f hlength hlast hentry
    cases rest with
    | nil =>
        rw [List.append_nil] at hlast hentry
        exact hfiles last f hlast hentry
    | cons name rest =>
        cases levels with
        | zero => exact absurd hlength (Nat.not_succ_le_zero _)
        | succ levels =>
            have hbelow : path ++ name :: rest ++ [last] = path ++ name :: (rest ++ [last]) := by
              rw [List.append_assoc, List.cons_append]
            rw [hbelow] at hentry
            have hne : rest ++ [last] ≠ [] :=
              List.append_ne_nil_of_right_ne_nil _ (List.cons_ne_nil _ _)
            rcases directory_of_below head hne hentry with ⟨d, hd⟩
            refine hdirs name d hd rest last f (Nat.le_of_succ_le_succ hlength) ?_ ?_
            · rwa [← List.append_cons]
            · rwa [← List.append_cons, hbelow]

/-- The nested listings are exact if and only if names are apart. -/
theorem shownBelow_iff (head : HeadTree env.toEnv (env.dirHashes commit.hash)) {depth : ℕ}
    {children : Option (List MetadataEntry)}
    (h : MadeBelow env commit revision sortOpts depth path children) :
    ShownBelow env commit revision sortOpts depth path children ↔
      ApartBelow env commit depth path := by
  induction depth generalizing path children with
  | zero => exact ⟨fun _ => trivial, fun _ => h⟩
  | succ depth ih =>
      rcases h with ⟨hash, es, hlookup, hes, rfl⟩
      have hlisting := @listing_iff env commit revision sortOpts path _ head hash hlookup es hes
        (ShownBelow env commit revision sortOpts depth) (ApartBelow env commit depth)
        fun name d _ children hmade => ih hmade
      rw [ApartBelow, namesApart_iff head, ← hlisting, ShownBelow]
      cases hsorted : sortEntries sortOpts es with
      | nil => simp
      | cons e rest => simp

theorem entriesListable_of_listing (head : HeadTree env.toEnv (env.dirHashes commit.hash))
    {depth : ℕ} {entries : List MetadataEntry}
    (h : Listing env commit revision sortOpts (ShownBelow env commit revision sortOpts depth)
      path entries) : EntriesListable env commit (depth + 1) path := by
  induction depth generalizing path entries with
  | zero =>
      intro rest n hne hlength hentry
      rcases List.length_eq_one_iff.mp
        (Nat.le_antisymm hlength (List.length_pos_iff.mpr hne)) with ⟨name, rfl⟩
      rcases h.complete name n hentry with ⟨e, -, hshows⟩
      exact hshows.isListable
  | succ depth ih =>
      intro rest n hne hlength hentry
      cases rest with
      | nil => exact absurd rfl hne
      | cons name rest =>
          by_cases hrest : rest = []
          · subst hrest
            rcases h.complete name n hentry with ⟨e, -, hshows⟩
            exact hshows.isListable
          · rcases directory_of_below head hrest hentry with ⟨d, hd⟩
            rcases h.complete name _ hd with ⟨e, -, hshows⟩
            refine ih hshows.children.2 rest n hrest (Nat.le_of_succ_le_succ hlength) ?_
            rwa [← List.append_cons]

/-! ## Pages -/

/-- A page is one stretch of the list, as long as its end is in range. -/
theorem paginate_eq {α : Type} (entries : List α) (i pageSize : ℕ) :
    paginate env entries (i + 1) pageSize =
      if i * pageSize + pageSize ≤ usizeMax then
        some ((entries.drop (i * pageSize)).take pageSize, {
          pageSize
          pageNumber := i + 1
          totalPages := env.ceilQuotient entries.length pageSize
          totalEntries := entries.length })
      else none := by
  by_cases hstart : i * pageSize ≤ usizeMax
  · have hindex : Paginate.startIndex (i + 1) pageSize = some (i * pageSize) := by
      rw [Paginate.startIndex_eq (by rwa [Nat.add_sub_cancel]), Nat.add_sub_cancel]
    by_cases hstop : i * pageSize + pageSize ≤ usizeMax
    · rw [paginate, hindex, if_pos hstop]
      simp only [Option.bind_eq_bind, Option.bind_some, Paginate.add_of_le hstop,
        Nat.add_sub_cancel_left]
      split
      · next hlast =>
        rw [List.take_of_length_le (by rw [List.length_drop]; omega)]
        rfl
      · split
        · rfl
        · next hout =>
          rw [List.drop_of_length_le (Nat.le_of_not_lt hout), List.take_nil]
          rfl
    · rw [paginate, hindex, if_neg hstop]
      simp only [Option.bind_eq_bind, Option.bind_some, Paginate.add, if_neg hstop,
        Option.bind_none]
  · have hindex : Paginate.startIndex (i + 1) pageSize = none := by
      simp [Paginate.startIndex, Paginate.sub, Paginate.mul, hstart]
    rw [paginate, hindex, if_neg fun hstop => hstart (by omega)]
    rfl

variable (env commit revision sortOpts)

/-- The last commit of the listed directory is in the store. -/
def DirCommitStored (directory : PathBuf) : Prop :=
  ∀ dirNode vnodes, getDirWithChildren env commit directory =
    some (mk (.directory dirNode) vnodes) → IsListable env (.directory dirNode)

/-- As many pages as the reported number of entries fills show the directory's listing. -/
def ListsExactly (depth pageSize : ℕ) (directory : PathBuf) : Prop :=
  ∃ pages : List PaginatedDirEntries, pages ≠ [] ∧
    (∀ i page, pages[i]? = some page →
      listDirectoryWDepth env (some commit) revision directory (i + 1) pageSize sortOpts depth =
          .ok page ∧
        pages.length = max 1 (page.pagination.totalEntries ⌈/⌉ pageSize)) ∧
    Listing env commit revision sortOpts (ShownBelow env commit revision sortOpts depth) directory
      (pages.flatMap (·.entries))

variable {env commit revision sortOpts} {directory : PathBuf} {depth pageSize : ℕ}

/-- If everything can be listed, the pages are cut from one list. -/
theorem listDirectory_run (head : HeadTree env.toEnv (env.dirHashes commit.hash))
    (hfuel : 2 ≤ env.fuel) {hash : MerkleHash}
    (hlookup : (env.dirHashes commit.hash).lookup directory = some hash)
    (hdir : DirCommitStored env commit directory)
    (hstored : EntriesListable env commit (depth + 1) directory) :
    ∃ dir es, List.Forall₂ (Made env commit revision
        (MadeBelow env commit revision sortOpts depth) directory) (listed env.db hash) es ∧
      ∀ page pageSize,
        listDirectoryWDepth env (some commit) revision directory page pageSize sortOpts depth =
          (paginate env (sortEntries sortOpts es) page pageSize).elim (.error .overflow)
            fun shown => .ok {
              dir
              entries := shown.1
              resource := { path := directory.display, version := revision.display }
              pagination := shown.2 } := by
  rcases exists_dir head hfuel hlookup with ⟨dirNode, vnodes, hload, hvnodes, hlisted, hentry⟩
  rcases Option.isSome_iff_exists.mp (hdir dirNode vnodes hload) with ⟨latest, hlatest⟩
  have hnested : ∀ name d,
      Entry env.toEnv (env.dirHashes commit.hash) (directory ++ [name]) (.directory d) →
      Yields env (childrenToDepth env sortOpts depth (resourceAt commit revision directory)
        (directory ++ [name]))
        (MadeBelow env commit revision sortOpts depth (directory ++ [name])) := by
    intro name d hd
    have hmem := (head.mem_iff (directory ++ [name]) hd.ne_nil).mpr ⟨d, hd⟩
    exact yields_childrenToDepth head hfuel rfl rfl hmem hstored.below
  rcases @yields_dirNodeToMetadataEntry env latest (resourceAt commit revision directory) dirNode
    false hlatest ∅ cacheSound_empty with ⟨dir, cache, hrunDir, hcache, -⟩
  rcases yields_walk hlookup hvnodes hlisted hentry hstored hnested cache hcache with
    ⟨es, cache', hrunWalk, -, hes⟩
  refine ⟨dir, es, hes, fun page pageSize => ?_⟩
  have hrunEntries : (dirEntriesWithDepth env (mk (.directory dirNode) vnodes) directory
      (resourceAt commit revision directory) sortOpts depth).run cache =
      .ok (sortEntries sortOpts es, cache') := by
    rw [dirEntriesWithDepth, StateT.run_bind, children_mk, hrunWalk]
    rfl
  have hrun : (listDirectoryM env directory (resourceAt commit revision directory) page pageSize
      sortOpts depth).run ∅ =
      (paginate env (sortEntries sortOpts es) page pageSize).elim (.error .overflow)
        fun shown => .ok ({
          dir
          entries := shown.1
          resource := { path := directory.display, version := revision.display }
          pagination := shown.2 }, cache') := by
    have hcommit : (resourceAt commit revision directory).commit = some commit := rfl
    rw [listDirectoryM, hcommit]
    simp only [hload]
    rw [StateT.run_bind, hrunDir, Runs.ok_bind, StateT.run_bind, hrunEntries, Runs.ok_bind]
    cases paginate env (sortEntries sortOpts es) page pageSize with
    | none => rfl
    | some shown => rfl
  show (listDirectoryM env directory (resourceAt commit revision directory) page pageSize
    sortOpts depth).run' ∅ = _
  rw [StateT.run'_eq, hrun]
  cases paginate env (sortEntries sortOpts es) page pageSize with
  | none => rfl
  | some shown => rfl

/-- Without the directory's last commit there is no page. -/
theorem dirCommitStored_of_ok {page : ℕ} {shown : PaginatedDirEntries}
    (h : listDirectoryWDepth env (some commit) revision directory page pageSize sortOpts depth =
      .ok shown) : DirCommitStored env commit directory := by
  intro dirNode vnodes hload
  rw [IsListable, Option.isSome_iff_ne_none]
  intro hnone
  have hrun : (listDirectoryM env directory (resourceAt commit revision directory) page pageSize
      sortOpts depth).run ∅ = .error (.commitIdDoesNotExist dirNode.lastCommitId) := by
    have hcommit : (resourceAt commit revision directory).commit = some commit := rfl
    rw [listDirectoryM, hcommit]
    simp only [hload, dirNodeToMetadataEntry, findCommit, hnone]
    rfl
  have hpage : (listDirectoryM env directory (resourceAt commit revision directory) page pageSize
      sortOpts depth).run' ∅ = .ok shown := h
  rw [StateT.run'_eq, hrun] at hpage
  cases hpage

theorem ceilDiv_le_max (entries pageSize : ℕ) (hsize : 0 < pageSize) :
    entries ≤ max 1 (entries ⌈/⌉ pageSize) * pageSize := by
  rw [Nat.mul_comm]
  exact (ceilDiv_le_iff_le_mul hsize).mp (le_max_right _ _)

/-- The stretches that the pages show make up the list. -/
theorem flatMap_pages {pages : List PaginatedDirEntries} {entries : List MetadataEntry}
    (hsize : 0 < pageSize) (hlength : pages.length = max 1 (entries.length ⌈/⌉ pageSize))
    (hpages : ∀ i page, pages[i]? = some page →
      page.entries = (entries.drop (i * pageSize)).take pageSize) :
    pages.flatMap (·.entries) = entries := by
  have hmap : pages.map (·.entries) =
      (List.range pages.length).map fun i => (entries.drop (i * pageSize)).take pageSize := by
    apply List.ext_getElem?
    intro i
    rw [List.getElem?_map, List.getElem?_map]
    cases hpage : pages[i]? with
    | none =>
        have hlen : (List.range pages.length).length ≤ i := by
          rw [List.length_range]
          exact List.getElem?_eq_none_iff.mp hpage
        rw [List.getElem?_eq_none hlen]
        rfl
    | some page =>
        rw [List.getElem?_range (List.getElem?_eq_some_iff.mp hpage).1, Option.map_some,
          Option.map_some, hpages i page hpage]
  rw [List.flatMap_def, hmap, Batches.flatten_batches, hlength]
  exact List.take_of_length_le (ceilDiv_le_max _ _ hsize)

/-- A page that is needed for a list in memory is in range. -/
theorem page_in_range {entries : List MetadataEntry} (hsize : 0 < pageSize)
    (hmax : pageSize ≤ usizeMax) (hsmall : entries.length < 2 ^ 63) {i : ℕ}
    (hi : i < max 1 (entries.length ⌈/⌉ pageSize)) : i * pageSize + pageSize ≤ usizeMax := by
  cases i with
  | zero => omega
  | succ i =>
      have hlt : ¬ entries.length ≤ pageSize * (i + 1) := by
        intro hle
        have hceil := (ceilDiv_le_iff_le_mul hsize).mpr hle
        rcases lt_max_iff.mp hi with hone | hi
        · omega
        · omega
      have hpage : pageSize ≤ (i + 1) * pageSize := Nat.le_mul_of_pos_left _ (Nat.succ_pos i)
      rw [Nat.mul_comm] at hlt
      rw [usizeMax]
      omega

/-- A walk's list is exact if and only if no file has the name of its directory. -/
theorem listing_iff_namesApart (head : HeadTree env.toEnv (env.dirHashes commit.hash))
    {hash : MerkleHash} (hlookup : (env.dirHashes commit.hash).lookup directory = some hash)
    {es : List MetadataEntry} (hes : List.Forall₂ (Made env commit revision
      (MadeBelow env commit revision sortOpts depth) directory) (listed env.db hash) es) :
    Listing env commit revision sortOpts (ShownBelow env commit revision sortOpts depth) directory
      (sortEntries sortOpts es) ↔ NamesApart env commit depth directory := by
  rw [namesApart_iff head]
  exact listing_iff head hlookup hes fun name d _ children hmade => shownBelow_iff head hmade

theorem conditions_of_listsExactly (head : HeadTree env.toEnv (env.dirHashes commit.hash))
    (hfuel : 2 ≤ env.fuel) {hash : MerkleHash}
    (hlookup : (env.dirHashes commit.hash).lookup directory = some hash) (hsize : 0 < pageSize)
    (h : ListsExactly env commit revision sortOpts depth pageSize directory) :
    DirCommitStored env commit directory ∧ EntriesListable env commit (depth + 1) directory ∧
      NamesApart env commit depth directory := by
  rcases h with ⟨pages, hne, hpages, hlisting⟩
  have hstored := entriesListable_of_listing head hlisting
  rcases List.exists_mem_of_ne_nil pages hne with ⟨page, hpage⟩
  rcases List.getElem?_of_mem hpage with ⟨i, hi⟩
  have hdir := dirCommitStored_of_ok (hpages i page hi).1
  rcases @listDirectory_run env commit revision sortOpts directory depth head hfuel hash hlookup
    hdir hstored with ⟨dir, es, hes, hrun⟩
  have hshown : ∀ i page, pages[i]? = some page →
      page.entries = ((sortEntries sortOpts es).drop (i * pageSize)).take pageSize ∧
        page.pagination.totalEntries = (sortEntries sortOpts es).length := by
    intro i page hi
    have hok := (hpages i page hi).1
    rw [hrun, paginate_eq] at hok
    split at hok
    · cases hok
      exact ⟨rfl, rfl⟩
    · cases hok
  have hlength := (hpages i page hi).2
  rw [(hshown i page hi).2] at hlength
  rw [flatMap_pages hsize hlength fun i page hi => (hshown i page hi).1] at hlisting
  exact ⟨hdir, hstored, (listing_iff_namesApart head hlookup hes).mp hlisting⟩

/-- The pages of a listing are exact if and only if everything that they show can be listed and
no file has the name of its directory. -/
theorem listsExactly_iff (head : HeadTree env.toEnv (env.dirHashes commit.hash))
    (hfuel : 2 ≤ env.fuel) (hmem : directory ∈ env.dirHashes commit.hash) (hsize : 0 < pageSize)
    (hmax : pageSize ≤ usizeMax)
    (hsmall : ∀ hash, (env.dirHashes commit.hash).lookup directory = some hash →
      (listed env.db hash).length < 2 ^ 63) :
    ListsExactly env commit revision sortOpts depth pageSize directory ↔
      DirCommitStored env commit directory ∧ EntriesListable env commit (depth + 1) directory ∧
        NamesApart env commit depth directory := by
  rcases Option.isSome_iff_exists.mp (AList.lookup_isSome.mpr hmem) with ⟨hash, hlookup⟩
  constructor
  · exact conditions_of_listsExactly head hfuel hlookup hsize
  · rintro ⟨hdir, hstored, hnames⟩
    rcases @listDirectory_run env commit revision sortOpts directory depth head hfuel hash hlookup
      hdir hstored with ⟨dir, es, hes, hrun⟩
    have hcount : (sortEntries sortOpts es).length < 2 ^ 63 := by
      rw [(perm_sortEntries sortOpts es).length_eq, ← hes.length_eq]
      exact hsmall hash hlookup
    let pageAt (i : ℕ) : PaginatedDirEntries := {
      dir
      entries := ((sortEntries sortOpts es).drop (i * pageSize)).take pageSize
      resource := { path := directory.display, version := revision.display }
      pagination := {
        pageSize
        pageNumber := i + 1
        totalPages := env.ceilQuotient (sortEntries sortOpts es).length pageSize
        totalEntries := (sortEntries sortOpts es).length } }
    let pages :=
      (List.range (max 1 ((sortEntries sortOpts es).length ⌈/⌉ pageSize))).map pageAt
    have hlength : pages.length = max 1 ((sortEntries sortOpts es).length ⌈/⌉ pageSize) := by
      rw [List.length_map, List.length_range]
    have hat : ∀ i page, pages[i]? = some page →
        i < max 1 ((sortEntries sortOpts es).length ⌈/⌉ pageSize) ∧ page = pageAt i := by
      intro i page hi
      have hlt := (List.getElem?_eq_some_iff.mp hi).1
      rw [hlength] at hlt
      rw [List.getElem?_map, List.getElem?_range hlt, Option.map_some] at hi
      exact ⟨hlt, (Option.some.inj hi).symm⟩
    refine ⟨pages, ?_, fun i page hi => ?_, ?_⟩
    · rw [← List.length_pos_iff, hlength]
      exact lt_max_of_lt_left Nat.one_pos
    · rcases hat i page hi with ⟨hlt, rfl⟩
      refine ⟨?_, hlength⟩
      rw [hrun, paginate_eq, if_pos (page_in_range hsize hmax hcount hlt)]
      rfl
    · rw [flatMap_pages hsize hlength fun i page hi => by rw [(hat i page hi).2]]
      exact (listing_iff_namesApart head hlookup hes).mpr hnames

end Listings

namespace ListingExample

def fileA : FileNode :=
  { Oxen.Example.fileNode "a" [1] 1 with lastCommitId := 0x1 }

def dirA : DirNode where
  name := ["a"]
  hash := 0x20
  lastCommitId := 0x1

def inner : MerkleTreeNode :=
  .mk (.directory dirA) [.mk (.vnode { hash := 0x21 }) [.mk (.file fileA) []]]

def root : MerkleTreeNode :=
  .mk (.directory { name := [], hash := 0x10, lastCommitId := 0x1 })
    [.mk (.vnode { hash := 0x11 }) [inner]]

def commit : CommitNode where
  hash := 0x1

/-- A file `a` in a directory `a`. -/
def env : Env where
  toLocalRepository := Oxen.Example.repo
  db := .ofTrees [.mk (.commit commit) [root]]
  dirHashes _ := KeyedMap.insertAll ∅ [([], 0x10), (["a"], 0x20)]
  refs := {}
  gitignore _ _ := false
  fuel := 10
  workspaces := .ok []
  ceilQuotient := (· ⌈/⌉ ·)

abbrev index : DirHashes :=
  env.dirHashes commit.hash

theorem lookup_index {path : PathBuf} {hash : MerkleHash} (h : index.lookup path = some hash) :
    path = [] ∧ hash = 0x10 ∨ path = ["a"] ∧ hash = 0x20 := by
  rcases KeyedMap.lookup_insert_eq_some.mp h with ⟨rfl, rfl⟩ | ⟨-, h⟩
  · exact .inr ⟨rfl, rfl⟩
  · rcases KeyedMap.lookup_insert_eq_some.mp h with ⟨rfl, rfl⟩ | ⟨-, hnone⟩
    · exact .inl ⟨rfl, rfl⟩
    · cases hnone

theorem wellPlaced_inner (path : PathBuf) : WellPlaced env.toHost path inner := by
  refine wellPlaced_single (by decide) (by decide) fun c hc => ?_
  obtain rfl := List.mem_singleton.mp hc
  exact CommitWriter.wellPlaced_file _ _

theorem wellPlaced_root : WellPlaced env.toHost [] root := by
  refine wellPlaced_single (by decide) (by decide) fun c hc => ?_
  obtain rfl := List.mem_singleton.mp hc
  exact wellPlaced_inner _

theorem listed_root : listed env.db 0x10 = [.directory dirA] := by
  decide

theorem listed_inner : listed env.db 0x20 = [.file fileA] := by
  decide

theorem entry_eq {path : PathBuf} {n : EMerkleTreeNode} (h : Entry env.toEnv index path n) :
    path = ["a"] ∧ n = .directory dirA ∨ path = ["a", "a"] ∧ n = .file fileA := by
  rcases h.listed with ⟨hash, hlookup, hmem⟩
  rcases lookup_index hlookup with ⟨hparent, rfl⟩ | ⟨hparent, rfl⟩
  · rw [listed_root] at hmem
    obtain rfl := List.mem_singleton.mp hmem
    refine .inl ⟨?_, rfl⟩
    rw [← CommitWriter.dropLast_append_leafName path, hparent, ← h.name]
    rfl
  · rw [listed_inner] at hmem
    obtain rfl := List.mem_singleton.mp hmem
    refine .inr ⟨?_, rfl⟩
    rw [← CommitWriter.dropLast_append_leafName path, hparent, ← h.name]
    rfl

theorem entry_dirA : Entry env.toEnv index ["a"] (.directory dirA) :=
  ⟨by decide, ⟨0x10, by decide, by rw [listed_root]; exact List.mem_cons_self⟩, rfl⟩

theorem entry_fileA : Entry env.toEnv index ["a", "a"] (.file fileA) :=
  ⟨by decide, ⟨0x20, by decide, by rw [listed_inner]; exact List.mem_cons_self⟩, rfl⟩

theorem headTree : HeadTree env.toEnv index where
  good path hash hlookup := by
    have hstored : root.Stored env.db := by decide
    rcases lookup_index hlookup with ⟨rfl, rfl⟩ | ⟨rfl, rfl⟩
    · exact ⟨_, root.children, rfl, rfl, hstored.held, wellPlaced_root⟩
    · exact ⟨dirA, inner.children, rfl, rfl,
        (hstored.held.child _ (List.mem_singleton.mpr rfl)).child _ (List.mem_singleton.mpr rfl),
        wellPlaced_inner _⟩
  mem_iff path hne := by
    constructor
    · intro hmem
      rcases Option.isSome_iff_exists.mp (AList.lookup_isSome.mpr hmem) with ⟨hash, hlookup⟩
      rcases lookup_index hlookup with ⟨rfl, -⟩ | ⟨rfl, -⟩
      · exact absurd rfl hne
      · exact ⟨_, entry_dirA⟩
    · rintro ⟨d, hd⟩
      rcases entry_eq hd with ⟨rfl, -⟩ | ⟨-, hfile⟩
      · decide
      · cases hfile

theorem isListable {path : PathBuf} {n : EMerkleTreeNode} (h : Entry env.toEnv index path n) :
    IsListable env n := by
  rcases entry_eq h with ⟨-, rfl⟩ | ⟨-, rfl⟩
  · show (getByHash env.db 0x1).isSome
    decide
  · refine ⟨?_, fun _ => rfl⟩
    show (getByHash env.db 0x1).isSome
    decide

theorem dirCommitStored_root : DirCommitStored env commit [] := by
  intro dirNode vnodes hload
  have hid : (getDirWithChildren env commit []).map node =
      some (.directory { name := [], hash := 0x10, lastCommitId := 0x1 }) := by decide
  rw [hload] at hid
  cases hid
  show (getByHash env.db 0x1).isSome
  decide

theorem namesApart_root : NamesApart env commit 0 [] := by
  intro rest name f hlength hlast
  obtain rfl := List.length_eq_zero_iff.mp (Nat.le_zero.mp hlength)
  cases hlast

end ListingExample

open ListingExample in
/-- The root directory lists the directory `a`. -/
theorem listsExactly_root : ListsExactly env commit ["main"] {} 0 10 [] :=
  (listsExactly_iff headTree (by decide) (by decide) (by decide) (by decide)
    (fun hash hlookup => by
      rcases lookup_index hlookup with ⟨-, rfl⟩ | ⟨hne, -⟩
      · rw [listed_root]
        decide
      · cases hne)).mpr
    ⟨dirCommitStored_root, fun _ _ _ _ hentry => isListable hentry, namesApart_root⟩

open ListingExample in
/-- The file in the directory of its name is listed at the path of the directory. -/
theorem not_listsExactly : ¬ ListsExactly env commit ["main"] {} 0 10 ["a"] := by
  intro h
  have hlookup : index.lookup ["a"] = some 0x20 := by decide
  rcases conditions_of_listsExactly headTree (by decide) hlookup (by decide) h with
    ⟨-, -, hnames⟩
  exact hnames [] "a" fileA (Nat.le_refl _) rfl entry_fileA

end DirEntries

end Oxen
